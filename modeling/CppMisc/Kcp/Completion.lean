import CppMisc.Kcp.Reliability

/-!
# Nothing gets stuck in the receiver

Segments wait in `rcv_buf` for their turn or for room in `rcv_queue`. An endpoint is `Drained` when the
segment that is next in turn waits only in front of a full queue; every operation leaves it so. A full queue
has a complete message in it, which is what the comment "must >= max fragment size" at `IKCP_WND_RCV` is
about, so the application can always go on reading.
-/

set_option autoImplicit false

namespace CppMisc.Kcp

open CppMisc.Library

/-- The segment that is next in turn does not wait, except for room in a full queue. -/
def Receiver.Drained (r : Receiver) : Prop :=
  ∀ seg rest, r.buf = seg :: rest → seg.sn = r.nxt → wndRcv.toNat ≤ r.queue.length

/-- An endpoint in order with nothing waiting needlessly. -/
structure Ikcpcb.Ready (kcp : Ikcpcb) : Prop where
  ordered : kcp.Ordered
  drained : kcp.receiver.Drained

namespace Ikcpcb.Ready

variable {kcp : Ikcpcb}

/-- The segment that is next in turn is the first one of `rcv_buf`, and waits in front of a full queue. -/
theorem full (h : kcp.Ready) {seg : Seg} (hseg : seg ∈ kcp.receiver.buf) (hturn : seg.sn = kcp.receiver.nxt) :
    wndRcv.toNat ≤ kcp.rcvQueue.length := by
  cases hrcv : kcp.receiver.buf with
  | nil =>
      rw [hrcv] at hseg
      exact absurd hseg List.not_mem_nil
  | cons first rest =>
      have hsorted := h.ordered.receiver.sorted
      rw [hrcv, List.pairwise_cons] at hsorted
      rw [hrcv] at hseg
      rcases List.mem_cons.1 hseg with rfl | hmem
      · exact h.drained seg rest hrcv hturn
      · have hpos := hsorted.1 seg hmem
        rw [hturn, ahead_self] at hpos
        exact absurd hpos (Nat.not_lt_zero _)

theorem of_receiver {k : Ikcpcb} (h : kcp.Ready) (hordered : k.Ordered) (hreceiver : k.receiver = kcp.receiver) :
    k.Ready :=
  ⟨hordered, hreceiver ▸ h.drained⟩

/-- The loop leaves nothing behind that could move. -/
theorem moveAvailable (h : kcp.Ordered) : (moveAvailable kcp.rcvBuf kcp).Ready := by
  have hordered := h.moveAvailable
  refine ⟨hordered, fun seg rest hbuf hturn => ?_⟩
  have hstop := moveAvailable_stops seg rest hbuf
  have hfull : ¬ (Kcp.moveAvailable kcp.rcvBuf kcp).nrcvQue < (Kcp.moveAvailable kcp.rcvBuf kcp).rcvWnd :=
    fun hroom => hstop ⟨hturn, hroom⟩
  have hcount := hordered.receiver.toNat_nque
  have hwnd := hordered.receiver.wnd_ge
  rw [UInt32.lt_iff_toNat_lt] at hfull
  exact hcount ▸ hwnd.trans (Nat.le_of_not_lt hfull)

theorem parseData (h : kcp.Ready) (newseg : Seg) : (parseData kcp newseg).Ready := by
  unfold Kcp.parseData
  split
  · exact h
  · rename_i hwindow
    exact moveAvailable (h.ordered.inserted fun hpast => hwindow (Or.inr hpast))

theorem inputSeg (h : kcp.Ready) (hd : Header) (data : Bytes) : (inputSeg kcp hd data).Ready := by
  have huna : (inputUna kcp hd).Ready := h.of_receiver (h.ordered.inputUna hd) rfl
  have hordered := h.ordered.inputSeg hd data
  unfold Kcp.inputSeg at hordered ⊢
  dsimp only at hordered ⊢
  by_cases hack : hd.cmd.toUInt32 = cmdAck
  · rw [if_pos hack] at hordered ⊢
    exact huna.of_receiver hordered (congrArg View.receiver (view_inputAck (Kcp.inputUna kcp hd) hd))
  · rw [if_neg hack] at hordered ⊢
    by_cases hpush : hd.cmd.toUInt32 = cmdPush
    · rw [if_pos hpush]
      have hpushed : (ackPush (inputUna kcp hd) hd.sn hd.ts).Ready :=
        ⟨⟨huna.ordered.sender, huna.ordered.settled, huna.ordered.receiver⟩, huna.drained⟩
      unfold inputPush
      split
      · dsimp only
        split
        · exact hpushed.parseData _
        · exact hpushed
      · exact huna
    · rw [if_neg hpush] at hordered ⊢
      split
      · exact ⟨⟨huna.ordered.sender, huna.ordered.settled, huna.ordered.receiver⟩, huna.drained⟩
      · exact huna

theorem inputTail (h : kcp.Ready) (prevUna : UInt32) (maxack : Maxack) :
    (inputTail prevUna kcp maxack).Ready := by
  have hgrow : ∀ k : Ikcpcb,
      (if itimediff k.sndUna prevUna > 0 then growCwnd k else k).receiver = k.receiver := by
    intro k
    split
    · exact congrArg View.receiver (view_growCwnd k)
    · rfl
  refine h.of_receiver (h.ordered.inputTail prevUna maxack) ?_
  cases maxack with
  | none => exact hgrow kcp
  | some maxack => exact (hgrow _).trans (congrArg View.receiver (view_parseFastack kcp maxack))

theorem input (h : kcp.Ready) (data : Bytes) : (input kcp data).1.Ready :=
  input_induction (P := Ikcpcb.Ready) (fun _ hd body hk => hk.inputSeg hd body)
    (fun prevUna _ maxack hk => hk.inputTail prevUna maxack) h data

theorem recv (h : kcp.Ready) (len : Int) : (recv kcp len).1.Ready := by
  have hmove : ∀ (k : Ikcpcb) (recover : Bool), k.Ordered →
      (fastRecover recover (Kcp.moveAvailable k.rcvBuf k)).Ready := by
    intro k recover hk
    have hview := view_fastRecover (Kcp.moveAvailable k.rcvBuf k) recover
    exact (moveAvailable hk).of_receiver (hk.moveAvailable.of_view hview) (congrArg View.receiver hview)
  rcases recv_cases kcp len with ⟨rc, -, heq⟩ | ⟨-, -, -, heq⟩
  · rw [heq]
    exact h
  · rw [heq]
    unfold recvMessage
    dsimp only
    split
    · exact hmove kcp _ h.ordered
    · exact hmove _ _ h.ordered.dropMessage

theorem flush (h : kcp.Ready) : (flush kcp).1.Ready := by
  refine h.of_receiver h.ordered.flush ?_
  cases hupdated : kcp.updated with
  | false =>
      rw [Kcp.flush, hupdated]
      rfl
  | true => exact congrArg View.receiver (view_flush_of_updated hupdated)

theorem update (h : kcp.Ready) (current : UInt32) : (update kcp current).1.Ready := by
  have hclock : (resync (setClock kcp current)).view = kcp.view :=
    (view_resync _).trans (view_setClock _ current)
  have hsame : ∀ k : Ikcpcb, k.view = kcp.view → k.Ready := fun k hview =>
    h.of_receiver (h.ordered.of_view hview) (congrArg View.receiver hview)
  unfold Kcp.update
  dsimp only
  split
  · exact (hsame _ ((view_nextFlush _).trans hclock)).flush
  · exact hsame _ hclock

theorem event (h : kcp.Ready) (e : Event) : (kcp.event e).Ready := by
  have hordered := h.ordered.event e
  cases e with
  | input data => exact h.input data
  | call c =>
      cases c with
      | send buffer =>
          obtain ⟨queue, nque, hview⟩ := view_send kcp buffer buffer.length
          exact h.of_receiver hordered (congrArg View.receiver hview)
      | recv len => exact h.recv len
      | update current => exact h.update current
      | flush => exact h.flush
      | setmtu mtu =>
          refine h.of_receiver hordered ?_
          show (setmtu kcp mtu).1.receiver = _
          unfold setmtu
          split <;> rfl
      | interval interval => exact h.of_receiver hordered rfl
      | nodelay nodelay interval resend nc => exact h.of_receiver hordered rfl
      | wndsize sndwnd rcvwnd => exact ⟨hordered, h.drained⟩

theorem created (conv : UInt32) (stream : Int32) : ({ create conv with stream := stream } : Ikcpcb).Ready := by
  have hcreated := Ikcpcb.Ordered.created conv
  refine ⟨⟨hcreated.sender, hcreated.settled, hcreated.receiver⟩, fun seg rest hbuf => ?_⟩
  cases hbuf

end Ikcpcb.Ready

/-! ## Both endpoints -/

/-- A queue that holds everything that is on its way, or that is full, begins with a complete message. -/
theorem Framed.readable {kcp : Ikcpcb} {others : List Frag} {msgs : List Bytes}
    (hordered : kcp.receiver.Ordered) (hempty : kcp.rcvQueue ≠ [])
    (hfull : others = [] ∨ wndRcv.toNat ≤ kcp.rcvQueue.length)
    (h : Framed (kcp.rcvQueue.map Seg.frag ++ others) msgs) : 0 ≤ peeksize kcp := by
  generalize hfrags : kcp.rcvQueue.map Seg.frag ++ others = frags at h
  cases h with
  | nil => exact absurd (List.map_eq_nil_iff.1 (List.append_eq_nil_iff.1 hfrags).1) hempty
  | cons hcut hrest =>
      rename_i part tail msg rest
      obtain ⟨hiff, hmax⟩ := hcut.length_of_queue hordered hempty hfrags
      refine hiff.2 ?_
      rcases hfull with hall | hfull
      · have hlen := congrArg List.length hfrags
        rw [hall, List.append_nil, List.length_map, List.length_append] at hlen
        omega
      · exact hmax.trans hfull

theorem recv_of_readable {kcp : Ikcpcb} (h : kcp.rcvQueue = [] ∨ 0 ≤ peeksize kcp) (len : Int) :
    (recv kcp len).2.1 ≠ -2 := by
  unfold recv
  by_cases hempty : kcp.rcvQueue = []
  · rw [if_pos hempty]
    exact show (-1 : Int) ≠ -2 by decide
  · rw [if_neg hempty, if_neg (not_lt.2 (h.resolve_left hempty))]
    split
    · exact show (-3 : Int) ≠ -2 by decide
    · intro hrc
      have hrc' : ((firstMessage kcp).length : Int) = -2 := hrc
      omega

/-- When all numbers have arrived, what is not in `rcv_queue` waits in front of a full one. -/
theorem Connected.all_arrived {K : Content} {c : UInt32} {mode : Int32} {h : Side → List Frag}
    {p : Side → Nat} {s : Net} {x : Side} (hs : Connected K c mode h p s) (hready : (s.kcp x.peer).Ready)
    (hbuf : (s.kcp x).sndBuf = []) :
    (s.kcp x.peer).rcvNxt.toNat = (h x).length ∨ wndRcv.toNat ≤ (s.kcp x.peer).rcvQueue.length := by
  have hreceived := (hs.follows x.peer).received
  rw [Side.peer_peer] at hreceived
  have hshort := hs.short x
  by_cases hend : (s.kcp x.peer).receiver.nxt.toNat = (h x).length
  · exact Or.inl hend
  · have hlt : (s.kcp x.peer).receiver.nxt.toNat < (h x).length := lt_of_le_of_ne hreceived.nxt hend
    rcases hs.noLoss x _ hlt with ⟨seg, hseg, -⟩ | hpast | ⟨seg, hseg, hsn⟩
    · have hnil : (s.kcp x).sender.buf = [] := hbuf
      rw [hnil] at hseg
      exact absurd hseg List.not_mem_nil
    · exact absurd hpast (Nat.lt_irrefl _)
    · exact Or.inr (hready.full hseg (UInt32.toNat_inj.1 hsn))

/-- When the sender has nothing left in its queues, the receiver is never short of a fragment, and once it has
nothing more to read every accepted message is delivered. -/
def Settled (s : Net) : Prop :=
  ∀ x, (s.kcp x).sndBuf = [] → (s.kcp x).sndQueue = [] →
    (∀ len, (recv (s.kcp x.peer) len).2.1 ≠ -2) ∧
      ((s.kcp x.peer).rcvQueue = [] → s.delivered x.peer = s.accepted x)

theorem Connected.settled {c : UInt32} {h : Side → List Frag} {p : Side → Nat} {s : Net}
    (hs : Connected Messages c 0 h p s) (hready : ∀ x, (s.kcp x).Ready) : Settled s := by
  intro x hbuf hqueue
  have hpeer := hs.follows x.peer
  rw [Side.peer_peer] at hpeer
  obtain ⟨rest, hacc, hframed⟩ := hs.content x
  rw [hpeer.pending_eq, hqueue, List.map_nil, List.append_nil] at hframed
  have harrived := hs.all_arrived (hready x.peer) hbuf
  have hothers : (h x).drop (s.kcp x.peer).rcvNxt.toNat = [] ∨
      wndRcv.toNat ≤ (s.kcp x.peer).rcvQueue.length :=
    harrived.imp_left fun hend => by rw [hend, List.drop_length]
  constructor
  · intro len
    apply recv_of_readable
    by_cases hempty : (s.kcp x.peer).rcvQueue = []
    · exact Or.inl hempty
    · exact Or.inr (hframed.readable hpeer.ordered.receiver hempty hothers)
  · intro hempty
    rw [hempty] at hothers hframed
    have hnone := hothers.resolve_right fun hle => absurd hle (by decide)
    rw [hnone] at hframed
    generalize hnil : (([] : List Seg).map Seg.frag ++ [] : List Frag) = frags at hframed
    cases hframed with
    | nil => rw [hacc, List.append_nil]
    | cons hcut _ => exact absurd (List.append_eq_nil_iff.1 hnil.symm).1 hcut.ne_nil

/-- In message mode everything that was accepted can be read once the sender has nothing left. -/
theorem all_readable_when_acknowledged (conv : UInt32) (as : List Action)
    (has : EveryStep step Few (start conv fun _ => 0) as) :
    EveryState step Settled (start conv fun _ => 0) as := by
  have hkept : ∀ s a t, ((∃ h p, Connected Messages conv 0 h p s) ∧ ∀ x, (s.kcp x).Ready) → Few s a →
      step s a = some t → (∃ h p, Connected Messages conv 0 h p t) ∧ ∀ x, (t.kcp x).Ready := by
    rintro s a t ⟨⟨h, p, hs⟩, hready⟩ hfew hstep
    refine ⟨hs.step Messages.keeps hfew (SendsOk.of_forall (fun _ _ => trivial) s a) hstep, fun x => ?_⟩
    rcases kcp_of_step hstep x with hsame | ⟨e, hevent⟩
    · rw [hsame]
      exact hready x
    · rw [hevent]
      exact (hready x).event e
  refine everyState_of_everyStep hkept ?_ as _
    ⟨⟨_, _, Connected.start Messages.keeps.empty conv 0⟩, fun x => Ikcpcb.Ready.created conv 0⟩ has
  rintro s ⟨⟨h, p, hs⟩, hready⟩
  exact hs.settled hready

theorem all_readable_when_acknowledged_crossing : EveryState step Settled (start 7 fun _ => 0) crossing :=
  all_readable_when_acknowledged 7 crossing (by decide +kernel)

end CppMisc.Kcp
