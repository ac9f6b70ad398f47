import CppMisc.Kcp.Delivery

/-!
# What an endpoint sends

Everything that an endpoint gives to `output` can be read by the other side, whatever happened to it before:
`Ikcpcb.Writes` is the invariant that the segments of `snd_queue` and `snd_buf` have headers without a loss
and are no longer than a bound `M` on all the sizes that `ikcp_setmtu` was ever given.

From it, every datagram of every run is accepted by each endpoint of the conversation and refused by any other
one (`outputs_accepted`), and none is longer than `M` (`outputs_le_mtu`). The assembly buffer is as large as
three of the present datagrams only, and not even that where the 32-bit product wraps: `overrun_iff` says exactly
when it is too small.
-/

set_option autoImplicit false

namespace CppMisc.Kcp

open CppMisc.Library

/-! ## The sending side when a datagram arrives -/

/-- A datagram only takes segments out of `snd_buf`, and counts in the others. -/
structure Shrinks (kcp k : Ikcpcb) : Prop where
  conv : k.conv = kcp.conv
  mtu : k.mtu = kcp.mtu
  queue : k.sndQueue = kcp.sndQueue
  nxt : k.sndNxt = kcp.sndNxt
  wnd : k.rcvWnd = kcp.rcvWnd
  bodies : (k.sndBuf.map Seg.body).Sublist (kcp.sndBuf.map Seg.body)

namespace Shrinks

variable {kcp k l : Ikcpcb}

theorem keys (h : Shrinks kcp k) : (k.sndBuf.map Seg.key).Sublist (kcp.sndBuf.map Seg.key) := by
  have hkeys := h.bodies.map Seg.key
  rwa [map_body_key, map_body_key] at hkeys

theorem refl (kcp : Ikcpcb) : Shrinks kcp kcp :=
  ⟨rfl, rfl, rfl, rfl, rfl, List.Sublist.refl _⟩

theorem trans (h : Shrinks kcp k) (h' : Shrinks k l) : Shrinks kcp l where
  conv := h'.conv.trans h.conv
  mtu := h'.mtu.trans h.mtu
  queue := h'.queue.trans h.queue
  nxt := h'.nxt.trans h.nxt
  wnd := h'.wnd.trans h.wnd
  bodies := h'.bodies.trans h.bodies

/-- Only what `View` shows matters. -/
theorem of_view (hview : k.view = kcp.view) : Shrinks kcp k where
  conv := congrArg View.conv hview
  mtu := congrArg View.mtu hview
  queue := congrArg (fun v => v.sender.queue) hview
  nxt := congrArg (fun v => v.sender.nxt) hview
  wnd := congrArg (fun v => v.receiver.wnd) hview
  bodies := by
    have hbuf : k.sndBuf = kcp.sndBuf := congrArg (fun v => v.sender.buf) hview
    rw [hbuf]

/-- What happens on the receiving side, when the window stays as it is. -/
theorem of_receiver {r : Receiver} {acks : List (UInt32 × UInt32)}
    (hview : k.view = { kcp.view with receiver := r, acks := acks }) (hwnd : k.rcvWnd = kcp.rcvWnd) :
    Shrinks kcp k where
  conv := congrArg View.conv hview
  mtu := congrArg View.mtu hview
  queue := congrArg (fun v => v.sender.queue) hview
  nxt := congrArg (fun v => v.sender.nxt) hview
  wnd := hwnd
  bodies := by
    have hbuf : k.sndBuf = kcp.sndBuf := congrArg (fun v => v.sender.buf) hview
    rw [hbuf]

theorem inputUna (kcp : Ikcpcb) (h : Header) : Shrinks kcp (inputUna kcp h) := by
  obtain ⟨front, hfront, -⟩ := removeUna_eq h.una kcp.sndBuf kcp.nsndBuf
  refine ⟨rfl, rfl, rfl, rfl, rfl, ?_⟩
  apply List.Sublist.map
  show (removeUna h.una kcp.sndBuf kcp.nsndBuf).1.Sublist kcp.sndBuf
  conv => rhs; rw [hfront]
  exact List.sublist_append_right _ _

theorem inputAck (kcp : Ikcpcb) (h : Header) : Shrinks kcp (inputAck kcp h) := by
  obtain ⟨k, hview, heq⟩ := inputAck_eq kcp h
  rw [heq]
  refine (of_view hview).trans ?_
  unfold parseAck
  split
  · exact ⟨rfl, rfl, rfl, rfl, rfl, List.Sublist.refl _⟩
  · exact ⟨rfl, rfl, rfl, rfl, rfl, (removeAck_spec h.sn k.sndBuf k.nsndBuf).1.map _⟩

theorem rcvWnd_moveAvailable (kcp : Ikcpcb) : (moveAvailable kcp.rcvBuf kcp).rcvWnd = kcp.rcvWnd := by
  apply moveAvailable_induction (P := fun k => k.rcvWnd = kcp.rcvWnd)
  · intro k seg rest h _ _ _
    exact h
  · rfl

theorem rcvWnd_parseData (kcp : Ikcpcb) (newseg : Seg) : (parseData kcp newseg).rcvWnd = kcp.rcvWnd := by
  unfold parseData
  split
  · rfl
  · dsimp only
    rw [rcvWnd_moveAvailable]
    unfold insertSeg
    split <;> rfl

theorem inputPush (kcp : Ikcpcb) (h : Header) (data : Bytes) : Shrinks kcp (inputPush kcp h data) := by
  refine of_receiver (view_inputPush kcp h data) ?_
  unfold Kcp.inputPush
  split
  · dsimp only
    split
    · rw [rcvWnd_parseData]
      rfl
    · rfl
  · rfl

theorem inputSeg (kcp : Ikcpcb) (h : Header) (data : Bytes) : Shrinks kcp (inputSeg kcp h data) := by
  refine (inputUna kcp h).trans ?_
  unfold Kcp.inputSeg
  dsimp only
  split
  · exact inputAck _ h
  · split
    · exact inputPush _ h data
    · split
      · exact ⟨rfl, rfl, rfl, rfl, rfl, List.Sublist.refl _⟩
      · exact refl _

theorem inputTail (prevUna : UInt32) (kcp : Ikcpcb) (maxack : Maxack) :
    Shrinks kcp (inputTail prevUna kcp maxack) := by
  have hgrow : ∀ k, Shrinks k (if itimediff k.sndUna prevUna > 0 then growCwnd k else k) := by
    intro k
    split
    · exact of_view (view_growCwnd k)
    · exact refl k
  cases maxack with
  | none => exact hgrow kcp
  | some sn =>
      refine Shrinks.trans ?_ (hgrow (parseFastack kcp sn))
      unfold parseFastack
      split
      · exact refl kcp
      · refine ⟨rfl, rfl, rfl, rfl, rfl, ?_⟩
        show ((countFastack sn kcp.sndBuf).map Seg.body).Sublist _
        rw [bodies_countFastack]

theorem input (kcp : Ikcpcb) (data : Bytes) : Shrinks kcp (input kcp data).1 :=
  input_induction (P := Shrinks kcp) (fun k h body hk => hk.trans (inputSeg k h body))
    (fun prevUna k maxack hk => hk.trans (inputTail prevUna k maxack)) (refl kcp) data

end Shrinks

theorem mtu_flush (kcp : Ikcpcb) : (flush kcp).1.mtu = kcp.mtu := by
  cases hupdated : kcp.updated with
  | false => rw [flush_of_not_updated hupdated]
  | true => exact congrArg View.mtu (view_flush_of_updated hupdated)

/-- Only `ikcp_setmtu` changes the size of the datagrams. -/
theorem mtu_event (kcp : Ikcpcb) {e : Event} (he : ∀ mtu, e ≠ .call (.setmtu mtu)) :
    (kcp.event e).mtu = kcp.mtu := by
  cases e with
  | input data => exact (Shrinks.input kcp data).mtu
  | call call =>
      cases call with
      | send buffer =>
          obtain ⟨queue, nque, hview⟩ := view_send kcp buffer buffer.length
          exact congrArg View.mtu hview
      | recv len => exact congrArg View.mtu (view_recv kcp len)
      | update current =>
          have hclock : (resync (setClock kcp current)).mtu = kcp.mtu :=
            congrArg View.mtu ((view_resync _).trans (view_setClock _ current))
          show (update kcp current).1.mtu = kcp.mtu
          unfold update
          dsimp only
          split
          · rw [mtu_flush]
            exact hclock
          · exact hclock
      | flush => exact mtu_flush kcp
      | setmtu mtu => exact absurd rfl (he mtu)
      | interval interval => rfl
      | nodelay nodelay interval resend nc => rfl
      | wndsize sndwnd rcvwnd => rfl

/-! ## The segments of an endpoint -/

/-- A segment whose header loses nothing and that has at most `M` bytes on the wire. -/
structure Seg.Sized (M : Nat) (seg : Seg) : Prop where
  small : seg.frag.Small
  le : overhead + seg.len ≤ M

/-- What an endpoint of the conversation `c` keeps for sending. -/
structure Ikcpcb.Writes (c : UInt32) (M : Nat) (kcp : Ikcpcb) : Prop where
  conv : kcp.conv = c
  mtu : kcp.mtu.value ≤ M
  queue : ∀ seg ∈ kcp.sndQueue, seg.Sized M
  buf : ∀ seg ∈ kcp.sndBuf, seg.Sized M ∧ seg.conv = c ∧ seg.cmd = cmdPush

/-- The size of a segment depends on its key only. -/
theorem Seg.Sized.of_key {M : Nat} {seg other : Seg} (h : seg.Sized M) (hkey : other.key = seg.key) :
    other.Sized M := by
  have hfrg : other.frg = seg.frg := congrArg (fun k => k.2.2.2.1) hkey
  have hdata : other.data = seg.data := congrArg (fun k => k.2.2.2.2) hkey
  have hfrag : other.frag = seg.frag := by rw [Seg.frag, hfrg, hdata, Seg.frag]
  exact {
    small := hfrag ▸ h.small
    le := by
      have hle := h.le
      rw [Seg.len] at hle ⊢
      rwa [hdata] }

theorem data_fragment_le {stream : Int32} {mss n : Nat} (buffer : Bytes) :
    ∀ seg ∈ fragment stream mss n buffer, seg.len ≤ mss := by
  induction n generalizing buffer with
  | zero => exact fun seg hseg => absurd hseg List.not_mem_nil
  | succ n ih =>
      rw [fragment, List.forall_mem_cons]
      refine ⟨?_, ih _⟩
      show (buffer.take mss).length ≤ mss
      rw [List.length_take]
      exact Nat.min_le_left _ _

theorem mem_appendStream {mss : Nat} {queue : List Seg} {buffer : Bytes} {seg : Seg}
    (hseg : seg ∈ (appendStream mss queue buffer).1) : seg ∈ queue ∨ seg.len ≤ mss := by
  unfold appendStream at hseg
  cases hlast : queue.getLast? with
  | none =>
      rw [hlast] at hseg
      exact Or.inl hseg
  | some old =>
      rw [hlast] at hseg
      dsimp only at hseg
      split at hseg
      · rename_i hroom
        rcases List.mem_append.1 hseg with hold | hnew
        · exact Or.inl (List.mem_of_mem_dropLast hold)
        · rw [List.mem_singleton.1 hnew]
          refine Or.inr ?_
          show (old.data ++ buffer.take (min buffer.length (mss - old.len))).length ≤ mss
          rw [Seg.len] at hroom ⊢
          rw [List.length_append, List.length_take]
          omega
      · exact Or.inl hseg

namespace Ikcpcb.Writes

variable {c : UInt32} {M : Nat} {kcp k : Ikcpcb}

theorem of_view (h : kcp.Writes c M) (hview : k.view = kcp.view) : k.Writes c M := by
  have hqueue : k.sndQueue = kcp.sndQueue := congrArg (fun v => v.sender.queue) hview
  have hbuf : k.sndBuf = kcp.sndBuf := congrArg (fun v => v.sender.buf) hview
  exact {
    conv := (congrArg View.conv hview).trans h.conv
    mtu := (congrArg (fun v => v.mtu.value) hview).trans_le h.mtu
    queue := hqueue ▸ h.queue
    buf := hbuf ▸ h.buf }

/-- The segments of `snd_buf` may be replaced by others with keys of theirs. -/
theorem of_keys (h : kcp.Writes c M) {buf : List Seg} (hkeys : (buf.map Seg.key) ⊆ kcp.sndBuf.map Seg.key) :
    ∀ seg ∈ buf, seg.Sized M ∧ seg.conv = c ∧ seg.cmd = cmdPush := by
  intro seg hseg
  obtain ⟨old, hold, hkey⟩ := List.mem_map.1 (hkeys (List.mem_map_of_mem hseg))
  obtain ⟨hsized, hconv, hcmd⟩ := h.buf old hold
  have hsame : seg.conv = old.conv ∧ seg.cmd = old.cmd :=
    ⟨congrArg (fun k => k.2.1) hkey.symm, congrArg (fun k => k.2.2.1) hkey.symm⟩
  exact ⟨hsized.of_key hkey.symm, hsame.1.trans hconv, hsame.2.trans hcmd⟩

theorem shrinks (h : kcp.Writes c M) (hk : Shrinks kcp k) : k.Writes c M where
  conv := hk.conv.trans h.conv
  mtu := (congrArg Mtu.value hk.mtu).trans_le h.mtu
  queue := hk.queue ▸ h.queue
  buf := h.of_keys hk.keys.subset

/-- `mss` is what is left of the size of a datagram. -/
theorem sized_of_le (h : kcp.Writes c M) {seg : Seg} (hsmall : seg.frag.Small) (hle : seg.len ≤ kcp.mss) :
    seg.Sized M := by
  refine ⟨hsmall, ?_⟩
  have hmtu := h.mtu
  have hge := kcp.mtu.ge
  rw [Ikcpcb.mss, overhead] at hle
  rw [overhead]
  omega

theorem sendRest (h : kcp.Writes c M) (buffer : Bytes) : (sendRest kcp buffer).1.Writes c M := by
  unfold Kcp.sendRest
  dsimp only
  split
  · exact h
  · rename_i hcount
    refine ⟨h.conv, h.mtu, fun seg hseg => ?_, h.buf⟩
    rcases List.mem_append.1 hseg with hold | hnew
    · exact h.queue seg hold
    · have hle : fragmentCount kcp.mss buffer.length ≤ 2 ^ 7 := Nat.le_of_not_le hcount
      exact h.sized_of_le (Follows.small_fragment (Follows.mss_lt kcp) hle _ seg hnew)
        (data_fragment_le buffer seg hnew)

theorem send (h : kcp.Writes c M) (buffer : Bytes) (len : Int) : (send kcp buffer len).1.Writes c M := by
  have hsmall : ∀ seg ∈ kcp.sndQueue, seg.frag.Small := fun seg hseg => (h.queue seg hseg).small
  unfold Kcp.send
  split
  · exact h
  · dsimp only
    split
    · have hfilled : ({ kcp with sndQueue :=
          (appendStream kcp.mss kcp.sndQueue (buffer.take len.toNat)).1 } : Ikcpcb).Writes c M := by
        refine ⟨h.conv, h.mtu, fun seg hseg => ?_, h.buf⟩
        rcases mem_appendStream hseg with hold | hle
        · exact h.queue seg hold
        · exact h.sized_of_le (Follows.small_appendStream (Follows.mss_lt kcp) hsmall _ seg hseg) hle
      split
      · exact hfilled
      · exact hfilled.sendRest _
    · exact h.sendRest _

theorem flushQueue (h : kcp.Writes c M) : (flushQueue kcp).Writes c M := by
  have hclear : (clearProbe (probeWindow kcp)).Writes c M := by
    have hprobed : (probeWindow kcp).Writes c M := h.of_view (view_probeWindow kcp)
    exact ⟨hprobed.conv, hprobed.mtu, hprobed.queue, hprobed.buf⟩
  unfold Kcp.flushQueue
  apply moveToSndBuf_induction (P := fun k => k.Writes c M)
  · intro k newseg rest hk hqueue _
    have hall := hk.queue
    rw [hqueue, List.forall_mem_cons] at hall
    refine ⟨hk.conv, hk.mtu, hall.2, fun seg hseg => ?_⟩
    rcases List.mem_append.1 hseg with hold | hnew
    · exact hk.buf seg hold
    · rw [List.mem_singleton.1 hnew]
      exact ⟨⟨hall.1.small, hall.1.le⟩, hk.conv, rfl⟩
  · exact hclear

/-- A sent segment keeps the key that it has in `snd_buf`. -/
theorem key_stamp (kcp : Ikcpcb) (wnd : UInt32) (seg : Seg) (reason : Reason) :
    (stamp kcp wnd (resend kcp seg reason)).key = seg.key := by
  cases reason <;> rfl

theorem flush (h : kcp.Writes c M) : (flush kcp).1.Writes c M := by
  cases hupdated : kcp.updated with
  | false =>
      rw [flush_of_not_updated hupdated]
      exact h
  | true =>
      have hview := view_flush_of_updated hupdated
      have hqueue : (Kcp.flush kcp).1.sndQueue = (Kcp.flushQueue kcp).sndQueue :=
        congrArg (fun v => v.sender.queue) hview
      have hbuf : (Kcp.flush kcp).1.sndBuf = (flushData kcp).1 := congrArg (fun v => v.sender.buf) hview
      have hkeys : (flushData kcp).1.map Seg.key = (Kcp.flushQueue kcp).sndBuf.map Seg.key :=
        keys_flushSegments _ _ _ _
      exact {
        conv := (congrArg View.conv hview).trans h.conv
        mtu := (congrArg (fun v => v.mtu.value) hview).trans_le h.mtu
        queue := hqueue ▸ h.flushQueue.queue
        buf := by
          rw [hbuf]
          apply h.flushQueue.of_keys
          rw [hkeys]
          exact fun _ hkey => hkey }

theorem update (h : kcp.Writes c M) (current : UInt32) : (update kcp current).1.Writes c M := by
  have hclock : (resync (setClock kcp current)).Writes c M :=
    h.of_view ((view_resync _).trans (view_setClock _ current))
  unfold Kcp.update
  dsimp only
  split
  · exact (hclock.of_view (view_nextFlush _)).flush
  · exact hclock

theorem created (c : UInt32) (stream : Int32) (hM : mtuDef ≤ M) :
    ({ create c with stream := stream } : Ikcpcb).Writes c M where
  conv := rfl
  mtu := hM
  queue := fun _ hseg => absurd hseg List.not_mem_nil
  buf := fun _ hseg => absurd hseg List.not_mem_nil

end Ikcpcb.Writes

/-- A size that is given to `ikcp_setmtu` is at most `M`. -/
def Event.MtuLe (M : Nat) : Event → Prop
  | .call (.setmtu mtu) => mtu.toInt ≤ M
  | _ => True

theorem Ikcpcb.Writes.event {c : UInt32} {M : Nat} {kcp : Ikcpcb} (h : kcp.Writes c M) {e : Event}
    (he : e.MtuLe M) : (kcp.event e).Writes c M := by
  cases e with
  | input data => exact h.shrinks (Shrinks.input kcp data)
  | call call =>
      cases call with
      | send buffer => exact h.send buffer _
      | recv len =>
          have hview := view_recv kcp len
          have hqueue : (recv kcp len).1.sndQueue = kcp.sndQueue := congrArg (fun v => v.sender.queue) hview
          have hbuf : (recv kcp len).1.sndBuf = kcp.sndBuf := congrArg (fun v => v.sender.buf) hview
          exact {
            conv := (congrArg View.conv hview).trans h.conv
            mtu := (congrArg (fun v => v.mtu.value) hview).trans_le h.mtu
            queue := hqueue ▸ h.queue
            buf := hbuf ▸ h.buf }
      | update current => exact h.update current
      | flush => exact h.flush
      | setmtu mtu =>
          show (setmtu kcp mtu).1.Writes c M
          unfold setmtu
          split
          · have hle : mtu.toInt ≤ M := he
            refine ⟨h.conv, ?_, h.queue, h.buf⟩
            show mtu.toInt.toNat ≤ M
            omega
          · exact h
      | interval interval => exact h.of_view (view_setInterval kcp interval)
      | nodelay nodelay interval resend nc => exact h.of_view (view_setNodelay kcp nodelay interval resend nc)
      | wndsize sndwnd rcvwnd => exact ⟨h.conv, h.mtu, h.queue, h.buf⟩

/-! ## The datagrams of a run -/

/-- The datagrams that an event gives to `output`. -/
def Ikcpcb.emitted (kcp : Ikcpcb) : Event → List Bytes
  | .call c => (kcp.call c).datagrams
  | .input _ => []

/-- The datagrams that a run gives to `output`, with a buffer that is always large enough (see `Ikcpcb.event`). -/
def Ikcpcb.outputs : Ikcpcb → List Event → List Bytes
  | _, [] => []
  | kcp, e :: events => kcp.emitted e ++ (kcp.event e).outputs events

/-- A segment that can go out: it fits its header, belongs to the conversation and is not too long. -/
structure Sendable (c : UInt32) (M : Nat) (seg : Seg) : Prop where
  fits : seg.Fits
  conv : seg.conv = c
  le : overhead + seg.len ≤ M

theorem Ikcpcb.Writes.sendable {c : UInt32} {M : Nat} {kcp : Ikcpcb} (h : kcp.Writes c M) :
    ∀ seg ∈ written kcp, Sendable c M seg := by
  have hroom : overhead + 0 ≤ M := by
    have := h.mtu
    have := kcp.mtu.ge
    rw [overhead]
    omega
  apply written_induction
  · intro ack _
    exact ⟨⟨Or.inr (Or.inl rfl), Nat.two_pow_pos 8, Nat.two_pow_pos 31⟩, h.conv, hroom⟩
  · intro cmd hcmd
    exact ⟨⟨Or.inr (Or.inr hcmd), Nat.two_pow_pos 8, Nat.two_pow_pos 31⟩, h.conv, hroom⟩
  · intro seg hseg reason _
    obtain ⟨hsized, hconv, hcmd⟩ := h.flushQueue.buf seg hseg
    have hkey := key_stamp (Kcp.flushQueue kcp) (wndUnused kcp) seg reason
    generalize stamp (Kcp.flushQueue kcp) (wndUnused kcp) (resend (Kcp.flushQueue kcp) seg reason) = sent at hkey ⊢
    have hsame := hsized.of_key hkey
    exact {
      fits := ⟨Or.inl ((congrArg (fun k => k.2.2.1) hkey).trans hcmd), hsame.small.frg, hsame.small.data⟩
      conv := (congrArg (fun k => k.2.1) hkey).trans hconv
      le := hsame.le }

/-- What goes out of an endpoint are packed segments that can go out, no longer together than `M`. -/
def Outgoing (c : UInt32) (M : Nat) (d : Bytes) : Prop := Packed (Sendable c M) d ∧ d.length ≤ M

theorem Ikcpcb.Writes.flushed {c : UInt32} {M : Nat} {kcp : Ikcpcb} (h : kcp.Writes c M) :
    ∀ d ∈ (Kcp.flush kcp).2, Outgoing c M d := by
  intro d hd
  refine ⟨flush_packed h.sendable d hd, ?_⟩
  cases hupdated : kcp.updated with
  | false =>
      rw [flush_of_not_updated hupdated] at hd
      exact absurd hd List.not_mem_nil
  | true =>
      obtain ⟨groups, hds, hflat, hall⟩ := flush_groups hupdated
      rw [hds] at hd
      obtain ⟨g, hg, rfl⟩ := List.mem_map.1 hd
      rcases (hall g hg).2 with hroom | ⟨seg, rfl⟩
      · exact hroom.trans h.mtu
      · have hseg : seg ∈ written kcp := hflat ▸ List.mem_flatten_of_mem hg (List.mem_singleton.2 rfl)
        rw [length_packed_cons]
        exact (h.sendable seg hseg).le

theorem Ikcpcb.Writes.emitted {c : UInt32} {M : Nat} {kcp : Ikcpcb} (h : kcp.Writes c M) (e : Event) :
    ∀ d ∈ kcp.emitted e, Outgoing c M d := by
  have hnone : ∀ d ∈ ([] : List Bytes), Outgoing c M d := fun d hd => absurd hd List.not_mem_nil
  cases e with
  | input data => exact hnone
  | call call =>
      cases call with
      | update current =>
          have hclock : (resync (setClock kcp current)).view = kcp.view :=
            (view_resync _).trans (view_setClock _ current)
          show ∀ d ∈ (Kcp.update kcp current).2, Outgoing c M d
          unfold Kcp.update
          dsimp only
          split
          · exact (h.of_view ((view_nextFlush _).trans hclock)).flushed
          · exact hnone
      | flush => exact h.flushed
      | _ => exact hnone

theorem Ikcpcb.Writes.events {c : UInt32} {M : Nat} {events : List Event} (hevents : ∀ e ∈ events, e.MtuLe M) :
    ∀ {kcp : Ikcpcb}, kcp.Writes c M → (events.foldl Ikcpcb.event kcp).Writes c M := by
  induction events with
  | nil => exact fun h => h
  | cons e events ih =>
      intro kcp h
      rw [List.forall_mem_cons] at hevents
      exact ih hevents.2 (h.event hevents.1)

theorem Ikcpcb.Writes.outputs {c : UInt32} {M : Nat} {events : List Event}
    (hevents : ∀ e ∈ events, e.MtuLe M) :
    ∀ {kcp : Ikcpcb}, kcp.Writes c M → ∀ d ∈ kcp.outputs events, Outgoing c M d := by
  induction events with
  | nil => exact fun _ d hd => absurd hd List.not_mem_nil
  | cons e events ih =>
      intro kcp h d hd
      rw [List.forall_mem_cons] at hevents
      rcases List.mem_append.1 hd with hnow | hlater
      · exact h.emitted e d hnow
      · exact ih hevents.2 (h.event hevents.1) d hlater

/-- The number of the conversation stands in front of every segment. -/
theorem getconv_wire (seg : Seg) (rest : Bytes) : getconv (wire seg ++ rest) = seg.conv := by
  have hheader : wire seg ++ rest = encode32u seg.conv ++ ((wire seg ++ rest).drop 4) := by
    have hfour : (encode32u seg.conv).length = 4 := length_encode32u seg.conv
    rw [← hfour]
    simp [wire, encodeSeg, Header.encode, Seg.header]
  rw [getconv, hheader, decode32u_encode]

/-- A datagram of the conversation `conv`: a row of segments that every endpoint of the conversation reads in order
and without an error. Any other one refuses it and stays as it is. -/
def Accepted (conv : UInt32) (d : Bytes) : Prop :=
  ∃ segs, segs ≠ [] ∧ packed segs = d ∧ ∀ kcp : Ikcpcb,
    (kcp.conv = conv → input kcp d =
      (inputTail kcp.sndUna (segs.foldl inputWire kcp) (segs.foldl ackWire none), 0)) ∧
    (kcp.conv ≠ conv → input kcp d = (kcp, -1))

/-- Whatever happened to an endpoint, everything that it sends is accepted by the endpoints of its conversation. -/
theorem outputs_accepted (conv : UInt32) (stream : Int32) (events : List Event) :
    ∀ d ∈ ({ create conv with stream := stream } : Ikcpcb).outputs events, Accepted conv d := by
  intro d hd
  have hevents : ∀ e ∈ events, e.MtuLe (2 ^ 31) := by
    intro e _
    unfold Event.MtuLe
    split
    · rename_i mtu _
      have := mtu.toInt_lt
      omega
    · trivial
  have hcreated := Ikcpcb.Writes.created conv stream (show mtuDef ≤ 2 ^ 31 by decide)
  obtain ⟨⟨segs, hne, rfl, hall⟩, -⟩ := hcreated.outputs hevents d hd
  refine ⟨segs, hne, rfl, fun kcp => ⟨fun hconv => ?_, fun hconv => ?_⟩⟩
  · exact input_packed hne fun seg hseg => ⟨(hall seg hseg).fits, (hall seg hseg).conv.trans hconv.symm⟩
  · apply input_stray
    cases segs with
    | nil => exact absurd rfl hne
    | cons seg rest =>
        have hfirst : getconv (packed (seg :: rest)) = seg.conv := getconv_wire seg (packed rest)
        rw [hfirst, (hall seg List.mem_cons_self).conv]
        exact Or.inr hconv.symm

theorem outputs_accepted_first : Accepted 7 ((({ create 7 with stream := 0 } : Ikcpcb).outputs
    [.call (.send [1, 2, 3]), .call (.update 10), .call .flush]).headD []) :=
  outputs_accepted 7 0 [.call (.send [1, 2, 3]), .call (.update 10), .call .flush] _ (by decide +kernel)

/-- An event at an endpoint, unless its flush writes behind the end of the assembly buffer. -/
def Ikcpcb.step (kcp : Ikcpcb) (e : Event) : Option Ikcpcb :=
  if ∀ d ∈ kcp.emitted e, d.length ≤ bufferSize kcp.mtu then some (kcp.event e) else none

/-- Of a run that stays within its assembly buffers, no datagram is longer than the largest size that was set, also
when segments wait that were cut for a larger size than the present one. -/
theorem outputs_le_mtu (conv : UInt32) (stream : Int32) (events : List Event) {M : Nat} (hM : mtuDef ≤ M)
    (hevents : ∀ e ∈ events, e.MtuLe M) :
    EveryStep Ikcpcb.step (fun kcp e => ∀ d ∈ kcp.emitted e, d.length ≤ M)
      { create conv with stream := stream } events := by
  -- a bound on the actions of the list is one on every step
  have hsizes : EveryStep Ikcpcb.step (fun _ e => e.MtuLe M) { create conv with stream := stream } events :=
    everyStep_of_forall hevents _
  have hkept : ∀ (kcp : Ikcpcb) (e : Event) (k : Ikcpcb), kcp.Writes conv M → e.MtuLe M →
      kcp.step e = some k → k.Writes conv M := by
    intro kcp e k h he hk
    obtain ⟨-, hsome⟩ := Option.ite_none_right_eq_some.1 hk
    obtain rfl := Option.some.inj hsome
    exact h.event he
  apply hsizes.of_invariant hkept
  · exact fun kcp e k h _ d hd => (h.emitted e d hd).2
  · exact Ikcpcb.Writes.created conv stream hM

/-- A segment that was cut for 1400 bytes goes out after the size was set to 500, for which the buffer has 1572
bytes. -/
def shrunk : List Event :=
  [.call (.send (List.replicate 2000 1)), .call (.setmtu 500), .call (.update 10), .call .flush]

theorem outputs_le_mtu_shrunk :
    (run Ikcpcb.step { create 7 with stream := 0 } shrunk).isSome ∧
      500 < ((({ create 7 with stream := 0 } : Ikcpcb).outputs shrunk).headD []).length ∧
      EveryStep Ikcpcb.step (fun kcp e => ∀ d ∈ kcp.emitted e, d.length ≤ 1400)
        { create 7 with stream := 0 } shrunk := by
  have hevents : ∀ e ∈ shrunk, e.MtuLe 1400 := by
    intro e he
    rcases List.mem_cons.1 he with rfl | he
    · trivial
    · rcases List.mem_cons.1 he with rfl | he
      · exact show (500 : Int32).toInt ≤ (1400 : Nat) by decide
      · rcases List.mem_cons.1 he with rfl | he
        · trivial
        · rw [List.mem_singleton.1 he]
          trivial
  exact ⟨by decide +kernel, by decide +kernel, outputs_le_mtu 7 0 shrunk (show mtuDef ≤ 1400 by decide) hevents⟩

/-! ## The assembly buffer -/

theorem length_le_of_mem {segs : List Seg} {seg : Seg} (h : seg ∈ segs) :
    overhead + seg.len ≤ (packed segs).length := by
  induction segs with
  | nil => exact absurd h List.not_mem_nil
  | cons first rest ih =>
      rw [length_packed_cons]
      rcases List.mem_cons.1 h with rfl | hrest
      · omega
      · have := ih hrest
        omega

theorem len_of_key {seg other : Seg} (h : other.key = seg.key) : other.len = seg.len := by
  have hdata : other.data = seg.data := congrArg (fun k => k.2.2.2.2) h
  rw [Seg.len, Seg.len, hdata]

/-- A flush writes behind the end of `kcp->buffer`. -/
def Ikcpcb.Overruns (kcp : Ikcpcb) : Prop := ∃ d ∈ (flush kcp).2, bufferSize kcp.mtu < d.length

instance (kcp : Ikcpcb) : Decidable kcp.Overruns := inferInstanceAs (Decidable (∃ d ∈ _, _))

/-- A segment that is due is longer than `kcp->buffer`. -/
def Ikcpcb.DueLonger (kcp : Ikcpcb) : Prop :=
  kcp.updated = true ∧ ∃ seg ∈ (flushQueue kcp).sndBuf,
    needsend (flushQueue kcp) seg ≠ none ∧ bufferSize kcp.mtu < overhead + seg.len

theorem Ikcpcb.DueLonger.overruns {kcp : Ikcpcb} (h : kcp.DueLonger) : kcp.Overruns := by
  obtain ⟨hupdated, seg, hseg, hdue, hlong⟩ := h
  obtain ⟨reason, hreason⟩ := Option.ne_none_iff_exists'.1 hdue
  have hmem : stamp (flushQueue kcp) (wndUnused kcp) (resend (flushQueue kcp) seg reason) ∈ written kcp := by
    refine List.mem_append_right _ (List.mem_filterMap.2 ⟨seg, hseg, ?_⟩)
    rw [hreason]
    rfl
  obtain ⟨segs, hd, hin, -⟩ := exists_packed_of_written (P := fun _ => True) hupdated (fun _ _ => trivial) hmem
  refine ⟨packed segs, hd, lt_of_lt_of_le hlong ?_⟩
  have hlen := len_of_key (Ikcpcb.Writes.key_stamp (flushQueue kcp) (wndUnused kcp) seg reason)
  rw [← hlen]
  exact length_le_of_mem hin

/-- When the buffer has room for a datagram, only a segment alone can be too long for it. -/
theorem Ikcpcb.Overruns.dueLonger {kcp : Ikcpcb} (hsize : kcp.mtu.value ≤ bufferSize kcp.mtu)
    (h : kcp.Overruns) : kcp.DueLonger := by
  obtain ⟨d, hd, hlong⟩ := h
  cases hupdated : kcp.updated with
  | false =>
      rw [flush_of_not_updated hupdated] at hd
      exact absurd hd List.not_mem_nil
  | true =>
      refine ⟨hupdated, ?_⟩
      obtain ⟨groups, hds, hflat, hall⟩ := flush_groups hupdated
      rw [hds] at hd
      obtain ⟨g, hg, rfl⟩ := List.mem_map.1 hd
      rcases (hall g hg).2 with hroom | ⟨seg, rfl⟩
      · omega
      · -- a datagram of one segment, which is no header alone
        have hseg : seg ∈ written kcp := hflat ▸ List.mem_flatten_of_mem hg (List.mem_singleton.2 rfl)
        have hlen : bufferSize kcp.mtu < overhead + seg.len := by
          rwa [length_packed_cons] at hlong
        have hkind : ∀ seg ∈ written kcp, seg.len = 0 ∨
            ∃ old ∈ (flushQueue kcp).sndBuf, needsend (flushQueue kcp) old ≠ none ∧ seg.key = old.key := by
          apply written_induction
          · exact fun _ _ => Or.inl rfl
          · exact fun _ _ => Or.inl rfl
          · intro old hold reason hdue
            refine Or.inr ⟨old, hold, ?_, Ikcpcb.Writes.key_stamp _ _ old reason⟩
            rw [hdue]
            exact Option.some_ne_none _
        have hmtu := kcp.mtu.ge
        rcases hkind seg hseg with hzero | ⟨old, hold, hdue, hkey⟩
        · rw [overhead] at hlen
          omega
        · refine ⟨old, hold, hdue, ?_⟩
          rwa [← len_of_key hkey]

/-- When everything that is written fits into one datagram, it is too long for the buffer or it is not. -/
theorem overruns_iff_of_single {kcp : Ikcpcb} (hroom : (packed (written kcp)).length ≤ kcp.mtu.value) :
    kcp.Overruns ↔ kcp.updated = true ∧ bufferSize kcp.mtu < (packed (written kcp)).length := by
  unfold Ikcpcb.Overruns
  cases hupdated : kcp.updated with
  | false =>
      rw [flush_of_not_updated hupdated]
      simp
  | true =>
      rw [flush_single hupdated hroom, output]
      split
      · rename_i hempty
        simp [hempty]
      · simp

/-- A size that is in force at some time of a run: the first one, or one that `ikcp_setmtu` took. -/
def InForce (events : List Event) (size : Nat) : Prop :=
  size = mtuDef ∨ ∃ mtu : Int32, .call (.setmtu mtu) ∈ events ∧ 50 ≤ mtu.toInt ∧ size = mtu.toInt.toNat

/-- In a run, a segment that is too long for the buffer was cut for a larger size. -/
theorem exists_larger_of_dueLonger (conv : UInt32) (stream : Int32) (events : List Event)
    (h : (events.foldl Ikcpcb.event { create conv with stream := stream }).DueLonger) :
    ∃ size, InForce events size ∧
      bufferSize (events.foldl Ikcpcb.event { create conv with stream := stream }).mtu < size := by
  -- otherwise the size of the buffer bounds every size of the run, and with it every segment
  by_contra hnone
  generalize hM : bufferSize (events.foldl Ikcpcb.event { create conv with stream := stream }).mtu = M at hnone
  have hall : ∀ size, InForce events size → size ≤ M := fun size hsize =>
    not_lt.1 fun hlarger => hnone ⟨size, hsize, hlarger⟩
  have hdef : mtuDef ≤ M := hall mtuDef (Or.inl rfl)
  have hevents : ∀ e ∈ events, e.MtuLe M := by
    intro e he
    unfold Event.MtuLe
    split
    · rename_i mtu
      by_cases htaken : 50 ≤ mtu.toInt
      · have hle := hall mtu.toInt.toNat (Or.inr ⟨mtu, he, htaken, rfl⟩)
        omega
      · rw [mtuDef] at hdef
        omega
    · trivial
  have hwrites := (Ikcpcb.Writes.created conv stream hdef).events hevents
  obtain ⟨-, seg, hseg, -, hlong⟩ := h
  have hle := (hwrites.flushQueue.buf seg hseg).1.le
  omega

/-- A flush writes behind the end of `kcp->buffer`, when that has room for a datagram, exactly when a segment that
is due is longer than the buffer; and in a run such a segment was cut for a size that was in force before
`ikcp_setmtu` took the present one, which is smaller. The buffer has room for a datagram but for sizes of more than
1.4 gigabytes, at which its own size wraps round. There it is overrun, when what is written fits into one datagram,
exactly when it has no room for that. -/
theorem overrun_iff :
    (∀ kcp : Ikcpcb, kcp.mtu.value ≤ bufferSize kcp.mtu → (kcp.Overruns ↔ kcp.DueLonger)) ∧
    (∀ (conv : UInt32) (stream : Int32) (events : List Event) (kcp : Ikcpcb),
      events.foldl Ikcpcb.event { create conv with stream := stream } = kcp →
        kcp.mtu.value ≤ bufferSize kcp.mtu → kcp.Overruns →
          ∃ size, InForce events size ∧ kcp.mtu.value < size ∧ bufferSize kcp.mtu < size) ∧
    (∀ mtu : Mtu, mtu.value ≤ bufferSize mtu ↔ mtu.value < 1431655742 ∨ 2147483612 ≤ mtu.value) ∧
    ∀ kcp : Ikcpcb, bufferSize kcp.mtu < kcp.mtu.value → (packed (written kcp)).length ≤ kcp.mtu.value →
      (kcp.Overruns ↔ kcp.updated = true ∧ bufferSize kcp.mtu < (packed (written kcp)).length) := by
  refine ⟨fun kcp hsize => ⟨fun h => h.dueLonger hsize, fun h => h.overruns⟩, ?_, le_bufferSize_iff,
    fun kcp _ hroom => overruns_iff_of_single hroom⟩
  rintro conv stream events kcp rfl hsize h
  obtain ⟨size, hforce, hlarger⟩ := exists_larger_of_dueLonger conv stream events (h.dueLonger hsize)
  exact ⟨size, hforce, hsize.trans_lt hlarger, hlarger⟩

/-- A segment that was cut for 1400 bytes waits when the size is set to 50, for which the buffer has 222 bytes. -/
def shortened : List Event :=
  [.call (.update 5), .call (.send (List.replicate 2000 1)), .call (.setmtu 50)]

/-- A segment of 300 bytes waits when the size is set to one for which the buffer has 302 bytes. -/
def wrapped : List Event :=
  [.call (.update 5), .call (.send (List.replicate 300 1)), .call (.setmtu 1431655842)]

theorem overrun_iff_shortened :
    (∃ size, InForce shortened size ∧ 222 < size) ∧
      (wrapped.foldl Ikcpcb.event { create 7 with stream := 0 }).Overruns := by
  obtain ⟨-, hsizes, -, hwraps⟩ := overrun_iff
  constructor
  · obtain ⟨size, hforce, -, hlarger⟩ := hsizes 7 0 shortened _ rfl (by decide +kernel) (by decide +kernel)
    have hbuffer : bufferSize (shortened.foldl Ikcpcb.event { create 7 with stream := 0 }).mtu = 222 := by
      decide +kernel
    exact ⟨size, hforce, hbuffer ▸ hlarger⟩
  · exact (hwraps _ (by decide +kernel) (by decide +kernel)).2 (by decide +kernel)

end CppMisc.Kcp
