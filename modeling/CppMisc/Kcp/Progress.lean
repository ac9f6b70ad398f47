import CppMisc.Kcp.Exchange

/-!
# There is always a way to the end

From every state of every message-mode run the two endpoints can bring the transfer to its end: reading, calls of
`ikcp_update` and `ikcp_flush`, and the arrival of datagrams that they send are enough to deliver everything that
was accepted (`can_finish`). No lost datagram, no filled queue and no closed window is a dead end.

Two settings are left out. A receive window of `2 ^ 16` segments is told as 0 while nothing waits to be read, and
the other side then has nowhere to send. After `ikcp_setmtu` made the assembly buffer too small for a waiting
segment, or for a whole datagram where its 32-bit size wraps round, a flush would write behind its end.
-/

set_option autoImplicit false

namespace CppMisc.Kcp

open CppMisc.Library

/-- Reading, the clock and arrivals. -/
def Driving : Action → Prop
  | .call _ (.recv _) => True
  | .call _ (.update _) => True
  | .call _ .flush => True
  | .deliver _ _ => True
  | _ => False

/-- What reading, the clock and arrivals leave as it is at one endpoint, or make less. -/
structure Steady (kcp k : Ikcpcb) : Prop where
  mtu : k.mtu = kcp.mtu
  wnd : k.rcvWnd = kcp.rcvWnd
  room : k.sndNxt.toNat + k.sndQueue.length = kcp.sndNxt.toNat + kcp.sndQueue.length
  load : k.load ≤ kcp.load

theorem Shrinks.length_le {kcp k : Ikcpcb} (h : Shrinks kcp k) : k.sndBuf.length ≤ kcp.sndBuf.length := by
  have hlength := h.bodies.length_le
  rwa [List.length_map, List.length_map] at hlength

theorem steady_input (kcp : Ikcpcb) (d : Bytes) : Steady kcp (input kcp d).1 := by
  have h := Shrinks.input kcp d
  refine ⟨h.mtu, h.wnd, by rw [h.nxt, h.queue], ?_⟩
  rw [Ikcpcb.load, Ikcpcb.load, h.queue]
  exact Nat.add_le_add_left h.length_le _

theorem rcvWnd_recv (kcp : Ikcpcb) (len : Int) : (recv kcp len).1.rcvWnd = kcp.rcvWnd := by
  have hmove : ∀ (k : Ikcpcb) (recover : Bool),
      (fastRecover recover (moveAvailable k.rcvBuf k)).rcvWnd = k.rcvWnd := by
    intro k recover
    have hview := congrArg (fun v => v.receiver.wnd) (view_fastRecover (moveAvailable k.rcvBuf k) recover)
    exact hview.trans (Shrinks.rcvWnd_moveAvailable k)
  rcases recv_cases kcp len with ⟨rc, -, heq⟩ | ⟨-, -, -, heq⟩
  · rw [heq]
  · rw [heq]
    unfold recvMessage
    dsimp only
    rw [hmove]
    split <;> rfl

theorem steady_recv (kcp : Ikcpcb) (len : Int) : Steady kcp (recv kcp len).1 := by
  have hview := view_recv kcp len
  have hsender : (recv kcp len).1.sender = kcp.sender := congrArg View.sender hview
  have hqueue : (recv kcp len).1.sndQueue = kcp.sndQueue := congrArg Sender.queue hsender
  have hbuf : (recv kcp len).1.sndBuf = kcp.sndBuf := congrArg Sender.buf hsender
  have hnxt : (recv kcp len).1.sndNxt = kcp.sndNxt := congrArg Sender.nxt hsender
  exact ⟨congrArg View.mtu hview, rcvWnd_recv kcp len, by rw [hqueue, hnxt], by rw [Ikcpcb.load, Ikcpcb.load, hqueue, hbuf]⟩

theorem steady_flush {c : UInt32} {h hin : List Frag} {p : Nat} {kcp : Ikcpcb} {r : Ikcpcb × List Bytes}
    {moved : List Seg} (hf : kcp.Follows c h hin p) (hflushed : Ikcpcb.Follows.Flushed c h hin p kcp r moved)
    (hmtu : r.1.mtu = kcp.mtu) (hload : r.1.load = kcp.load) : Steady kcp r.1 where
  mtu := hmtu
  wnd := congrArg Receiver.wnd hflushed.receiver
  room := by
    have hnxt : kcp.sndNxt.toNat = h.length := hf.sent.nxt
    have hnext : r.1.sndNxt.toNat = (h ++ moved.map Seg.frag).length := hflushed.follows.sent.nxt
    rw [hnxt, hnext, hflushed.queue, List.length_append, List.length_append, List.length_map, Nat.add_assoc]
  load := Nat.le_of_eq hload

/-- Both endpoints with what it takes to bring the transfer to its end. -/
structure Base (c : UInt32) (s : Net) : Prop where
  connected : ∃ h p, Connected Messages c 0 h p s
  ready : ∀ x, (s.kcp x).Ready
  timers : ∀ x, (s.kcp x).timers.Bounded
  writes : ∀ x, (s.kcp x).Writes c (bufferSize (s.kcp x).mtu)
  room : ∀ x, (s.kcp x).sndNxt.toNat + (s.kcp x).sndQueue.length + 2 ^ 16 ≤ 2 ^ 31
  wnd : ∀ x, (s.kcp x).rcvWnd.toNat < 2 ^ 16

/-- `t` is reached from `s` by reading, the clock and arrivals, with no more left to send than before. -/
structure Onward (c : UInt32) (s t : Net) : Prop where
  base : Base c t
  leads : Leads step Driving s t
  accepted : t.accepted = s.accepted
  load : ∀ x, (t.kcp x).load ≤ (s.kcp x).load

namespace Onward

variable {c : UInt32} {s t u : Net}

theorem refl (h : Base c s) : Onward c s s :=
  ⟨h, Leads.refl _ _, rfl, fun _ => le_rfl⟩

theorem trans (h : Onward c s t) (h' : Onward c t u) : Onward c s u where
  base := h'.base
  leads := h.leads.trans h'.leads
  accepted := h'.accepted.trans h.accepted
  load := fun x => (h'.load x).trans (h.load x)

end Onward

namespace Base

variable {c : UInt32} {s t : Net}

theorem few (h : Base c s) (a : Action) : Few s a := by
  intro x
  have := h.room x
  omega

/-- A step at one side that leaves it steady. -/
theorem onward (h : Base c s) {a : Action} (ha : Driving a) (hstep : step s a = some t) {x : Side} {e : Event}
    (he : e.MtuLe 0) (hkcp : t.kcp = Function.update s.kcp x ((s.kcp x).event e))
    (hsteady : Steady (s.kcp x) ((s.kcp x).event e)) (haccepted : t.accepted = s.accepted) : Onward c s t := by
  have hsame : ∀ {P : Ikcpcb → Prop}, P ((s.kcp x).event e) → ∀ y, P (s.kcp y) → P (t.kcp y) := by
    intro P hx y hy
    rw [hkcp]
    by_cases hyx : y = x
    · rw [hyx, Function.update_self]
      exact hx
    · rw [Function.update_of_ne hyx]
      exact hy
  obtain ⟨hist, p, hconnected⟩ := h.connected
  have hle : e.MtuLe (bufferSize (s.kcp x).mtu) := by
    unfold Event.MtuLe at he ⊢
    split
    · exact le_trans he (Int.natCast_nonneg _)
    · trivial
  have hwrites := (h.writes x).event hle
  have hroom := h.room x
  refine ⟨⟨?_, ?_, ?_, ?_, ?_, ?_⟩, Leads.single ha hstep, haccepted, ?_⟩
  · exact hconnected.step Messages.keeps (h.few a) (SendsOk.of_forall (fun _ _ => trivial) s a) hstep
  · exact fun y => hsame (P := Ikcpcb.Ready) ((h.ready x).event e) y (h.ready y)
  · exact fun y => hsame (P := fun k => k.timers.Bounded) ((h.timers x).event e) y (h.timers y)
  · refine fun y => hsame (P := fun k => k.Writes c (bufferSize k.mtu)) ?_ y (h.writes y)
    rw [hsteady.mtu]
    exact hwrites
  · refine fun y => hsame (P := fun k => k.sndNxt.toNat + k.sndQueue.length + 2 ^ 16 ≤ 2 ^ 31) ?_ y (h.room y)
    rw [hsteady.room]
    exact hroom
  · refine fun y => hsame (P := fun k => k.rcvWnd.toNat < 2 ^ 16) ?_ y (h.wnd y)
    rw [hsteady.wnd]
    exact h.wnd x
  · intro y
    rw [hkcp]
    by_cases hyx : y = x
    · rw [hyx, Function.update_self]
      exact hsteady.load
    · rw [Function.update_of_ne hyx]

/-- A call that neither sends nor takes a message leaves the accepted ones as they are. -/
theorem accepted_call {x : Side} {call : Call} (hcall : ∀ o, acceptedBy call o = []) :
    (s.call x call).accepted = s.accepted := by
  show Function.update s.accepted x (s.accepted x ++ acceptedBy call _) = _
  rw [hcall, List.append_nil, Function.update_eq_self]

/-- What a call sends fits into the assembly buffer. -/
theorem step_call (h : Base c s) (x : Side) (call : Call) :
    step s (.call x call) = some (s.call x call) := by
  have hsizes := (h.writes x).emitted (.call call)
  exact if_pos fun d hd => (hsizes d hd).2

theorem recv (h : Base c s) (x : Side) (len : Int) : Onward c s (s.call x (.recv len)) :=
  h.onward (a := .call x (.recv len)) (e := .call (.recv len)) trivial (h.step_call x (.recv len)) trivial
    rfl (steady_recv _ len) (accepted_call fun _ => rfl)

theorem arrive (h : Base c s) {x : Side} {d : Bytes} (hd : d ∈ s.wire x.peer) : Onward c s (s.arrive x d) := by
  obtain ⟨i, hlt, hi⟩ := List.getElem_of_mem hd
  have hstep : step s (.deliver x i) = some (s.arrive x d) := by
    show (s.wire x.peer)[i]?.map (s.arrive x) = _
    rw [List.getElem?_eq_getElem hlt, hi]
    rfl
  exact h.onward (a := .deliver x i) (e := .input d) trivial hstep trivial rfl (steady_input _ d) rfl

theorem flush (h : Base c s) (x : Side) : Onward c s (s.call x .flush) := by
  obtain ⟨hist, p, hconnected⟩ := h.connected
  have hf := hconnected.follows x
  obtain ⟨moved, hflushed⟩ := hf.flush (hconnected.short x) (hconnected.short x.peer)
  exact h.onward (a := .call x .flush) (e := .call .flush) trivial (h.step_call x .flush) trivial rfl
    (steady_flush hf hflushed (mtu_flush _) (load_flush _)) (accepted_call fun _ => rfl)

theorem update (h : Base c s) (x : Side) (clock : UInt32) : Onward c s (s.call x (.update clock)) := by
  obtain ⟨hist, p, hconnected⟩ := h.connected
  have hf := hconnected.follows x
  obtain ⟨moved, hflushed⟩ := hf.update (hconnected.short x) (hconnected.short x.peer) clock
  have hsame : (Kcp.update (s.kcp x) clock).1.mtu = (s.kcp x).mtu ∧
      (Kcp.update (s.kcp x) clock).1.load = (s.kcp x).load := by
    obtain ⟨tsFlush, heq | heq⟩ := update_cases (s.kcp x) clock
    · rw [heq]
      exact ⟨mtu_flush _, load_flush _⟩
    · rw [heq]
      exact ⟨rfl, rfl⟩
  exact h.onward (a := .call x (.update clock)) (e := .call (.update clock)) trivial
    (h.step_call x (.update clock)) trivial rfl (steady_flush hf hflushed hsame.1 hsame.2)
    (accepted_call fun _ => rfl)

end Base

/-- One side flushes: its endpoint, which is `k` when the flush begins, sends what is due. -/
def Net.flushAt (s : Net) (x : Side) (k : Ikcpcb) : Net :=
  { s with
    kcp := Function.update s.kcp x (flush k).1
    wire := Function.update s.wire x (s.wire x ++ (flush k).2) }

/-- `t` is reached from `s` by a flush at the side `x`, which finds its endpoint as `k`. -/
structure SentBy (c : UInt32) (x : Side) (k : Ikcpcb) (s t : Net) : Prop where
  onward : Onward c s t
  writes : k.Writes c (bufferSize k.mtu)
  self : t.kcp x = (flush k).1
  other : t.kcp x.peer = s.kcp x.peer
  wire : ∀ d ∈ (flush k).2, d ∈ t.wire x

/-- One side can flush at any time of its clock. -/
theorem Base.sentBy {c : UInt32} {s : Net} (h : Base c s) (x : Side) (clock : UInt32) :
    ∃ t tsFlush, SentBy c x ((s.kcp x).atClock clock tsFlush) s t := by
  have hsent : ∀ k : Ikcpcb, k.view = (s.kcp x).view → Onward c s (s.flushAt x k) →
      SentBy c x k s (s.flushAt x k) := by
    intro k hview honward
    have hmtu : k.mtu = (s.kcp x).mtu := congrArg View.mtu hview
    refine ⟨honward, ?_, Function.update_self _ _ _, Function.update_of_ne x.peer_ne _ _, fun d hd => ?_⟩
    · rw [hmtu]
      exact (h.writes x).of_view hview
    · show d ∈ Function.update s.wire x (s.wire x ++ (Kcp.flush k).2) x
      rw [Function.update_self]
      exact List.mem_append_right _ hd
  have hfirst := h.update x clock
  obtain ⟨tsFlush, heq | heq⟩ := update_cases (s.kcp x) clock
  · have hcall : s.call x (.update clock) = s.flushAt x ((s.kcp x).atClock clock tsFlush) := by
      simp [Net.call, Net.flushAt, Ikcpcb.call, acceptedBy, deliveredBy, heq]
    exact ⟨_, tsFlush, hsent _ (view_atClock _ clock tsFlush) (hcall ▸ hfirst)⟩
  · -- the clock is set only, so the flush is called for
    have hsecond := hfirst.base.flush x
    have hcall : (s.call x (.update clock)).call x .flush =
        s.flushAt x ((s.kcp x).atClock clock tsFlush) := by
      simp [Net.call, Net.flushAt, Ikcpcb.call, acceptedBy, deliveredBy, heq]
    exact ⟨_, tsFlush, hsent _ (view_atClock _ clock tsFlush) (hcall ▸ hfirst.trans hsecond)⟩

theorem Net.arrive_self (s : Net) (x : Side) (d : Bytes) : (s.arrive x d).kcp x = (input (s.kcp x) d).1 :=
  Function.update_self _ _ _

theorem Net.arrive_other (s : Net) (x : Side) (d : Bytes) : (s.arrive x.peer d).kcp x = s.kcp x :=
  Function.update_of_ne x.peer_ne.symm _ _

/-! ## Reading -/

/-- The segments that wait for the application. -/
def Ikcpcb.stored (kcp : Ikcpcb) : Nat := kcp.rcvQueue.length + kcp.rcvBuf.length

/-- A complete message can be read, which leaves less. -/
theorem stored_recv {kcp : Ikcpcb} (hempty : kcp.rcvQueue ≠ []) (hsize : 0 ≤ peeksize kcp) :
    (recv kcp (peeksize kcp)).1.stored < kcp.stored := by
  have hmove : ∀ k : Ikcpcb, (moveAvailable k.rcvBuf k).stored = k.stored := by
    intro k
    apply moveAvailable_induction (P := fun l => l.stored = k.stored)
    · intro l seg rest hl hbuf _ _
      rw [← hl, Ikcpcb.stored, Ikcpcb.stored, hbuf]
      show (l.rcvQueue ++ [seg]).length + rest.length = l.rcvQueue.length + (seg :: rest).length
      rw [List.length_append, List.length_singleton, List.length_cons]
      omega
    · rfl
  have hrecover : ∀ (recover : Bool) (k : Ikcpcb), (fastRecover recover k).stored = k.stored := by
    intro recover k
    unfold fastRecover
    split <;> rfl
  have hdrop : (dropMessage kcp).stored < kcp.stored := by
    have hlength := congrArg List.length (Ikcpcb.Ordered.takeMessage_append kcp.rcvQueue)
    have hpos : 0 < (takeMessage kcp.rcvQueue).1.length := by
      cases hqueue : kcp.rcvQueue with
      | nil => exact absurd hqueue hempty
      | cons seg rest =>
          rw [takeMessage]
          split <;> exact Nat.succ_pos _
    rw [List.length_append] at hlength
    show (takeMessage kcp.rcvQueue).2.length + kcp.rcvBuf.length < kcp.rcvQueue.length + kcp.rcvBuf.length
    omega
  have hread : recv kcp (peeksize kcp) = (recvMessage kcp (peeksize kcp), ((firstMessage kcp).length : Int),
      firstMessage kcp) := by
    have hroom : ¬ peeksize kcp > |peeksize kcp| := not_lt.2 (le_abs_self _)
    rw [recv, if_neg hempty, if_neg (not_lt.2 hsize), if_neg hroom]
  rw [hread]
  unfold recvMessage
  dsimp only
  rw [if_neg (not_lt.2 hsize), hrecover, hmove]
  exact hdrop

/-- Reading keeps the answer to a probe pending. -/
theorem tell_recv {kcp : Ikcpcb} (htell : kcp.probe &&& askTell ≠ 0) (len : Int) :
    (recv kcp len).1.probe &&& askTell ≠ 0 := by
  have hmove : ∀ k : Ikcpcb, (moveAvailable k.rcvBuf k).probe = k.probe := by
    intro k
    apply moveAvailable_induction (P := fun l => l.probe = k.probe)
    · intro l seg rest hl _ _ _
      exact hl
    · rfl
  have hrecover : ∀ (recover : Bool) (k : Ikcpcb), k.probe &&& askTell ≠ 0 →
      (fastRecover recover k).probe &&& askTell ≠ 0 := by
    intro recover k hk
    unfold fastRecover
    split
    · exact bit_or_left hk
    · exact hk
  rcases recv_cases kcp len with ⟨rc, -, heq⟩ | ⟨-, -, -, heq⟩
  · rw [heq]
    exact htell
  · rw [heq]
    unfold recvMessage
    dsimp only
    apply hrecover
    rw [hmove]
    split <;> exact htell

/-- `t` is reached from `s` by reading at the side `y`. -/
structure ReadOn (c : UInt32) (y : Side) (s t : Net) : Prop where
  onward : Onward c s t
  other : t.kcp y.peer = s.kcp y.peer
  wire : t.wire = s.wire
  tell : (s.kcp y).probe &&& askTell ≠ 0 → (t.kcp y).probe &&& askTell ≠ 0

namespace ReadOn

variable {c : UInt32} {y : Side} {s t u : Net}

theorem refl (h : Base c s) : ReadOn c y s s :=
  ⟨Onward.refl h, rfl, rfl, fun htell => htell⟩

theorem trans (h : ReadOn c y s t) (h' : ReadOn c y t u) : ReadOn c y s u where
  onward := h.onward.trans h'.onward
  other := h'.other.trans h.other
  wire := h'.wire.trans h.wire
  tell := fun htell => h'.tell (h.tell htell)

theorem recv (h : Base c s) (y : Side) (len : Int) : ReadOn c y s (s.call y (.recv len)) where
  onward := h.recv y len
  other := Function.update_of_ne y.peer_ne _ _
  wire := by
    show Function.update s.wire y (s.wire y ++ []) = s.wire
    rw [List.append_nil, Function.update_eq_self]
  tell := by
    intro htell
    show (Function.update s.kcp y ((s.kcp y).call (.recv len)).kcp y).probe &&& askTell ≠ 0
    rw [Function.update_self]
    exact tell_recv htell len

end ReadOn

/-- A side can read until there is no complete message left. -/
theorem Base.read_off {c : UInt32} {s : Net} (h : Base c s) (y : Side) :
    ∃ t, ReadOn c y s t ∧ ((t.kcp y).rcvQueue = [] ∨ peeksize (t.kcp y) < 0) := by
  refine exists_of_decreasing (fun s => (s.kcp y).stored) (fun s (hs : Base c s) => ReadOn.refl hs)
    (fun h h' => h.trans h') (fun h => h.onward.base) ?_ s h
  intro s hs
  by_cases hempty : (s.kcp y).rcvQueue = []
  · exact Or.inl (Or.inl hempty)
  · by_cases hsize : peeksize (s.kcp y) < 0
    · exact Or.inl (Or.inr hsize)
    · refine Or.inr ⟨_, ReadOn.recv hs y (peeksize (s.kcp y)), ?_⟩
      show (Function.update s.kcp y ((s.kcp y).call (.recv (peeksize (s.kcp y)))).kcp y).stored < _
      rw [Function.update_self]
      exact stored_recv hempty (not_lt.1 hsize)

/-- Then the queue is not full. -/
theorem Base.length_lt {c : UInt32} {s : Net} (h : Base c s) {y : Side}
    (hread : (s.kcp y).rcvQueue = [] ∨ peeksize (s.kcp y) < 0) : (s.kcp y).rcvQueue.length < wndRcv.toNat := by
  rcases hread with hempty | hsize
  · rw [hempty]
    exact show 0 < wndRcv.toNat by decide
  · obtain ⟨hist, p, hs⟩ := h.connected
    obtain ⟨rest, -, hframed⟩ := hs.content y.peer
    rw [Side.peer_peer, (hs.follows y).pending_eq] at hframed
    by_contra hfull
    have hfull' : wndRcv.toNat ≤ (s.kcp y).rcvQueue.length := Nat.le_of_not_lt hfull
    have hne : (s.kcp y).rcvQueue ≠ [] := by
      intro hempty
      rw [hempty] at hfull'
      exact absurd hfull' (by decide)
    exact absurd (hframed.readable (hs.follows y).ordered.receiver hne (Or.inr hfull')) (not_le.2 hsize)

/-! ## An acknowledgement -/

/-- What a flush wrote is on the wire, in datagrams of good segments that all tell the window of that flush. -/
theorem SentBy.on_wire {K : Content} {c : UInt32} {mode : Int32} {h : Side → List Frag} {p : Side → Nat} {s t : Net}
    {x : Side} {k : Ikcpcb} {seg : Seg} (hsent : SentBy c x k s t) (ht : Connected K c mode h p t)
    (hupdated : k.updated = true) (hseg : seg ∈ written k) :
    ∃ segs, packed segs ∈ t.wire x ∧
      (∀ g ∈ segs, Good c (h x) (t.kcp x).receiver.Got g ∧ g.header.wnd = (wndUnused k).toUInt16) ∧
      ∃ sent ∈ segs, sent.sn = seg.sn ∧ sent.cmd = seg.cmd := by
  have hall : ∀ g ∈ written k, g.Fits ∧ g.wnd = wndUnused k :=
    fun g hg => ⟨(hsent.writes.sendable g hg).fits, wnd_of_written g hg⟩
  obtain ⟨segs, hd, hin, hsegs⟩ := exists_packed_of_written hupdated hall hseg
  obtain ⟨good, -, heq, hgood⟩ := ht.wire x _ (hsent.wire _ hd)
  have hsame := packed_inj (fun g hg => (hgood g hg).fits) (fun g hg => (hsegs g hg).1) heq
  refine ⟨good, heq ▸ hsent.wire _ hd, fun g hg => ⟨hgood g hg, ?_⟩, ?_⟩
  · have hmem : (g.header, g.data) ∈ segs.map fun g => (g.header, g.data) :=
      hsame ▸ List.mem_map_of_mem hg
    obtain ⟨other, hother, hboth⟩ := List.mem_map.1 hmem
    have hheader : other.header = g.header := congrArg Prod.fst hboth
    rw [← hheader, ← (hsegs other hother).2]
    rfl
  · have hmem : (seg.header, seg.data) ∈ good.map fun g => (g.header, g.data) :=
      hsame ▸ List.mem_map_of_mem hin
    obtain ⟨sent, hmember, hboth⟩ := List.mem_map.1 hmem
    have hheader : sent.header = seg.header := congrArg Prod.fst hboth
    refine ⟨sent, hmember, congrArg Header.sn hheader, ?_⟩
    rw [← (hgood sent hmember).fits.cmd_header, ← (hall seg hseg).1.cmd_header, hheader]

/-- While the queue of the other side has room, the first segment in flight was next in turn there, or is read. -/
theorem Base.first_le {c : UInt32} {s : Net} (h : Base c s) {x : Side} {seg : Seg} {rest : List Seg}
    (hbuf : (s.kcp x).sndBuf = seg :: rest) (hroom : (s.kcp x.peer).rcvQueue.length < wndRcv.toNat) :
    (s.kcp x).sndUna = seg.sn ∧ seg.sn.toNat ≤ (s.kcp x.peer).rcvNxt.toNat := by
  obtain ⟨hist, p, hs⟩ := h.connected
  have hf := hs.follows x
  have hlist : (s.kcp x).sender.buf = seg :: rest := hbuf
  have huna : (s.kcp x).sndUna = seg.sn := by
    have hsettled : (s.kcp x).sndUna = (s.kcp x).sender.first := hf.ordered.settled
    rw [hsettled, Sender.first, hlist]
  refine ⟨huna, ?_⟩
  by_contra hlater
  have hlater' : (s.kcp x.peer).rcvNxt.toNat < seg.sn.toNat := Nat.lt_of_not_le hlater
  have hlt : seg.sn.toNat < (hist x).length :=
    hf.outstanding_lt ⟨seg, by rw [hlist]; exact List.mem_cons_self, rfl⟩
  have hshort := hs.short x
  rcases hs.noLoss x (s.kcp x.peer).rcvNxt.toNat (by omega) with ⟨other, hother, hsn⟩ | hpast | ⟨other, hother, hsn⟩
  · -- the numbers in flight begin with the first one
    have hnumber := hf.ordered.sender.numbers other hother
    have hin := hf.ordered.sender.inflight
    have hsame : (s.kcp x).sender.una = seg.sn := huna
    rw [hsame] at hnumber hin
    rw [ahead_eq other.sn] at hnumber
    omega
  · exact absurd hpast (Nat.lt_irrefl _)
  · have hfull := (h.ready x.peer).full hother (UInt32.toNat_inj.1 hsn)
    omega

theorem sndUna_flush {kcp : Ikcpcb} (hupdated : kcp.updated = true) : (flush kcp).1.sndUna = kcp.sndUna :=
  (SameFlow.flush hupdated).una.trans (congrArg (fun v => v.sender.una) (view_probeWindow kcp))

/-- The first segment in flight can be brought over. -/
theorem Base.brought {c : UInt32} {s : Net} (h : Base c s) {x : Side} {seg : Seg} {rest : List Seg}
    (hbuf : (s.kcp x).sndBuf = seg :: rest) (hroom : (s.kcp x.peer).rcvQueue.length < wndRcv.toNat) :
    ∃ t ts, Onward c s t ∧ (seg.sn, ts) ∈ (t.kcp x.peer).acklist ∧ ∃ kept ∈ (t.kcp x).sndBuf, kept.sn = seg.sn := by
  have hmem : seg ∈ (s.kcp x).sndBuf := hbuf ▸ List.mem_cons_self
  obtain ⟨huna, hnext⟩ := h.first_le hbuf hroom
  -- it goes out when its time has come
  obtain ⟨s', tsFlush, hsend⟩ := h.sentBy x seg.resendts
  have hdue : itimediff seg.resendts seg.resendts ≥ 0 := by
    apply serialDiff_nonneg_iff.2
    rw [ahead_self]
    exact Nat.two_pow_pos 31
  have hwritten : ∃ out ∈ written ((s.kcp x).atClock seg.resendts tsFlush), out.key = seg.key :=
    written_of_due hmem (Or.inr hdue)
  obtain ⟨out, hout, hkey⟩ := hwritten
  have hcmd : out.cmd = cmdPush := (congrArg (fun k => k.2.2.1) hkey).trans (hsend.writes.buf seg hmem).2.2
  have hsn : out.sn = seg.sn := congrArg Prod.fst hkey
  -- and arrives, fewer than `2 ^ 16` numbers behind the last one
  obtain ⟨hist, p, hs'⟩ := hsend.onward.base.connected
  obtain ⟨segs, hd, hgood, sent, hsent, hsentsn, hsentcmd⟩ := hsend.on_wire hs' rfl hout
  have harrive := hsend.onward.base.arrive (x := x.peer) (by rwa [Side.peer_peer])
  have hf := hs'.follows x
  have hfirst : (s'.kcp x).sndUna.toNat = seg.sn.toNat := by
    rw [hsend.self, sndUna_flush rfl]
    exact congrArg UInt32.toNat huna
  have hnxt : (s'.kcp x).sndNxt.toNat = (hist x).length := hf.sent.nxt
  have hinflight : (s'.kcp x).sndNxt.toNat < (s'.kcp x).sndUna.toNat + 2 ^ 16 :=
    Ikcpcb.Follows.nxt_lt hf.ordered.sender (lt_of_le_of_lt hf.una_le (hs'.short x))
  have hpeer := hs'.follows x.peer
  rw [Side.peer_peer] at hpeer
  have hsn' : sent.sn = seg.sn := hsentsn.trans hsn
  have hfew : (hist x).length < sent.sn.toNat + 2 ^ 16 := by
    rw [hsn']
    omega
  have hnext' : sent.sn.toNat ≤ (s'.kcp x.peer).rcvNxt.toNat := by
    rw [hsn', hsend.other]
    exact hnext
  obtain ⟨ts, hts⟩ := ack_noted_of_packed hpeer (hs'.short x.peer) (hs'.short x)
    (fun other hother => (hgood other hother).1) hsent (hsentcmd.trans hcmd) hnext' hfew
    (hsend.onward.base.wnd x.peer)
  refine ⟨s'.arrive x.peer (packed segs), ts, hsend.onward.trans harrive, ?_, ?_⟩
  · rw [Net.arrive_self, ← hsn']
    exact hts
  · rw [Net.arrive_other, hsend.self]
    exact sn_flush rfl hmem

/-- A pending acknowledgement of a segment in flight can be brought over. -/
theorem Base.returned {c : UInt32} {s : Net} (h : Base c s) {x : Side} {sn ts : UInt32} {acked : Seg}
    (hack : (sn, ts) ∈ (s.kcp x.peer).acklist) (hacked : acked ∈ (s.kcp x).sndBuf) (hsn : acked.sn = sn) :
    ∃ t, Onward c s t ∧ (t.kcp x).load < (s.kcp x).load := by
  obtain ⟨s', tsFlush, hsend⟩ := h.sentBy x.peer 0
  have hpending : (sn, ts) ∈ ((s.kcp x.peer).atClock 0 tsFlush).acklist := hack
  have hout := written_of_ack hpending
  have hother := hsend.other
  rw [Side.peer_peer] at hother
  obtain ⟨hist, p, hs'⟩ := hsend.onward.base.connected
  obtain ⟨segs, hd, hgood, sent, hsent, hsentsn, hsentcmd⟩ := hsend.on_wire hs' rfl hout
  refine ⟨s'.arrive x (packed segs), hsend.onward.trans (hsend.onward.base.arrive hd), ?_⟩
  rw [Net.arrive_self, hother]
  have hf := hs'.follows x
  rw [hother] at hf
  exact load_lt_of_packed hf (hs'.short x) (hs'.short x.peer) (fun other hother => (hgood other hother).1) hsent
    hsentcmd hacked (hsn.trans hsentsn.symm)

/-- The first segment in flight can be brought over and acknowledged, once the other side has read what it can. -/
theorem Base.acknowledged {c : UInt32} {s : Net} (h : Base c s) {x : Side} (hbuf : (s.kcp x).sndBuf ≠ []) :
    ∃ t, Onward c s t ∧ (t.kcp x).load < (s.kcp x).load := by
  cases hlist : (s.kcp x).sndBuf with
  | nil => exact absurd hlist hbuf
  | cons seg rest =>
      obtain ⟨s₁, hread, hend⟩ := h.read_off x.peer
      have hsame : s₁.kcp x = s.kcp x := by
        have hother := hread.other
        rwa [Side.peer_peer] at hother
      have h₁ := hread.onward.base
      obtain ⟨s₂, ts, hon₂, hack, kept, hkept, hsn⟩ := h₁.brought (hsame ▸ hlist) (h₁.length_lt hend)
      obtain ⟨s₃, hon₃, hless⟩ := hon₂.base.returned hack hkept hsn
      refine ⟨s₃, (hread.onward.trans hon₂).trans hon₃, lt_of_lt_of_le hless ?_⟩
      exact (hread.onward.trans hon₂).load x

/-! ## A closed window -/

/-- A queue that is not full is told as an open window, below `2 ^ 16`. -/
theorem wndUnused_open {kcp : Ikcpcb} (hordered : kcp.receiver.Ordered) (hroom : kcp.rcvQueue.length < wndRcv.toNat)
    (hwnd : kcp.rcvWnd.toNat < 2 ^ 16) : (wndUnused kcp).toUInt16.toUInt32 ≠ 0 := by
  have hnque : kcp.nrcvQue.toNat = kcp.rcvQueue.length := hordered.toNat_nque
  have hleast : wndRcv.toNat ≤ kcp.rcvWnd.toNat := hordered.wnd_ge
  have hless : kcp.nrcvQue < kcp.rcvWnd := UInt32.lt_iff_toNat_lt.2 (by omega)
  have hunused : (wndUnused kcp).toNat = kcp.rcvWnd.toNat - kcp.rcvQueue.length := by
    rw [wndUnused, if_pos hless, UInt32.toNat_sub_of_le _ _ (UInt32.le_of_lt hless), hnque]
  intro hzero
  have htold : (wndUnused kcp).toUInt16.toUInt32.toNat = 0 := congrArg UInt32.toNat hzero
  rw [UInt16.toNat_toUInt32, UInt32.toNat_toUInt16, hunused] at htold
  omega

/-- While its window is closed, the other side can be asked for it. -/
theorem Base.asked {c : UInt32} {s : Net} (h : Base c s) {x : Side} (hclosed : (s.kcp x).rmtWnd = 0) :
    ∃ t, Onward c s t ∧ (t.kcp x.peer).probe &&& askTell ≠ 0 := by
  -- the first flush sets the timer of the probe
  obtain ⟨s₁, tsFlush, hfirst⟩ := h.sentBy x 0
  have htimers : ((s.kcp x).atClock 0 tsFlush).timers.Bounded := h.timers x
  have hwait : (s₁.kcp x).probeWait ≠ 0 := by
    rw [hfirst.self]
    exact probeWait_flush htimers rfl hclosed
  have hstill : (s₁.kcp x).rmtWnd = 0 := by
    rw [hfirst.self, rmtWnd_flush rfl]
    exact hclosed
  -- the second one comes when it has run out
  obtain ⟨s₂, tsFlush', hsecond⟩ := hfirst.onward.base.sentBy x (s₁.kcp x).tsProbe
  have htime : itimediff (s₁.kcp x).tsProbe (s₁.kcp x).tsProbe ≥ 0 := by
    apply serialDiff_nonneg_iff.2
    rw [ahead_self]
    exact Nat.two_pow_pos 31
  have hwritten : ∃ ask ∈ written ((s₁.kcp x).atClock (s₁.kcp x).tsProbe tsFlush'), ask.cmd = cmdWask :=
    written_of_probe hstill hwait htime
  obtain ⟨ask, hask, hcmd⟩ := hwritten
  obtain ⟨hist, p, hs₂⟩ := hsecond.onward.base.connected
  obtain ⟨segs, hd, hgood, sent, hsent, -, hsentcmd⟩ := hsecond.on_wire hs₂ rfl hask
  have harrive := hsecond.onward.base.arrive (x := x.peer) (by rwa [Side.peer_peer])
  refine ⟨_, (hfirst.onward.trans hsecond.onward).trans harrive, ?_⟩
  rw [Net.arrive_self]
  apply tell_noted_of_packed hsent (hsentcmd.trans hcmd)
  intro other hother
  exact ⟨(hgood other hother).1.fits, (hgood other hother).1.conv.trans (hs₂.follows x.peer).conv.symm⟩

/-- The answer opens the window again, once the other side has read what it can. -/
theorem Base.answered {c : UInt32} {s : Net} (h : Base c s) {x : Side}
    (htell : (s.kcp x.peer).probe &&& askTell ≠ 0) : ∃ t, Onward c s t ∧ (t.kcp x).rmtWnd ≠ 0 := by
  obtain ⟨s₁, hread, hend⟩ := h.read_off x.peer
  have h₁ := hread.onward.base
  obtain ⟨s₂, tsFlush, hsend⟩ := h₁.sentBy x.peer 0
  have hpending : ((s₁.kcp x.peer).atClock 0 tsFlush).probe &&& askTell ≠ 0 := hread.tell htell
  obtain ⟨first, hfirst⟩ := List.exists_mem_of_ne_nil _ (written_of_tell hpending)
  obtain ⟨hist, p, hs₂⟩ := hsend.onward.base.connected
  obtain ⟨segs, hd, hgood, sent, hsent, -, -⟩ := hsend.on_wire hs₂ rfl hfirst
  refine ⟨s₂.arrive x (packed segs), (hread.onward.trans hsend.onward).trans (hsend.onward.base.arrive hd), ?_⟩
  rw [Net.arrive_self]
  apply rmtWnd_of_packed (List.ne_nil_of_mem hsent)
  · intro other hother
    exact ⟨(hgood other hother).1.fits, (hgood other hother).1.conv.trans (hs₂.follows x).conv.symm⟩
  · intro other hother
    rw [(hgood other hother).2]
    exact wndUnused_open (h₁.ready x.peer).ordered.receiver (h₁.length_lt hend) (h₁.wnd x.peer)

theorem Base.opened {c : UInt32} {s : Net} (h : Base c s) (x : Side) :
    ∃ t, Onward c s t ∧ (t.kcp x).rmtWnd ≠ 0 := by
  by_cases hclosed : (s.kcp x).rmtWnd = 0
  · obtain ⟨s₁, hon₁, htell⟩ := h.asked hclosed
    obtain ⟨s₂, hon₂, hopen⟩ := hon₁.base.answered htell
    exact ⟨s₂, hon₁.trans hon₂, hopen⟩
  · exact ⟨s, Onward.refl h, hclosed⟩

/-- With an open window something can be brought in flight. -/
theorem Base.inflight {c : UInt32} {s : Net} (h : Base c s) {x : Side} (hopen : (s.kcp x).rmtWnd ≠ 0)
    (hload : (s.kcp x).load ≠ 0) : ∃ t, Onward c s t ∧ (t.kcp x).sndBuf ≠ [] := by
  -- after the first flush the congestion window is open too
  obtain ⟨s₁, tsFlush, hfirst⟩ := h.sentBy x 0
  obtain ⟨s₂, tsFlush', hsecond⟩ := hfirst.onward.base.sentBy x 0
  have hcwnd : (s₁.kcp x).cwnd ≠ 0 := by
    rw [hfirst.self]
    exact cwnd_flush rfl
  have hstill : (s₁.kcp x).rmtWnd ≠ 0 := by
    rw [hfirst.self, rmtWnd_flush rfl]
    exact hopen
  have hsame : (s₁.kcp x).load ≠ 0 := by
    rw [hfirst.self, load_flush]
    exact hload
  have hordered : ((s₁.kcp x).atClock 0 tsFlush').Ordered :=
    (hfirst.onward.base.ready x).ordered.of_view (view_atClock _ 0 tsFlush')
  refine ⟨s₂, hfirst.onward.trans hsecond.onward, ?_⟩
  rw [hsecond.self]
  exact sndBuf_flush_ne_nil hordered rfl hstill hcwnd hsame

/-! ## The way to the end -/

/-- As long as a side has something to send, it can get rid of a part of it. -/
theorem Base.lighter {c : UInt32} {s : Net} (h : Base c s) {x : Side} (hload : (s.kcp x).load ≠ 0) :
    ∃ t, Onward c s t ∧ (t.kcp x).load < (s.kcp x).load := by
  obtain ⟨s₁, hon₁, hopen⟩ := h.opened x
  by_cases hless : (s₁.kcp x).load < (s.kcp x).load
  · exact ⟨s₁, hon₁, hless⟩
  · have hle := hon₁.load x
    obtain ⟨s₂, hon₂, hbuf⟩ := hon₁.base.inflight hopen (by omega)
    obtain ⟨s₃, hon₃, hless⟩ := hon₂.base.acknowledged hbuf
    exact ⟨s₃, (hon₁.trans hon₂).trans hon₃, lt_of_lt_of_le hless ((hon₁.trans hon₂).load x)⟩

/-- So both sides can get rid of everything. -/
theorem Base.drained {c : UInt32} {s : Net} (h : Base c s) :
    ∃ t, Onward c s t ∧ ∀ x, (t.kcp x).load = 0 := by
  refine exists_of_decreasing (fun s => (s.kcp .one).load + (s.kcp .two).load)
    (fun s (hs : Base c s) => Onward.refl hs) (fun h h' => h.trans h') (fun h => h.base) ?_ s h
  intro s hs
  by_cases hdone : ∀ x, (s.kcp x).load = 0
  · exact Or.inl hdone
  · obtain ⟨x, hload⟩ := not_forall.1 hdone
    obtain ⟨t, hon, hless⟩ := hs.lighter hload
    refine Or.inr ⟨t, hon, ?_⟩
    have hone := hon.load .one
    have htwo := hon.load .two
    cases x with
    | one => omega
    | two => omega

/-- What is accepted is delivered, and no side has anything left to send. -/
def Net.Finished (s : Net) : Prop :=
  ∀ x, (s.kcp x).sndBuf = [] ∧ (s.kcp x).sndQueue = [] ∧ s.delivered x.peer = s.accepted x

/-- With nothing left to send, both sides can read to the end. -/
theorem Base.finished {c : UInt32} {s : Net} (h : Base c s) (hdone : ∀ x, (s.kcp x).load = 0) :
    ∃ t, Onward c s t ∧ t.Finished := by
  have hnil : ∀ t, Onward c s t → ∀ x, (t.kcp x).sndBuf = [] ∧ (t.kcp x).sndQueue = [] := by
    intro t hon x
    have hle := hon.load x
    rw [hdone x, Ikcpcb.load] at hle
    exact ⟨List.length_eq_zero_iff.1 (by omega), List.length_eq_zero_iff.1 (by omega)⟩
  -- what is left in a queue is readable when nothing is on its way
  have hempty : ∀ t y, Onward c s t → (t.kcp y).rcvQueue = [] ∨ peeksize (t.kcp y) < 0 →
      (t.kcp y).rcvQueue = [] := by
    intro t y hon hend
    by_contra hne
    obtain ⟨hist, p, ht⟩ := hon.base.connected
    obtain ⟨hsnd, hque⟩ := hnil t hon y.peer
    have hreadable := (ht.settled hon.base.ready y.peer hsnd hque).1 (peeksize (t.kcp y))
    rw [Side.peer_peer] at hreadable
    apply hreadable
    rw [Kcp.recv, if_neg hne, if_pos (hend.resolve_left hne)]
  obtain ⟨s₁, hone, hend₁⟩ := h.read_off .one
  obtain ⟨s₂, htwo, hend₂⟩ := hone.onward.base.read_off .two
  have hon := hone.onward.trans htwo.onward
  refine ⟨s₂, hon, fun x => ⟨(hnil s₂ hon x).1, (hnil s₂ hon x).2, ?_⟩⟩
  obtain ⟨hist, p, ht⟩ := hon.base.connected
  apply (ht.settled hon.base.ready x (hnil s₂ hon x).1 (hnil s₂ hon x).2).2
  cases x with
  | one => exact hempty s₂ .two hon hend₂
  | two =>
      have hsame : s₂.kcp .one = s₁.kcp .one := htwo.other
      show (s₂.kcp .one).rcvQueue = []
      rw [hsame]
      exact hempty s₁ .one hone.onward hend₁

/-- There is room for the numbers of everything that waits, the windows can be told, and the assembly buffers are
large enough for a datagram and for each waiting segment. -/
structure Net.Recoverable (s : Net) : Prop where
  room : ∀ x, (s.kcp x).sndNxt.toNat + (s.kcp x).sndQueue.length + 2 ^ 16 ≤ 2 ^ 31
  wnd : ∀ x, (s.kcp x).rcvWnd.toNat < 2 ^ 16
  size : ∀ x, (s.kcp x).mtu.value ≤ bufferSize (s.kcp x).mtu
  fits : ∀ x, ∀ seg ∈ (s.kcp x).sndQueue ++ (s.kcp x).sndBuf, overhead + seg.len ≤ bufferSize (s.kcp x).mtu

instance decidableForallSide (P : Side → Prop) [∀ x, Decidable (P x)] : Decidable (∀ x, P x) :=
  decidable_of_iff (P .one ∧ P .two)
    ⟨fun h x => match x with
      | .one => h.1
      | .two => h.2, fun h => ⟨h .one, h .two⟩⟩

instance (s : Net) : Decidable s.Recoverable :=
  decidable_of_iff ((∀ x, (s.kcp x).sndNxt.toNat + (s.kcp x).sndQueue.length + 2 ^ 16 ≤ 2 ^ 31) ∧
      (∀ x, (s.kcp x).rcvWnd.toNat < 2 ^ 16) ∧
      (∀ x, (s.kcp x).mtu.value ≤ bufferSize (s.kcp x).mtu) ∧
      ∀ x, ∀ seg ∈ (s.kcp x).sndQueue ++ (s.kcp x).sndBuf, overhead + seg.len ≤ bufferSize (s.kcp x).mtu)
    ⟨fun h => ⟨h.1, h.2.1, h.2.2.1, h.2.2.2⟩, fun h => ⟨h.room, h.wnd, h.size, h.fits⟩⟩

/-- Reading, the clock and arrivals lead to a state in which everything is delivered. -/
def Net.CanFinish (s : Net) : Prop :=
  ∃ t, Leads step Driving s t ∧ t.accepted = s.accepted ∧ t.Finished

/-- A recoverable state of a run has all that `Base` asks for. -/
theorem Connected.base {c : UInt32} {h : Side → List Frag} {p : Side → Nat} {s : Net}
    (hs : Connected Messages c 0 h p s) (hready : ∀ x, (s.kcp x).Ready) (htimers : ∀ x, (s.kcp x).timers.Bounded)
    (hrecoverable : s.Recoverable) : Base c s where
  connected := ⟨h, p, hs⟩
  ready := hready
  timers := htimers
  room := hrecoverable.room
  wnd := hrecoverable.wnd
  writes := by
    intro x
    have hsent := (hs.follows x).sent
    exact {
      conv := (hs.follows x).conv
      mtu := hrecoverable.size x
      queue := fun seg hseg => ⟨hsent.queue seg hseg, hrecoverable.fits x seg (List.mem_append_left _ hseg)⟩
      buf := by
        intro seg hseg
        obtain ⟨hconv, hcmd, hfrag⟩ := hsent.buf seg hseg
        obtain ⟨hlt, hget⟩ := List.getElem?_eq_some_iff.1 hfrag
        have hsmall : seg.frag.Small := hget ▸ hsent.history _ (List.getElem_mem hlt)
        exact ⟨⟨hsmall, hrecoverable.fits x seg (List.mem_append_right _ hseg)⟩, hconv, hcmd⟩ }

/-- No run in message mode has a dead end: from every recoverable state in which a run may be, whatever the network
did, everything that was accepted can still be delivered. -/
theorem can_finish (conv : UInt32) (as : List Action) (has : EveryStep step Few (start conv fun _ => 0) as) :
    EveryState step (fun s => s.Recoverable → s.CanFinish) (start conv fun _ => 0) as := by
  have hkept : ∀ s a t, ((∃ h p, Connected Messages conv 0 h p s) ∧
      ∀ x, (s.kcp x).Ready ∧ (s.kcp x).timers.Bounded) → Few s a → step s a = some t →
      (∃ h p, Connected Messages conv 0 h p t) ∧ ∀ x, (t.kcp x).Ready ∧ (t.kcp x).timers.Bounded := by
    rintro s a t ⟨⟨h, p, hs⟩, hall⟩ hfew hstep
    refine ⟨hs.step Messages.keeps hfew (SendsOk.of_forall (fun _ _ => trivial) s a) hstep, fun x => ?_⟩
    rcases kcp_of_step hstep x with hsame | ⟨e, hevent⟩
    · rw [hsame]
      exact hall x
    · rw [hevent]
      exact ⟨(hall x).1.event e, (hall x).2.event e⟩
  refine everyState_of_everyStep hkept ?_ as _
    ⟨⟨_, _, Connected.start Messages.keeps.empty conv 0⟩,
      fun x => ⟨Ikcpcb.Ready.created conv 0, Timers.Bounded.created conv 0⟩⟩ has
  rintro s ⟨⟨h, p, hs⟩, hall⟩ hrecoverable
  have hbase := hs.base (fun x => (hall x).1) (fun x => (hall x).2) hrecoverable
  obtain ⟨t, hon, hdone⟩ := hbase.drained
  obtain ⟨u, hlast, hfinished⟩ := hon.base.finished hdone
  have hall := hon.trans hlast
  exact ⟨u, hall.leads, hall.accepted, hfinished⟩

/-- `kcp1` sends two messages, of whose three datagrams only the second one arrives, and `kcp2` answers with an
acknowledgement that is lost. -/
def losing : List Action :=
  [.call .one (.setmtu 50), .call .one (.nodelay 1 10 2 1), .call .one (.send (List.replicate 30 7)),
    .call .one (.send [1, 2]), .call .one (.update 10), .deliver .two 1, .call .two (.update 20)]

theorem losing_runs : (run step (start 7 fun _ => 0) losing).isSome := by decide +kernel

theorem can_finish_losing : ∃ s, run step (start 7 fun _ => 0) losing = some s ∧ s.Recoverable ∧
    (s.kcp .one).sndBuf ≠ [] ∧ s.delivered .two = [] ∧ s.CanFinish := by
  have hrun := (Option.some_get losing_runs).symm
  have hrecoverable : ((run step (start 7 fun _ => 0) losing).get losing_runs).Recoverable := by decide +kernel
  refine ⟨_, hrun, hrecoverable, by decide +kernel, by decide +kernel, ?_⟩
  exact (can_finish 7 losing (by decide +kernel)).last hrun hrecoverable

end CppMisc.Kcp
