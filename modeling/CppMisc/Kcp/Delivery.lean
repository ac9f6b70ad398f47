import CppMisc.Kcp.Network

/-!
# What arrives is what was sent

`Connected` is the invariant of the two endpoints and everything that was ever on the wire, with the histories
of both directions: each endpoint follows them, each number of a history is kept by its sender or got by the
other side, and every datagram is made of good segments.

What the messages are is left to a relation `K` between the fragments on their way, the accepted messages and
the delivered ones. Only `ikcp_send` and `ikcp_recv` have to keep it, and `Keeps` says so.
-/

set_option autoImplicit false

namespace CppMisc.Kcp

open CppMisc.Library

/-- The fragments of a direction that were accepted and are not read. -/
def pending (h : List Frag) (p : Nat) (kcp : Ikcpcb) : List Frag := h.drop p ++ kcp.sndQueue.map Seg.frag

/-- The fragments that `ikcp_recv` takes out of `rcv_queue`. -/
def readCount (kcp : Ikcpcb) (len : Int) : Nat :=
  if 0 ≤ (recv kcp len).2.1 ∧ 0 ≤ len then (takeMessage kcp.rcvQueue).1.length else 0

/-- A relation between the fragments on their way, the accepted messages and the delivered ones. -/
abbrev Content := List Frag → List Bytes → List Bytes → Prop

/-- Sending and receiving keep the relation, under a condition `ok` on the calls of `ikcp_send`. -/
structure Keeps (K : Content) (mode : Int32) (ok : Ikcpcb → Bytes → Prop) : Prop where
  empty : K [] [] []
  send : ∀ (kcp : Ikcpcb) (front : List Frag) (buffer : Bytes) (acc del : List Bytes),
    kcp.stream = mode → ok kcp buffer → K (front ++ kcp.sndQueue.map Seg.frag) acc del →
    K (front ++ (kcp.call (.send buffer)).kcp.sndQueue.map Seg.frag)
      (acc ++ acceptedBy (.send buffer) (kcp.call (.send buffer))) del
  recv : ∀ (kcp : Ikcpcb) (others : List Frag) (len : Int) (acc del : List Bytes),
    kcp.receiver.Ordered → K (kcp.rcvQueue.map Seg.frag ++ others) acc del →
    K ((kcp.rcvQueue.map Seg.frag ++ others).drop (readCount kcp len)) acc
      (del ++ deliveredBy (.recv len) (kcp.call (.recv len)))

/-- The condition on the calls of `ikcp_send` along a run. -/
def SendsOk (ok : Ikcpcb → Bytes → Prop) (s : Net) : Action → Prop
  | .call x (.send buffer) => ok (s.kcp x) buffer
  | _ => True

instance (ok : Ikcpcb → Bytes → Prop) [∀ kcp buffer, Decidable (ok kcp buffer)] (s : Net) :
    ∀ a, Decidable (SendsOk ok s a)
  | .call x (.send buffer) => inferInstanceAs (Decidable (ok (s.kcp x) buffer))
  | .call _ (.recv _) => isTrue trivial
  | .call _ (.update _) => isTrue trivial
  | .call _ .flush => isTrue trivial
  | .call _ (.setmtu _) => isTrue trivial
  | .call _ (.interval _) => isTrue trivial
  | .call _ (.nodelay _ _ _ _) => isTrue trivial
  | .call _ (.wndsize _ _) => isTrue trivial
  | .deliver _ _ => isTrue trivial
  | .stray _ _ => isTrue trivial

theorem SendsOk.of_forall {ok : Ikcpcb → Bytes → Prop} (h : ∀ kcp buffer, ok kcp buffer) (s : Net) (a : Action) :
    SendsOk ok s a := by
  unfold SendsOk
  split
  · exact h _ _
  · trivial

/-- Both endpoints, the wire and the messages with the histories `h` of the two directions. -/
structure Connected (K : Content) (c : UInt32) (mode : Int32) (h : Side → List Frag) (p : Side → Nat)
    (s : Net) : Prop where
  follows : ∀ x, (s.kcp x).Follows c (h x) (h x.peer) (p x)
  mode : ∀ x, (s.kcp x).stream = mode
  short : ∀ x, (h x).length < 2 ^ 31
  noLoss : ∀ x, ∀ i < (h x).length, (s.kcp x).sender.Outstanding i ∨ (s.kcp x.peer).receiver.Got i
  wire : ∀ x, ∀ d ∈ s.wire x, Packed (Good c (h x) (s.kcp x).receiver.Got) d
  content : ∀ x, K (pending (h x) (p x.peer) (s.kcp x)) (s.accepted x) (s.delivered x.peer)

/-! ## Sending and receiving at one endpoint -/

namespace Ikcpcb.Follows

variable {c : UInt32} {h hin : List Frag} {p : Nat} {kcp : Ikcpcb} (got : Nat → Prop)

/-- Segments may be queued when a header can describe them. -/
theorem enqueue {k : Ikcpcb} (hf : kcp.Follows c h hin p) (hordered : k.Ordered) {queue : List Seg}
    {nque : UInt32} (hview : k.view = { kcp.view with sender := { kcp.sender with queue := queue, nque := nque } })
    (hsmall : ∀ seg ∈ queue, seg.frag.Small) : k.Follows c h hin p := by
  have hsender : k.sender = { kcp.sender with queue := queue, nque := nque } := congrArg View.sender hview
  have hreceiver : k.receiver = kcp.receiver := congrArg View.receiver hview
  have hacks : k.acklist = kcp.acklist := congrArg View.acks hview
  have hconv : k.conv = kcp.conv := congrArg View.conv hview
  exact {
    ordered := hordered
    conv := hconv.trans hf.conv
    sent := by
      rw [hsender]
      exact ⟨hf.sent.nxt, hf.sent.buf, hf.sent.history, hsmall⟩
    received := hreceiver ▸ hf.received
    acks := by
      rw [hacks, hreceiver]
      exact hf.acks }

theorem mss_lt (kcp : Ikcpcb) : kcp.mss < 2 ^ 31 := by
  have := kcp.mtu.lt
  unfold Ikcpcb.mss
  omega

theorem small_fragment {stream : Int32} {mss : Nat} (hmss : mss < 2 ^ 31) {n : Nat} (hn : n ≤ 2 ^ 7)
    (buffer : Bytes) : ∀ seg ∈ fragment stream mss n buffer, seg.frag.Small := by
  induction n generalizing buffer with
  | zero => exact fun seg hseg => absurd hseg List.not_mem_nil
  | succ n ih =>
      rw [fragment, List.forall_mem_cons]
      refine ⟨⟨?_, ?_⟩, ih (by omega) _⟩
      · show (if stream = 0 then UInt32.ofNat n else 0).toNat < 2 ^ 8
        split
        · rw [UInt32.toNat_ofNat_of_lt' (by rw [UInt32.size]; omega)]
          omega
        · exact Nat.two_pow_pos 8
      · show (buffer.take mss).length < 2 ^ 31
        rw [List.length_take]
        omega

theorem sendRest (hf : kcp.Follows c h hin p) (buffer : Bytes) :
    (sendRest kcp buffer).1.Follows c h hin p := by
  have hordered := hf.ordered.sendRest buffer
  unfold Kcp.sendRest at hordered ⊢
  dsimp only at hordered ⊢
  by_cases hcount : fragmentCount kcp.mss buffer.length ≥ wndRcv.toNat
  · rw [if_pos hcount]
    exact hf
  · rw [if_neg hcount] at hordered ⊢
    refine hf.enqueue hordered rfl fun seg hseg => ?_
    rcases List.mem_append.1 hseg with hold | hnew
    · exact hf.sent.queue seg hold
    · have hle : fragmentCount kcp.mss buffer.length ≤ 2 ^ 7 := Nat.le_of_not_le hcount
      exact small_fragment (mss_lt kcp) hle _ seg hnew

theorem small_appendStream {mss : Nat} (hmss : mss < 2 ^ 31) {queue : List Seg}
    (hqueue : ∀ seg ∈ queue, seg.frag.Small) (buffer : Bytes) :
    ∀ seg ∈ (appendStream mss queue buffer).1, seg.frag.Small := by
  unfold appendStream
  cases queue.getLast? with
  | none => exact hqueue
  | some old =>
      dsimp only
      split
      · intro seg hseg
        rcases List.mem_append.1 hseg with hold | hnew
        · exact hqueue seg (List.mem_of_mem_dropLast hold)
        · rw [List.mem_singleton.1 hnew]
          refine ⟨Nat.two_pow_pos 8, ?_⟩
          show (old.data ++ buffer.take (min buffer.length (mss - old.len))).length < 2 ^ 31
          rename_i hroom
          rw [Seg.len] at hroom ⊢
          rw [List.length_append, List.length_take]
          omega
      · exact hqueue

theorem send (hf : kcp.Follows c h hin p) (buffer : Bytes) (len : Int) :
    (send kcp buffer len).1.Follows c h hin p := by
  unfold Kcp.send
  split
  · exact hf
  · dsimp only
    split
    · have hqueued : ({ kcp with sndQueue :=
          (appendStream kcp.mss kcp.sndQueue (buffer.take len.toNat)).1 } : Ikcpcb).Follows c h hin p := by
        have hnque : kcp.nsndQue = UInt32.ofNat kcp.sndQueue.length := hf.ordered.sender.nque
        refine hf.enqueue ⟨?_, hf.ordered.settled, hf.ordered.receiver⟩ rfl
          (small_appendStream (mss_lt kcp) hf.sent.queue _)
        exact {
          nbuf := hf.ordered.sender.nbuf
          nque := hnque.trans (congrArg UInt32.ofNat (Ikcpcb.Ordered.length_appendStream _ _ _).symm)
          wnd := hf.ordered.sender.wnd
          rmtWnd := hf.ordered.sender.rmtWnd
          inflight := hf.ordered.sender.inflight
          numbers := hf.ordered.sender.numbers
          sorted := hf.ordered.sender.sorted }
      split
      · exact hqueued
      · exact hqueued.sendRest _
    · exact hf.sendRest _

/-- Reading takes the first fragments off what was received. -/
theorem drop (hf : kcp.Follows c h hin p) :
    (dropMessage kcp).Follows c h hin (p + (takeMessage kcp.rcvQueue).1.length) := by
  have happend := Ikcpcb.Ordered.takeMessage_append kcp.rcvQueue
  have hlength := congrArg List.length happend
  rw [List.length_append] at hlength
  have htaken : p + kcp.rcvQueue.length = kcp.rcvNxt.toNat := hf.received.taken
  have hqueue : kcp.rcvQueue.map Seg.frag = (hin.take kcp.rcvNxt.toNat).drop p := hf.received.queue
  exact {
    ordered := hf.ordered.dropMessage
    conv := hf.conv
    sent := hf.sent
    received := {
      nxt := hf.received.nxt
      taken := by
        show p + _ + (takeMessage kcp.rcvQueue).2.length = kcp.rcvNxt.toNat
        omega
      queue := by
        show (takeMessage kcp.rcvQueue).2.map Seg.frag = (hin.take kcp.rcvNxt.toNat).drop _
        have hmap := congrArg (List.map Seg.frag) happend
        rw [List.map_append, hqueue] at hmap
        rw [← List.drop_drop, ← hmap, List.drop_left' (List.length_map ..)]
      buf := hf.received.buf }
    acks := hf.acks }

theorem recv (hf : kcp.Follows c h hin p) (hshort : hin.length < 2 ^ 31) (len : Int) :
    (recv kcp len).1.Follows c h hin (p + readCount kcp len) ∧ Advance got kcp (recv kcp len).1 := by
  have hmove : ∀ (k : Ikcpcb) (recover : Bool) (q : Nat), k.Follows c h hin q → Advance got kcp k →
      (fastRecover recover (Kcp.moveAvailable k.rcvBuf k)).Follows c h hin q ∧
        Advance got kcp (fastRecover recover (Kcp.moveAvailable k.rcvBuf k)) := by
    intro k recover q hk hadvance
    obtain ⟨hholds, hmore⟩ := hk.toHolds.moveAvailable got hshort
    have hacks : (Kcp.moveAvailable k.rcvBuf k).acklist = k.acklist :=
      congrArg View.acks (view_moveAvailable k)
    have hfollows : (Kcp.moveAvailable k.rcvBuf k).Follows c h hin q := by
      refine ⟨hholds, fun ack hack => hmore.received _ (hk.acks ack ?_)⟩
      rwa [hacks] at hack
    have hview := view_fastRecover (Kcp.moveAvailable k.rcvBuf k) recover
    exact ⟨hfollows.of_view hview, (hadvance.trans hmore).trans (advance_of_view got hview)⟩
  rcases recv_cases kcp len with ⟨rc, hneg, heq⟩ | ⟨-, -, -, heq⟩
  · have hcount : readCount kcp len = 0 := by
      rw [readCount, heq, if_neg (fun h => absurd h.1 (not_le.2 hneg))]
    rw [hcount, heq]
    exact ⟨hf, Advance.refl got kcp⟩
  · rw [heq]
    unfold recvMessage
    dsimp only
    by_cases hpeek : len < 0
    · have hcount : readCount kcp len = 0 := if_neg fun h => absurd h.2 (not_le.2 hpeek)
      rw [hcount, if_pos hpeek]
      exact hmove kcp _ p hf (Advance.refl got kcp)
    · have hcount : readCount kcp len = (takeMessage kcp.rcvQueue).1.length := by
        rw [readCount, heq]
        exact if_pos ⟨Int.natCast_nonneg _, not_lt.1 hpeek⟩
      rw [hcount, if_neg hpeek]
      exact hmove (dropMessage kcp) _ _ hf.drop ⟨fun _ hi => hi, fun _ hi => Or.inl hi, rfl, rfl, le_rfl⟩

/-- The other side may send more. -/
theorem more {hin' : List Frag} (hf : kcp.Follows c h hin p) (hmore : hin <+: hin') :
    kcp.Follows c h hin' p := by
  obtain ⟨new, rfl⟩ := hmore
  have hr := hf.received
  have hnxt := hr.nxt
  exact {
    ordered := hf.ordered
    conv := hf.conv
    sent := hf.sent
    received := {
      nxt := by
        rw [List.length_append]
        omega
      taken := hr.taken
      queue := by
        rw [List.take_append_of_le_length hnxt]
        exact hr.queue
      buf := by
        intro seg hseg
        obtain ⟨hle, hfrag⟩ := hr.buf seg hseg
        obtain ⟨hlt, -⟩ := List.getElem?_eq_some_iff.1 hfrag
        rw [List.getElem?_append_left hlt]
        exact ⟨hle, hfrag⟩ }
    acks := hf.acks }

/-- Settings leave the queues and the numbers alone. -/
theorem retune {k : Ikcpcb} (hf : kcp.Follows c h hin p) (hordered : k.Ordered) {mtu : Mtu} {sndwnd rcvwnd : UInt32}
    (hview : k.view = { kcp.view with
      mtu := mtu
      sender := { kcp.sender with wnd := sndwnd }
      receiver := { kcp.receiver with wnd := rcvwnd } }) :
    k.Follows c h hin p ∧ Advance got kcp k := by
  have hsender : k.sender = { kcp.sender with wnd := sndwnd } := congrArg View.sender hview
  have hreceiver : k.receiver = { kcp.receiver with wnd := rcvwnd } := congrArg View.receiver hview
  have hacks : k.acklist = kcp.acklist := congrArg View.acks hview
  have hconv : k.conv = kcp.conv := congrArg View.conv hview
  have hgot : ∀ i, kcp.receiver.Got i → k.receiver.Got i := by
    intro i hi
    rw [hreceiver]
    exact hi
  constructor
  · exact {
      ordered := hordered
      conv := hconv.trans hf.conv
      sent := by
        rw [hsender]
        exact ⟨hf.sent.nxt, hf.sent.buf, hf.sent.history, hf.sent.queue⟩
      received := by
        rw [hreceiver]
        exact ⟨hf.received.nxt, hf.received.taken, hf.received.queue, hf.received.buf⟩
      acks := by
        rw [hacks]
        exact fun ack hack => hgot _ (hf.acks ack hack) }
  · exact {
      received := hgot
      kept := by
        intro i hi
        rw [hsender]
        exact Or.inl hi
      queue := congrArg Sender.queue hsender
      stream := congrArg View.stream hview
      next := Nat.le_of_eq (congrArg (fun r => r.nxt.toNat) hreceiver.symm) }

/-- What was received and not read is a front part of what is on its way. -/
theorem pending_eq (hf : kcp.Follows c h hin p) (other : Ikcpcb) :
    pending hin p other =
      kcp.rcvQueue.map Seg.frag ++ (hin.drop kcp.rcvNxt.toNat ++ other.sndQueue.map Seg.frag) := by
  have hqueue : kcp.rcvQueue.map Seg.frag = (hin.take kcp.rcvNxt.toNat).drop p := hf.received.queue
  have htaken : p + kcp.rcvQueue.length = kcp.rcvNxt.toNat := hf.received.taken
  have hnxt : kcp.rcvNxt.toNat ≤ hin.length := hf.received.nxt
  have hlength : p ≤ (hin.take kcp.rcvNxt.toNat).length := by
    rw [List.length_take]
    omega
  rw [pending, hqueue, ← List.append_assoc, ← List.drop_append_of_le_length hlength, List.take_append_drop]

theorem readCount_le (kcp : Ikcpcb) (len : Int) : readCount kcp len ≤ kcp.rcvQueue.length := by
  have hlength := congrArg List.length (Ikcpcb.Ordered.takeMessage_append kcp.rcvQueue)
  rw [List.length_append] at hlength
  unfold readCount
  split <;> omega

theorem pending_read (hf : kcp.Follows c h hin p) (other : Ikcpcb) {n : Nat} (hn : n ≤ kcp.rcvQueue.length) :
    pending hin (p + n) other = (pending hin p other).drop n := by
  have htaken : p + kcp.rcvQueue.length = kcp.rcvNxt.toNat := hf.received.taken
  have hnxt : kcp.rcvNxt.toNat ≤ hin.length := hf.received.nxt
  have hlength : n ≤ (hin.drop p).length := by
    rw [List.length_drop]
    omega
  rw [pending, pending, List.drop_append_of_le_length hlength, List.drop_drop]

end Ikcpcb.Follows

/-! ## One step of the two endpoints -/

namespace Connected

variable {K : Content} {c : UInt32} {mode : Int32} {h : Side → List Frag} {p : Side → Nat} {s t : Net}
  {x : Side}

theorem start (hK : K [] [] []) (c : UInt32) (mode : Int32) :
    Connected K c mode (fun _ => []) (fun _ => 0) (start c fun _ => mode) where
  follows := fun x => {
    ordered := by
      have hcreated := Ikcpcb.Ordered.created c
      exact ⟨hcreated.sender, hcreated.settled, hcreated.receiver⟩
    conv := rfl
    sent := {
      nxt := rfl
      buf := fun seg hseg => absurd hseg List.not_mem_nil
      history := fun f hf => absurd hf List.not_mem_nil
      queue := fun seg hseg => absurd hseg List.not_mem_nil }
    received := {
      nxt := Nat.le_refl 0
      taken := rfl
      queue := rfl
      buf := fun seg hseg => absurd hseg List.not_mem_nil }
    acks := fun ack hack => absurd hack List.not_mem_nil }
  mode := fun _ => rfl
  short := fun _ => Nat.two_pow_pos 31
  noLoss := fun _ i hi => absurd hi (Nat.not_lt_zero i)
  wire := fun _ d hd => absurd hd List.not_mem_nil
  content := fun _ => hK

/-- One side changes: what it sends continues its history, what it got it keeps, and what it no longer keeps
for sending is got by the other side. -/
theorem update (hs : Connected K c mode h p s) {k : Ikcpcb} {hx : List Frag} {px : Nat}
    {ds acc del : List Bytes} (hfollows : k.Follows c hx (h x.peer) px) (hmode : k.stream = mode)
    (hshort : hx.length < 2 ^ 31) (hmore : h x <+: hx)
    (hgot : ∀ i, (s.kcp x).receiver.Got i → k.receiver.Got i)
    (hkept : ∀ i < hx.length, (s.kcp x).sender.Outstanding i ∨ (h x).length ≤ i →
      k.sender.Outstanding i ∨ (s.kcp x.peer).receiver.Got i)
    (hwire : ∀ d ∈ ds, Packed (Good c hx k.receiver.Got) d)
    (hsent : K (pending hx (p x.peer) k) (s.accepted x ++ acc) (s.delivered x.peer))
    (hread : K (pending (h x.peer) px (s.kcp x.peer)) (s.accepted x.peer) (s.delivered x ++ del)) :
    Connected K c mode (Function.update h x hx) (Function.update p x px)
      { kcp := Function.update s.kcp x k
        wire := Function.update s.wire x (s.wire x ++ ds)
        accepted := Function.update s.accepted x (s.accepted x ++ acc)
        delivered := Function.update s.delivered x (s.delivered x ++ del) } := by
  have hne := x.peer_ne
  -- what holds of `x` and of the other side holds of both
  have both : ∀ {Q : Side → Prop}, Q x → Q x.peer → ∀ y, Q y := by
    intro Q h1 h2 y
    by_cases hy : y = x
    · rw [hy]
      exact h1
    · rw [Side.eq_peer_of_ne hy]
      exact h2
  constructor
  · refine both ?_ ?_
    · simpa [hne] using hfollows
    · have hmore' : h x.peer.peer <+: hx := by
        rwa [Side.peer_peer]
      simpa [hne] using (hs.follows x.peer).more hmore'
  · refine both ?_ ?_
    · simpa using hmode
    · simpa [hne] using hs.mode x.peer
  · refine both ?_ ?_
    · simpa using hshort
    · simpa [hne] using hs.short x.peer
  · refine both ?_ ?_
    · simp only [Function.update_self, Function.update_of_ne hne]
      intro i hi
      by_cases hold : i < (h x).length
      · rcases hs.noLoss x i hold with hout | hin
        · exact hkept i hi (Or.inl hout)
        · exact Or.inr hin
      · exact hkept i hi (Or.inr (Nat.le_of_not_lt hold))
    · simp only [Function.update_of_ne hne, Side.peer_peer, Function.update_self]
      intro i hi
      have hold := hs.noLoss x.peer i hi
      rw [Side.peer_peer] at hold
      exact hold.imp_right (hgot i)
  · refine both ?_ ?_
    · simp only [Function.update_self]
      intro d hd
      rcases List.mem_append.1 hd with hold | hnew
      · exact (hs.wire x d hold).mono fun seg hseg => hseg.mono hmore hgot
      · exact hwire d hnew
    · simpa only [Function.update_of_ne hne] using hs.wire x.peer
  · refine both ?_ ?_
    · simpa only [Function.update_self, Function.update_of_ne hne] using hsent
    · simpa only [Function.update_self, Function.update_of_ne hne, Side.peer_peer] using hread

/-- A change at one side that sends nothing new and reads nothing. -/
theorem quiet (hs : Connected K c mode h p s) {k : Ikcpcb}
    (hfollows : k.Follows c (h x) (h x.peer) (p x))
    (hadvance : Advance (s.kcp x.peer).receiver.Got (s.kcp x) k) :
    Connected K c mode h p { s with kcp := Function.update s.kcp x k } := by
  have hsent : K (pending (h x) (p x.peer) k) (s.accepted x ++ []) (s.delivered x.peer) := by
    have hcontent := hs.content x
    rw [pending, ← hadvance.queue] at hcontent
    rw [List.append_nil]
    exact hcontent
  have hread : K (pending (h x.peer) (p x) (s.kcp x.peer)) (s.accepted x.peer) (s.delivered x ++ []) := by
    have hcontent := hs.content x.peer
    rw [Side.peer_peer] at hcontent
    rw [List.append_nil]
    exact hcontent
  have hnone : ∀ d ∈ ([] : List Bytes), Packed (Good c (h x) k.receiver.Got) d :=
    fun d hd => absurd hd List.not_mem_nil
  have hupdate := hs.update hfollows (hadvance.stream.trans (hs.mode x)) (hs.short x)
    (List.prefix_refl _) hadvance.received
    (fun i hi hout => hadvance.kept i (hout.resolve_right (Nat.not_le_of_lt hi))) hnone hsent hread
  simpa using hupdate

theorem deliver (hs : Connected K c mode h p s) {d : Bytes} (hd : d ∈ s.wire x.peer) :
    Connected K c mode h p (s.arrive x d) := by
  have hgood := hs.wire x.peer d hd
  obtain ⟨hfollows, hadvance, -⟩ := (hs.follows x).input _ (hs.short x) (hs.short x.peer) hgood
  exact hs.quiet hfollows hadvance

theorem stray (hs : Connected K c mode h p s) {d : Bytes}
    (hd : d.length < overhead ∨ getconv d ≠ (s.kcp x).conv) : Connected K c mode h p (s.arrive x d) := by
  rw [Net.arrive, input_stray hd, Function.update_eq_self]
  exact hs

/-- A flush by itself or by the clock. -/
theorem flushed (hs : Connected K c mode h p s) {r : Ikcpcb × List Bytes} {moved : List Seg}
    (hroom : (s.kcp x).sndNxt.toNat + 2 ^ 16 ≤ 2 ^ 31)
    (hf : Ikcpcb.Follows.Flushed c (h x) (h x.peer) (p x) (s.kcp x) r moved) :
    Connected K c mode (Function.update h x (h x ++ moved.map Seg.frag)) (Function.update p x (p x))
      { kcp := Function.update s.kcp x r.1
        wire := Function.update s.wire x (s.wire x ++ r.2)
        accepted := Function.update s.accepted x (s.accepted x ++ [])
        delivered := Function.update s.delivered x (s.delivered x ++ []) } := by
  have hnxt : (s.kcp x).sndNxt.toNat = (h x).length := (hs.follows x).sent.nxt
  have hfew := hf.few
  have hread : p x.peer ≤ (h x).length := by
    have hpeer := (hs.follows x.peer).received
    rw [Side.peer_peer] at hpeer
    have htaken := hpeer.taken
    have hle := hpeer.nxt
    omega
  apply hs.update hf.follows (hf.stream.trans (hs.mode x))
  · rw [List.length_append, List.length_map]
    omega
  · exact List.prefix_append _ _
  · rw [hf.receiver]
    exact fun _ hi => hi
  · intro i hi hout
    rw [List.length_append, List.length_map] at hi
    exact Or.inl (hf.kept i (hout.imp_right fun hle => ⟨hle, hi⟩))
  · rw [hf.receiver]
    exact hf.datagrams
  · have hcontent := hs.content x
    rw [pending, hf.queue, List.map_append, ← List.append_assoc,
      ← List.drop_append_of_le_length hread] at hcontent
    rw [List.append_nil]
    exact hcontent
  · have hcontent := hs.content x.peer
    rw [Side.peer_peer] at hcontent
    rw [List.append_nil]
    exact hcontent

theorem send (hs : Connected K c mode h p s) {ok : Ikcpcb → Bytes → Prop} (hK : Keeps K mode ok)
    {buffer : Bytes} (hok : ok (s.kcp x) buffer) :
    Connected K c mode (Function.update h x (h x)) (Function.update p x (p x))
      (s.call x (.send buffer)) := by
  obtain ⟨queue, nque, hview⟩ := view_send (s.kcp x) buffer buffer.length
  have hsender : (Kcp.send (s.kcp x) buffer buffer.length).1.sender =
      { (s.kcp x).sender with queue := queue, nque := nque } := congrArg View.sender hview
  have hreceiver : (Kcp.send (s.kcp x) buffer buffer.length).1.receiver = (s.kcp x).receiver :=
    congrArg View.receiver hview
  have hstream : (Kcp.send (s.kcp x) buffer buffer.length).1.stream = (s.kcp x).stream :=
    congrArg View.stream hview
  apply hs.update ((hs.follows x).send buffer _) (hstream.trans (hs.mode x)) (hs.short x)
    (List.prefix_refl _)
  · rw [hreceiver]
    exact fun _ hi => hi
  · intro i hi hout
    rw [hsender]
    exact Or.inl (hout.resolve_right (Nat.not_le_of_lt hi))
  · exact fun d hd => absurd hd List.not_mem_nil
  · exact hK.send (s.kcp x) ((h x).drop (p x.peer)) buffer _ _ (hs.mode x) hok (hs.content x)
  · have hcontent := hs.content x.peer
    rw [Side.peer_peer] at hcontent
    exact (List.append_nil (s.delivered x)).symm ▸ hcontent

theorem recv (hs : Connected K c mode h p s) {ok : Ikcpcb → Bytes → Prop} (hK : Keeps K mode ok) (len : Int) :
    Connected K c mode (Function.update h x (h x)) (Function.update p x (p x + readCount (s.kcp x) len))
      (s.call x (.recv len)) := by
  have hf := hs.follows x
  obtain ⟨hfollows, hadvance⟩ := hf.recv (s.kcp x.peer).receiver.Got (hs.short x.peer) len
  apply hs.update hfollows (hadvance.stream.trans (hs.mode x)) (hs.short x) (List.prefix_refl _)
    hadvance.received
  · exact fun i hi hout => hadvance.kept i (hout.resolve_right (Nat.not_le_of_lt hi))
  · exact fun d hd => absurd hd List.not_mem_nil
  · have hcontent := hs.content x
    rw [pending, ← hadvance.queue] at hcontent
    exact (List.append_nil (s.accepted x)).symm ▸ hcontent
  · have hcontent := hs.content x.peer
    rw [Side.peer_peer] at hcontent
    rw [hf.pending_read (s.kcp x.peer) (Ikcpcb.Follows.readCount_le _ _)]
    rw [hf.pending_eq (s.kcp x.peer)] at hcontent ⊢
    exact hK.recv (s.kcp x) _ len _ _ hf.ordered.receiver hcontent

theorem settings (hs : Connected K c mode h p s) {k : Ikcpcb} (mtu : Mtu) (sndwnd rcvwnd : UInt32)
    (hordered : k.Ordered)
    (hview : k.view = { (s.kcp x).view with
      mtu := mtu
      sender := { (s.kcp x).sender with wnd := sndwnd }
      receiver := { (s.kcp x).receiver with wnd := rcvwnd } }) :
    Connected K c mode h p { s with kcp := Function.update s.kcp x k } := by
  obtain ⟨hfollows, hadvance⟩ :=
    (hs.follows x).retune (s.kcp x.peer).receiver.Got hordered hview
  exact hs.quiet hfollows hadvance

/-- Every call keeps the two endpoints connected, with histories that may have grown. -/
theorem call (hs : Connected K c mode h p s) {ok : Ikcpcb → Bytes → Prop} (hK : Keeps K mode ok) (call : Call)
    (hfew : ∀ y, (s.kcp y).sndNxt.toNat + 2 ^ 16 ≤ 2 ^ 31)
    (hok : ∀ buffer, call = .send buffer → ok (s.kcp x) buffer) :
    ∃ h' p', Connected K c mode h' p' (s.call x call) := by
  have hquiet : ∀ k : Ikcpcb, Connected K c mode h p { s with kcp := Function.update s.kcp x k } →
      Connected K c mode h p
        { kcp := Function.update s.kcp x k
          wire := Function.update s.wire x (s.wire x ++ [])
          accepted := Function.update s.accepted x (s.accepted x ++ [])
          delivered := Function.update s.delivered x (s.delivered x ++ []) } := by
    intro k hk
    simpa using hk
  have hf := hs.follows x
  cases call with
  | send buffer => exact ⟨_, _, hs.send hK (hok buffer rfl)⟩
  | recv len => exact ⟨_, _, hs.recv hK len⟩
  | update current =>
      obtain ⟨moved, hflushed⟩ := hf.update (hs.short x) (hs.short x.peer) current
      exact ⟨_, _, hs.flushed (hfew x) hflushed⟩
  | flush =>
      obtain ⟨moved, hflushed⟩ := hf.flush (hs.short x) (hs.short x.peer)
      exact ⟨_, _, hs.flushed (hfew x) hflushed⟩
  | setmtu mtu =>
      have hview : ∃ m, (setmtu (s.kcp x) mtu).1.view = { (s.kcp x).view with
          mtu := m
          sender := { (s.kcp x).sender with wnd := (s.kcp x).sndWnd }
          receiver := { (s.kcp x).receiver with wnd := (s.kcp x).rcvWnd } } := by
        unfold setmtu
        split
        · exact ⟨_, rfl⟩
        · exact ⟨(s.kcp x).mtu, rfl⟩
      obtain ⟨m, hview⟩ := hview
      exact ⟨h, p, hquiet _ (hs.settings m _ _ (hf.ordered.setmtu mtu) hview)⟩
  | interval interval =>
      exact ⟨h, p, hquiet _ (hs.settings (s.kcp x).mtu (s.kcp x).sndWnd (s.kcp x).rcvWnd
        (hf.ordered.of_view (view_setInterval _ interval)) rfl)⟩
  | nodelay nodelay interval resend nc =>
      exact ⟨h, p, hquiet _ (hs.settings (s.kcp x).mtu (s.kcp x).sndWnd (s.kcp x).rcvWnd
        (hf.ordered.of_view (view_setNodelay _ nodelay interval resend nc)) rfl)⟩
  | wndsize sndwnd rcvwnd =>
      exact ⟨h, p, hquiet _ (hs.settings (s.kcp x).mtu (wndsize (s.kcp x) sndwnd rcvwnd).sndWnd _
        (hf.ordered.wndsize sndwnd rcvwnd) rfl)⟩

/-- So does every step. -/
theorem step (hs : Connected K c mode h p s) {ok : Ikcpcb → Bytes → Prop} (hK : Keeps K mode ok) {a : Action}
    (hfew : Few s a) (hok : SendsOk ok s a) (hstep : step s a = some t) :
    ∃ h' p', Connected K c mode h' p' t := by
  obtain ⟨x, call, rfl, rfl⟩ | ⟨x, d, hd, rfl⟩ | ⟨x, d, hstray, rfl⟩ := step_cases hstep
  · refine hs.call hK call hfew fun buffer hcall => ?_
    rw [hcall] at hok
    exact hok
  · exact ⟨h, p, hs.deliver hd⟩
  · exact ⟨h, p, hs.stray hstray⟩

end Connected

end CppMisc.Kcp
