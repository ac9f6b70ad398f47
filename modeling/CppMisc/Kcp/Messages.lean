import CppMisc.Kcp.Delivery

/-!
# Messages and byte streams

In message mode a message is cut into fragments whose numbers count down to 0, and `Cut` is this relation.
The fragments on their way are the cut ones of the messages that were accepted and not delivered
(`Messages`), so that `ikcp_recv` hands out whole messages, each of them once and in the order in which
`ikcp_send` took them.

In stream mode every fragment has the number 0 and only the bytes count (`Stream`).
-/

set_option autoImplicit false

namespace CppMisc.Kcp

open CppMisc.Library

/-! ## Messages in fragments -/

/-- The fragments of one message. -/
inductive Cut : List Frag → Bytes → Prop where
  | last (data : Bytes) : Cut [⟨0, data⟩] data
  | more {n : UInt32} {data msg : Bytes} {frags : List Frag} (hn : n.toNat < 2 ^ 7)
      (hlength : frags.length = n.toNat) (h : Cut frags msg) : Cut (⟨n, data⟩ :: frags) (data ++ msg)

/-- The fragments of several messages. -/
inductive Framed : List Frag → List Bytes → Prop where
  | nil : Framed [] []
  | cons {part rest : List Frag} {msg : Bytes} {msgs : List Bytes} (h : Cut part msg)
      (hrest : Framed rest msgs) : Framed (part ++ rest) (msg :: msgs)

theorem Cut.ne_nil {frags : List Frag} {msg : Bytes} (h : Cut frags msg) : frags ≠ [] := by
  cases h <;> exact List.cons_ne_nil _ _

/-- The first fragment tells how many there are. -/
theorem Cut.length_eq {f : Frag} {frags : List Frag} {msg : Bytes} (h : Cut (f :: frags) msg) :
    frags.length = f.frg.toNat ∧ f.frg.toNat < 2 ^ 7 := by
  cases h with
  | last data => exact ⟨rfl, Nat.two_pow_pos 7⟩
  | more hn hlength _ => exact ⟨hlength, hn⟩

theorem Cut.flatMap_data {frags : List Frag} {msg : Bytes} (h : Cut frags msg) :
    frags.flatMap Frag.data = msg := by
  induction h with
  | last data => simp
  | more _ _ _ ih => rw [List.flatMap_cons, ih]

theorem Framed.snoc {frags part : List Frag} {msgs : List Bytes} {msg : Bytes} (h : Framed frags msgs)
    (hpart : Cut part msg) : Framed (frags ++ part) (msgs ++ [msg]) := by
  induction h with
  | nil =>
      have hone := Framed.cons hpart Framed.nil
      rwa [List.append_nil] at hone
  | cons hfirst _ ih =>
      rw [List.append_assoc]
      exact Framed.cons hfirst ih

/-- `ikcp_recv` finds the end of the first message. -/
theorem takeMessage_cut {part more : List Frag} {msg : Bytes} (h : Cut part msg) {queue : List Seg}
    (hqueue : queue.map Seg.frag = part ++ more) : (takeMessage queue).1.map Seg.frag = part := by
  induction h generalizing queue with
  | last data =>
      cases queue with
      | nil => cases hqueue
      | cons seg rest =>
          obtain ⟨hseg, -⟩ := List.cons.inj hqueue
          have hfrg : seg.frg = 0 := congrArg Frag.frg hseg
          rw [takeMessage, if_pos hfrg, List.map_singleton, hseg]
  | more _ hlength hcut ih =>
      cases queue with
      | nil => cases hqueue
      | cons seg rest =>
          obtain ⟨hseg, hrest⟩ := List.cons.inj hqueue
          have hfrg : seg.frg ≠ 0 := by
            intro hzero
            have hfirst := congrArg Frag.frg hseg
            have hpos := List.length_pos_iff.2 hcut.ne_nil
            dsimp only [Seg.frag] at hfirst
            rw [hlength, ← hfirst, hzero] at hpos
            exact absurd hpos (by decide)
          rw [takeMessage, if_neg hfrg, List.map_cons, hseg, ih hrest]

theorem flatMap_frag (segs : List Seg) : (segs.map Seg.frag).flatMap Frag.data = segs.flatMap Seg.data := by
  rw [List.flatMap_map]
  rfl

/-- The loop of `ikcp_send` cuts a message, when there are enough rounds for it. -/
theorem cut_fragment (mss : Nat) : ∀ (n : Nat) (buffer : Bytes), n < 2 ^ 7 →
    buffer.length ≤ (n + 1) * mss → Cut ((fragment 0 mss (n + 1) buffer).map Seg.frag) buffer := by
  intro n
  induction n with
  | zero =>
      intro buffer _ hlength
      have hall : buffer.take mss = buffer := List.take_of_length_le (by omega)
      have hfragment : (fragment 0 mss (0 + 1) buffer).map Seg.frag = [⟨0, buffer⟩] := by
        rw [fragment, fragment, List.map_singleton, hall]
        rfl
      rw [hfragment]
      exact Cut.last buffer
  | succ n ih =>
      intro buffer hn hlength
      have hnumber : (UInt32.ofNat (n + 1)).toNat = n + 1 :=
        UInt32.toNat_ofNat_of_lt' (by rw [UInt32.size]; omega)
      have hrest := ih (buffer.drop mss) (by omega) (by
        rw [List.length_drop]
        have : (n + 1 + 1) * mss = (n + 1) * mss + mss := Nat.succ_mul _ _
        omega)
      have hcut : Cut (⟨UInt32.ofNat (n + 1), buffer.take mss⟩ ::
          (fragment 0 mss (n + 1) (buffer.drop mss)).map Seg.frag) (buffer.take mss ++ buffer.drop mss) := by
        refine Cut.more (by omega) ?_ hrest
        rw [List.length_map, Ikcpcb.Ordered.length_fragment, hnumber]
      rw [List.take_append_drop] at hcut
      rw [fragment, List.map_cons]
      exact hcut

theorem mss_pos (kcp : Ikcpcb) : 0 < kcp.mss := by
  have := kcp.mtu.ge
  unfold Ikcpcb.mss overhead
  omega

/-- The number of fragments is enough, and at least one. -/
theorem fragmentCount_spec {mss : Nat} (hmss : 0 < mss) (len : Nat) :
    0 < fragmentCount mss len ∧ len ≤ fragmentCount mss len * mss := by
  unfold fragmentCount
  split
  · omega
  · rename_i hlong
    have hdiv := Nat.div_add_mod (len + mss - 1) mss
    have hmod := Nat.mod_lt (len + mss - 1) hmss
    have hcomm : mss * ((len + mss - 1) / mss) = (len + mss - 1) / mss * mss := Nat.mul_comm _ _
    refine ⟨Nat.div_pos (by omega) hmss, by omega⟩

/-! ## Message mode -/

/-- The fragments on their way are those of the accepted messages that are not delivered. -/
def Messages : Content := fun frags acc del => ∃ rest, acc = del ++ rest ∧ Framed frags rest

theorem send_of_message {kcp : Ikcpcb} (hmode : kcp.stream = 0) (buffer : Bytes) :
    send kcp buffer buffer.length = sendRest kcp buffer := by
  have hneg : ¬ ((buffer.length : Int) < 0) := not_lt.2 (Int.natCast_nonneg _)
  rw [send, if_neg hneg, Int.toNat_natCast, List.take_length, hmode]
  rfl

/-- In message mode a call of `ikcp_send` queues the whole message or nothing. -/
theorem Messages.send {kcp : Ikcpcb} {front : List Frag} {buffer : Bytes} {acc del : List Bytes}
    (hmode : kcp.stream = 0) (h : Messages (front ++ kcp.sndQueue.map Seg.frag) acc del) :
    Messages (front ++ (kcp.call (.send buffer)).kcp.sndQueue.map Seg.frag)
      (acc ++ acceptedBy (.send buffer) (kcp.call (.send buffer))) del := by
  obtain ⟨rest, hacc, hframed⟩ := h
  have hcall : kcp.call (.send buffer) = ⟨(sendRest kcp buffer).1, (sendRest kcp buffer).2, [], []⟩ := by
    rw [Ikcpcb.call, send_of_message hmode]
  rw [hcall]
  unfold sendRest
  dsimp only
  by_cases hcount : fragmentCount kcp.mss buffer.length ≥ wndRcv.toNat
  · rw [if_pos hcount]
    have hnone : acceptedBy (.send buffer) ⟨kcp, -2, [], []⟩ = [] := rfl
    rw [hnone, List.append_nil]
    exact ⟨rest, hacc, hframed⟩
  · rw [if_neg hcount]
    obtain ⟨hpos, hlen⟩ := fragmentCount_spec (mss_pos kcp) buffer.length
    obtain ⟨n, hn⟩ : ∃ n, fragmentCount kcp.mss buffer.length = n + 1 :=
      ⟨_, (Nat.sub_add_cancel hpos).symm⟩
    have hbound : wndRcv.toNat = 2 ^ 7 := rfl
    have hcut := cut_fragment kcp.mss n buffer (by omega) (hn ▸ hlen)
    refine ⟨rest ++ [buffer], ?_, ?_⟩
    · rw [hacc, List.append_assoc]
      rfl
    · rw [List.map_append, ← List.append_assoc, hn, hmode]
      exact hframed.snoc hcut

/-- `ikcp_peeksize` finds a message complete when the queue is as long as the first fragment says. -/
theorem peeksize_nonneg_iff {kcp : Ikcpcb} (hordered : kcp.receiver.Ordered) {seg : Seg} {segs : List Seg}
    (hqueue : kcp.rcvQueue = seg :: segs) (hfrg : seg.frg.toNat < 2 ^ 7) :
    0 ≤ peeksize kcp ↔ seg.frg.toNat + 1 ≤ kcp.rcvQueue.length := by
  have hnque : kcp.nrcvQue.toNat = kcp.rcvQueue.length := hordered.toNat_nque
  have hnext : (seg.frg + 1).toNat = seg.frg.toNat + 1 := toNat_add_one (by omega)
  rw [← hnque, ← hnext, ← UInt32.le_iff_toNat_le]
  unfold peeksize
  rw [hqueue]
  dsimp only
  by_cases hzero : seg.frg = 0
  · rw [if_pos hzero, UInt32.le_iff_toNat_le, hnext, hnque, hqueue, hzero, List.length_cons]
    exact iff_of_true (Int.natCast_nonneg _) (Nat.succ_le_succ (Nat.zero_le _))
  · rw [if_neg hzero]
    by_cases hshort : kcp.nrcvQue < seg.frg + 1
    · rw [if_pos hshort]
      exact iff_of_false (by decide) (UInt32.not_le.2 hshort)
    · rw [if_neg hshort]
      exact iff_of_true (Int.natCast_nonneg _) (UInt32.not_lt.1 hshort)

/-- The first message has as many fragments as its first one says. -/
theorem Cut.length_of_queue {kcp : Ikcpcb} {others part tail : List Frag} {msg : Bytes}
    (hordered : kcp.receiver.Ordered) (hempty : kcp.rcvQueue ≠ []) (h : Cut part msg)
    (hfrags : kcp.rcvQueue.map Seg.frag ++ others = part ++ tail) :
    (0 ≤ peeksize kcp ↔ part.length ≤ kcp.rcvQueue.length) ∧ part.length ≤ 2 ^ 7 := by
  cases hpart : part with
  | nil => exact absurd hpart h.ne_nil
  | cons f frags =>
      cases hq : kcp.rcvQueue with
      | nil => exact absurd hq hempty
      | cons seg segs =>
          rw [hpart] at h hfrags
          rw [hq] at hfrags
          obtain ⟨hlength, hlt⟩ := h.length_eq
          have hfrg : seg.frg = f.frg := congrArg Frag.frg (List.cons.inj hfrags).1
          have hiff := peeksize_nonneg_iff hordered hq (by rwa [hfrg])
          rw [List.length_cons, hlength, ← hfrg]
          rw [hq] at hiff
          refine ⟨hiff, ?_⟩
          rw [hfrg]
          omega

/-- A message that `ikcp_peeksize` finds complete is in the queue with all its fragments. -/
theorem Framed.complete {kcp : Ikcpcb} {others : List Frag} {msgs : List Bytes}
    (hordered : kcp.receiver.Ordered) (hempty : kcp.rcvQueue ≠ []) (hsize : 0 ≤ peeksize kcp)
    (h : Framed (kcp.rcvQueue.map Seg.frag ++ others) msgs) :
    ∃ part msg rest more, msgs = msg :: rest ∧ Cut part msg ∧
      kcp.rcvQueue.map Seg.frag = part ++ more ∧ Framed (more ++ others) rest := by
  generalize hfrags : kcp.rcvQueue.map Seg.frag ++ others = frags at h
  cases h with
  | nil =>
      exact absurd (List.map_eq_nil_iff.1 (List.append_eq_nil_iff.1 hfrags).1) hempty
  | cons hcut hrest =>
      rename_i part tail msg rest
      have hcount := (hcut.length_of_queue hordered hempty hfrags).1.1 hsize
      have hprefix : part <+: kcp.rcvQueue.map Seg.frag := by
        refine List.prefix_of_prefix_length_le (List.prefix_append part tail) ?_ ?_
        · rw [← hfrags]
          exact List.prefix_append _ _
        · rwa [List.length_map]
      obtain ⟨more, hmore⟩ := hprefix
      refine ⟨part, msg, rest, more, rfl, hcut, hmore.symm, ?_⟩
      rw [← hmore, List.append_assoc] at hfrags
      rw [List.append_cancel_left hfrags]
      exact hrest

/-- `ikcp_recv` hands out the next message. -/
theorem Messages.recv {kcp : Ikcpcb} {others : List Frag} {len : Int} {acc del : List Bytes}
    (hordered : kcp.receiver.Ordered) (h : Messages (kcp.rcvQueue.map Seg.frag ++ others) acc del) :
    Messages ((kcp.rcvQueue.map Seg.frag ++ others).drop (readCount kcp len)) acc
      (del ++ deliveredBy (.recv len) (kcp.call (.recv len))) := by
  unfold readCount deliveredBy Ikcpcb.call
  dsimp only
  by_cases hread : 0 ≤ (Kcp.recv kcp len).2.1 ∧ 0 ≤ len
  · rw [if_pos hread, if_pos hread]
    rcases recv_cases kcp len with ⟨rc, hneg, heq⟩ | ⟨hempty, hsize, -, heq⟩
    · rw [heq] at hread
      exact absurd hread.1 (not_le.2 hneg)
    · obtain ⟨rest, hacc, hframed⟩ := h
      obtain ⟨part, msg, msgs, more, rfl, hcut, hqueue, hmore⟩ := hframed.complete hordered hempty hsize
      have hfirst := takeMessage_cut hcut hqueue
      have hcount : (takeMessage kcp.rcvQueue).1.length = part.length := by
        rw [← hfirst, List.length_map]
      have hdata : firstMessage kcp = msg := by
        rw [firstMessage, ← flatMap_frag, hfirst, hcut.flatMap_data]
      rw [heq, hcount, hqueue, List.append_assoc, List.drop_left]
      refine ⟨msgs, ?_, hmore⟩
      show acc = del ++ [firstMessage kcp] ++ msgs
      rw [hdata, hacc, List.append_assoc]
      rfl
  · rw [if_neg hread, if_neg hread, List.append_nil]
    exact h

theorem Messages.keeps : Keeps Messages 0 fun _ _ => True where
  empty := ⟨[], rfl, Framed.nil⟩
  send := fun _ _ _ _ _ hmode _ h => Messages.send hmode h
  recv := fun _ _ _ _ _ hordered h => Messages.recv hordered h

/-! ## Stream mode -/

/-- The fragments on their way are all numbered 0, and hold the bytes that were accepted and not delivered. -/
def Stream : Content := fun frags acc del =>
  (∀ f ∈ frags, f.frg = 0) ∧ acc.flatten = del.flatten ++ frags.flatMap Frag.data

/-- The bytes that `ikcp_send` cuts are those that it was given. -/
theorem data_fragment (stream : Int32) {mss : Nat} : ∀ (n : Nat) (buffer : Bytes),
    buffer.length ≤ n * mss → (fragment stream mss n buffer).flatMap Seg.data = buffer := by
  intro n
  induction n with
  | zero =>
      intro buffer hlength
      rw [Nat.zero_mul, Nat.le_zero] at hlength
      rw [List.length_eq_zero_iff.1 hlength]
      rfl
  | succ n ih =>
      intro buffer hlength
      have hrest : (buffer.drop mss).length ≤ n * mss := by
        have : (n + 1) * mss = n * mss + mss := Nat.succ_mul _ _
        rw [List.length_drop]
        omega
      calc (fragment stream mss (n + 1) buffer).flatMap Seg.data
          = buffer.take mss ++ (fragment stream mss n (buffer.drop mss)).flatMap Seg.data := by
            rw [fragment, List.flatMap_cons]
            rfl
        _ = buffer := by rw [ih _ hrest, List.take_append_drop]

theorem frg_fragment {stream : Int32} (hmode : stream ≠ 0) {mss : Nat} (n : Nat) (buffer : Bytes) :
    ∀ seg ∈ fragment stream mss n buffer, seg.frg = 0 := by
  induction n generalizing buffer with
  | zero => exact fun seg hseg => absurd hseg List.not_mem_nil
  | succ n ih =>
      rw [fragment, List.forall_mem_cons]
      exact ⟨if_neg hmode, ih _⟩

/-- Filling up the last segment of the queue keeps the bytes in their order. -/
theorem data_appendStream (mss : Nat) (queue : List Seg) (buffer : Bytes) :
    (appendStream mss queue buffer).1.flatMap Seg.data ++ (appendStream mss queue buffer).2 =
      queue.flatMap Seg.data ++ buffer := by
  unfold appendStream
  cases hlast : queue.getLast? with
  | none => rfl
  | some old =>
      dsimp only
      split
      · obtain ⟨front, rfl⟩ := List.getLast?_eq_some_iff.1 hlast
        rw [List.dropLast_concat]
        simp [segmentNew]
      · rfl

theorem frg_appendStream (mss : Nat) {queue : List Seg} (hqueue : ∀ seg ∈ queue, seg.frg = 0)
    (buffer : Bytes) : ∀ seg ∈ (appendStream mss queue buffer).1, seg.frg = 0 := by
  unfold appendStream
  cases queue.getLast? with
  | none => exact hqueue
  | some old =>
      dsimp only
      split
      · intro seg hseg
        rcases List.mem_append.1 hseg with hold | hnew
        · exact hqueue seg (List.mem_of_mem_dropLast hold)
        · rw [List.mem_singleton.1 hnew]
          rfl
      · exact hqueue

/-- The call of `ikcp_send` succeeds. -/
def SendSucceeds (kcp : Ikcpcb) (buffer : Bytes) : Prop := (send kcp buffer buffer.length).2 = 0

instance (kcp : Ikcpcb) (buffer : Bytes) : Decidable (SendSucceeds kcp buffer) :=
  inferInstanceAs (Decidable (_ = _))

/-- In stream mode a call of `ikcp_send` that succeeds queues all bytes behind those that are there. -/
theorem send_of_stream {kcp : Ikcpcb} (hmode : kcp.stream ≠ 0) {buffer : Bytes}
    (hok : SendSucceeds kcp buffer) (hfrg : ∀ seg ∈ kcp.sndQueue, seg.frg = 0) :
    (∀ seg ∈ (send kcp buffer buffer.length).1.sndQueue, seg.frg = 0) ∧
      (send kcp buffer buffer.length).1.sndQueue.flatMap Seg.data =
        kcp.sndQueue.flatMap Seg.data ++ buffer := by
  have hneg : ¬ ((buffer.length : Int) < 0) := not_lt.2 (Int.natCast_nonneg _)
  have hdata := data_appendStream kcp.mss kcp.sndQueue buffer
  have hqueue := frg_appendStream kcp.mss hfrg buffer
  unfold SendSucceeds Kcp.send at hok
  unfold Kcp.send
  rw [if_neg hneg, Int.toNat_natCast, List.take_length, if_pos hmode] at hok ⊢
  dsimp only at hok ⊢
  generalize (appendStream kcp.mss kcp.sndQueue buffer).1 = queue at hok hdata hqueue ⊢
  generalize (appendStream kcp.mss kcp.sndQueue buffer).2 = left at hok hdata ⊢
  by_cases hdone : left.length = 0
  · rw [if_pos hdone]
    rw [List.length_eq_zero_iff.1 hdone, List.append_nil] at hdata
    exact ⟨hqueue, hdata⟩
  · rw [if_neg hdone] at hok ⊢
    unfold sendRest at hok ⊢
    dsimp only at hok ⊢
    have hmss : Ikcpcb.mss { kcp with sndQueue := queue } = kcp.mss := rfl
    rw [hmss] at hok ⊢
    by_cases hcount : fragmentCount kcp.mss left.length ≥ wndRcv.toNat
    · rw [if_pos hcount] at hok
      exact absurd hok (show ¬ (-2 : Int) = 0 by decide)
    · rw [if_neg hcount]
      constructor
      · intro seg hseg
        rcases List.mem_append.1 hseg with hold | hnew
        · exact hqueue seg hold
        · exact frg_fragment hmode _ _ seg hnew
      · have hall := data_fragment kcp.stream (fragmentCount kcp.mss left.length) left
          (fragmentCount_spec (mss_pos kcp) left.length).2
        rw [List.flatMap_append, hall, hdata]

theorem Stream.send {kcp : Ikcpcb} {front : List Frag} {buffer : Bytes} {acc del : List Bytes}
    (hmode : kcp.stream ≠ 0) (hok : SendSucceeds kcp buffer)
    (h : Stream (front ++ kcp.sndQueue.map Seg.frag) acc del) :
    Stream (front ++ (kcp.call (.send buffer)).kcp.sndQueue.map Seg.frag)
      (acc ++ acceptedBy (.send buffer) (kcp.call (.send buffer))) del := by
  obtain ⟨hfrg, hbytes⟩ := h
  have hold : ∀ seg ∈ kcp.sndQueue, seg.frg = 0 :=
    fun seg hseg => hfrg seg.frag (List.mem_append_right _ (List.mem_map_of_mem hseg))
  obtain ⟨hnew, hdata⟩ := send_of_stream hmode hok hold
  have haccepted : acceptedBy (.send buffer) (kcp.call (.send buffer)) = [buffer] := if_pos hok
  rw [haccepted]
  constructor
  · intro f hf
    rcases List.mem_append.1 hf with hfront | hqueue
    · exact hfrg f (List.mem_append_left _ hfront)
    · obtain ⟨seg, hseg, rfl⟩ := List.mem_map.1 hqueue
      exact hnew seg hseg
  · have hsame : (kcp.call (.send buffer)).kcp = (Kcp.send kcp buffer buffer.length).1 := rfl
    rw [List.flatMap_append, flatMap_frag] at hbytes ⊢
    rw [List.flatten_append, hbytes, hsame, hdata]
    simp

theorem Stream.recv {kcp : Ikcpcb} {others : List Frag} {len : Int} {acc del : List Bytes}
    (h : Stream (kcp.rcvQueue.map Seg.frag ++ others) acc del) :
    Stream ((kcp.rcvQueue.map Seg.frag ++ others).drop (readCount kcp len)) acc
      (del ++ deliveredBy (.recv len) (kcp.call (.recv len))) := by
  obtain ⟨hfrg, hbytes⟩ := h
  unfold readCount deliveredBy Ikcpcb.call
  dsimp only
  by_cases hread : 0 ≤ (Kcp.recv kcp len).2.1 ∧ 0 ≤ len
  · rw [if_pos hread, if_pos hread]
    rcases recv_cases kcp len with ⟨rc, hneg, heq⟩ | ⟨hempty, -, -, heq⟩
    · rw [heq] at hread
      exact absurd hread.1 (not_le.2 hneg)
    · rw [heq]
      unfold firstMessage
      cases hqueue : kcp.rcvQueue with
      | nil => exact absurd hqueue hempty
      | cons seg rest =>
          rw [hqueue] at hfrg hbytes
          have hzero : seg.frg = 0 := hfrg seg.frag List.mem_cons_self
          rw [takeMessage, if_pos hzero]
          refine ⟨fun f hf => hfrg f (List.mem_of_mem_drop hf), ?_⟩
          rw [hbytes]
          simp [Seg.frag]
  · rw [if_neg hread, if_neg hread, List.append_nil]
    exact ⟨hfrg, hbytes⟩

theorem Stream.keeps {mode : Int32} (hmode : mode ≠ 0) : Keeps Stream mode SendSucceeds where
  empty := ⟨fun _ hf => absurd hf List.not_mem_nil, rfl⟩
  send := fun _ _ _ _ _ hstream hok h => Stream.send (hstream ▸ hmode) hok h
  recv := fun _ _ _ _ _ _ h => Stream.recv h

/-! ## Runs -/

/-- With a relation that sending and receiving keep, every state of a run is connected. -/
theorem connected_of_run {K : Content} {mode : Int32} {ok : Ikcpcb → Bytes → Prop} (hK : Keeps K mode ok)
    {P : Net → Prop} {conv : UInt32} (hP : ∀ h p s, Connected K conv mode h p s → P s) (as : List Action)
    (has : EveryStep step (fun s a => Few s a ∧ SendsOk ok s a) (start conv fun _ => mode) as) :
    EveryState step P (start conv fun _ => mode) as := by
  have hkept : ∀ s a t, (∃ h p, Connected K conv mode h p s) → Few s a ∧ SendsOk ok s a →
      step s a = some t → ∃ h p, Connected K conv mode h p t := by
    rintro s a t ⟨h, p, hs⟩ ⟨hfew, hok⟩ hstep
    exact hs.step hK hfew hok hstep
  refine everyState_of_everyStep hkept ?_ as _ ⟨_, _, Connected.start hK.empty conv mode⟩ has
  rintro s ⟨h, p, hs⟩
  exact hP h p s hs

end CppMisc.Kcp
