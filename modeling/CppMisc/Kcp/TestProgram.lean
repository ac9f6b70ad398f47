import CppMisc.Kcp.Applications
import CppMisc.Kcp.Simulator

/-!
# The test program (src/kcp_learn/test.cpp)

`test` runs two endpoints over the simulated network: the first one sends a numbered message every 20 ms, the second
one sends back what it reads, and the first one takes anything but the next number as an error. A step is one round
of one of its loops; the clock and `rand` may return anything.

The error is never found: whatever is lost and however long the packets take, the numbers come back in their order
and without a gap (`no_error_of_test`).
-/

set_option autoImplicit false

namespace CppMisc.Kcp

open CppMisc.Library

/-! ## The program -/

/-- The loop that `test` is in: the outer one at its start, or one of those in it. -/
inductive Phase where
  | top
  | sending
  | input2
  | input1
  | echo
  | recv
  /-- `printf("ERROR ...")` and `return`. -/
  | failed
  /-- The outer loop is left by `break`. -/
  | done
  deriving DecidableEq, Repr

structure Test where
  vnet : LatencySimulator
  kcp1 : Ikcpcb
  kcp2 : Ikcpcb
  current : UInt32
  slap : UInt32
  index : UInt32
  next : UInt32
  sumrtt : Int
  count : Int
  maxrtt : Int
  buffer : Bytes
  phase : Phase

/-- What `iclock` and `rand` return during a step: the clock readings of the program itself, and those of the
simulator for the packets that a side sends. -/
structure Readings where
  current : UInt32
  clock1 : UInt32
  clock2 : UInt32
  luck1 : Nat → LatencySimulator.Luck
  luck2 : Nat → LatencySimulator.Luck

/-- `udp_output` for the datagrams that one call sends. -/
def udpOutput (x : Side) : List Bytes → (Nat → LatencySimulator.Luck) → LatencySimulator → LatencySimulator
  | [], _, vnet => vnet
  | data :: rest, luck, vnet => udpOutput x rest (fun i => luck (i + 1)) (vnet.send x data (luck 0))

/-- A message: its number and the time. -/
def message (index current : UInt32) : Bytes := encode32u index ++ encode32u current

namespace Test

/-- `ikcp_update` of both endpoints. -/
def update (s : Test) (r : Readings) : Test :=
  let (kcp1, out1) := Kcp.update s.kcp1 r.clock1
  let (kcp2, out2) := Kcp.update s.kcp2 r.clock2
  { s with
    current := r.current
    kcp1 := kcp1
    kcp2 := kcp2
    vnet := udpOutput .two out2 r.luck2 (udpOutput .one out1 r.luck1 s.vnet)
    phase := .sending }

/-- The first endpoint sends a message every 20 ms. -/
def sending (s : Test) : Test :=
  if s.current ≥ s.slap then
    let buffer := patch s.buffer 0 (message s.index s.current)
    { s with
      buffer := buffer
      index := s.index + 1
      kcp1 := (send s.kcp1 buffer 8).1
      slap := s.slap + 20 }
  else { s with phase := .input2 }

/-- A packet for the second endpoint. -/
def input2 (s : Test) (r : Readings) : Test :=
  let (vnet, hr, data) := s.vnet.recv .two r.current 2000
  if hr < 0 then { s with phase := .input1 }
  else
    let buffer := patch s.buffer 0 data
    { s with
      vnet := vnet
      buffer := buffer
      kcp2 := (input s.kcp2 (buffer.take hr.toNat)).1 }

/-- A packet for the first endpoint. -/
def input1 (s : Test) (r : Readings) : Test :=
  let (vnet, hr, data) := s.vnet.recv .one r.current 2000
  if hr < 0 then { s with phase := .echo }
  else
    let buffer := patch s.buffer 0 data
    { s with
      vnet := vnet
      buffer := buffer
      kcp1 := (input s.kcp1 (buffer.take hr.toNat)).1 }

/-- The second endpoint sends back what it reads. -/
def echo (s : Test) : Test :=
  let (kcp2, hr, data) := recv s.kcp2 10
  if hr < 0 then { s with phase := .recv }
  else
    let buffer := patch s.buffer 0 data
    { s with
      buffer := buffer
      kcp2 := (send kcp2 buffer hr).1 }

/-- The first endpoint reads what comes back. -/
def recv (s : Test) : Test :=
  let (kcp1, hr, data) := Kcp.recv s.kcp1 10
  if hr < 0 then { s with phase := if s.next > 1000 then .done else .top }
  else
    let buffer := patch s.buffer 0 data
    let sn := (decode32u buffer).1
    let ts := (decode32u (buffer.drop 4)).1
    let rtt := s.current - ts
    if sn ≠ s.next then { s with kcp1 := kcp1, buffer := buffer, phase := .failed }
    else
      { s with
        kcp1 := kcp1
        buffer := buffer
        next := s.next + 1
        sumrtt := s.sumrtt + rtt.toNat
        count := s.count + 1
        maxrtt := if rtt > UInt32.ofInt s.maxrtt then rtt.toInt32.toInt else s.maxrtt }

def step (s : Test) (r : Readings) : Option Test :=
  match s.phase with
  | .top => some (s.update r)
  | .sending => some s.sending
  | .input2 => some (s.input2 r)
  | .input1 => some (s.input1 r)
  | .echo => some s.echo
  | .recv => some s.recv
  | .failed => none
  | .done => none

/-- The settings of an endpoint in each mode. -/
def configure (mode : Int) (kcp : Ikcpcb) : Ikcpcb :=
  if mode = 0 then setNodelay (wndsize kcp 128 128) 0 10 0 0
  else if mode = 1 then setNodelay (wndsize kcp 128 128) 0 10 0 1
  else setNodelay (wndsize kcp 128 128) 2 10 2 1

/-- In the last mode the first endpoint resends even sooner. -/
def hasten (mode : Int) (kcp : Ikcpcb) : Ikcpcb :=
  if mode = 0 then kcp
  else if mode = 1 then kcp
  else { kcp with rxMinrto := 10, fastresend := 1 }

/-- `test` in front of its loop, with whatever bytes stand in the buffer. -/
def start (mode : Int) (current : UInt32) (buffer : Bytes) : Test where
  vnet := LatencySimulator.create 10 60 125 1000
  kcp1 := hasten mode (configure mode (create 0x11223344))
  kcp2 := configure mode (create 0x11223344)
  current := current
  slap := current + 20
  index := 0
  next := 0
  sumrtt := 0
  count := 0
  maxrtt := 0
  buffer := buffer
  phase := .top

end Test

/-! ## Messages -/

/-- The messages with the numbers from 0 on that are sent at the given times. -/
def messages (times : List UInt32) : List Bytes := times.mapIdx fun i t => message (UInt32.ofNat i) t

@[simp] theorem length_message (index current : UInt32) : (message index current).length = 8 := by
  rw [message, List.length_append, length_encode32u, length_encode32u]

theorem messages_concat (times : List UInt32) (t : UInt32) :
    messages (times ++ [t]) = messages times ++ [message (UInt32.ofNat times.length) t] :=
  List.mapIdx_concat

theorem length_of_mem_messages {times : List UInt32} {m : Bytes} (hm : m ∈ messages times) : m.length = 8 := by
  obtain ⟨i, hi, rfl⟩ := List.mem_mapIdx.1 hm
  exact length_message _ _

/-- What comes next in a front part of the messages has the next number. -/
theorem eq_message_of_prefix {times : List UInt32} {got : List Bytes} {m : Bytes}
    (h : got ++ [m] <+: messages times) : ∃ t, m = message (UInt32.ofNat got.length) t := by
  have hget : (messages times)[got.length]? = some m := by
    obtain ⟨rest, hrest⟩ := h
    rw [← hrest, List.append_assoc, List.getElem?_append_right le_rfl, Nat.sub_self]
    rfl
  rw [messages, List.getElem?_mapIdx, Option.map_eq_some_iff] at hget
  obtain ⟨t, -, ht⟩ := hget
  exact ⟨t, ht.symm⟩

/-- Only the first `n` bytes of a buffer matter to `ikcp_send`. -/
theorem send_take (kcp : Ikcpcb) (data buffer : Bytes) :
    send kcp (patch buffer 0 data) data.length = send kcp data data.length := by
  unfold send
  rw [Int.toNat_natCast, take_patch_zero, List.take_length]

/-- A message of 8 bytes is accepted. -/
theorem Net.Live.accepts {c : UInt32} {n : Nat} {s : Net} (h : s.Live c n) (x : Side) {m : Bytes} (hm : m.length = 8) :
    (send (s.kcp x) m m.length).2 = 0 := by
  apply send_small (h.stream x)
  have hpos := mss_pos (s.kcp x)
  omega

/-- A call of `ikcp_recv` reads nothing, or one message. -/
theorem Net.call_recv (s : Net) (x : Side) :
    (∃ rc, rc < 0 ∧ recv (s.kcp x) 10 = (s.kcp x, rc, [])) ∨
      ∃ k m, recv (s.kcp x) 10 = (k, (m.length : Int), m) ∧
        s.call x (.recv 10) =
          { s with
            kcp := Function.update s.kcp x k
            delivered := Function.update s.delivered x (s.delivered x ++ [m]) } := by
  obtain ⟨rc, hneg, heq⟩ | ⟨-, -, -, heq⟩ := recv_cases (s.kcp x) 10
  · exact Or.inl ⟨rc, hneg, heq⟩
  · refine Or.inr ⟨_, _, heq, ?_⟩
    simp [Net.call, Ikcpcb.call, acceptedBy, deliveredBy, heq]

/-! ## Packets -/

/-- A packet on its way was there before, or it is what is sent. -/
theorem LatencySimulator.mem_send {v : LatencySimulator} {x y : Side} {data : Bytes} {luck : LatencySimulator.Luck}
    {pkt : DelayPacket} (h : pkt ∈ (v.send x data luck).p y) : pkt ∈ v.p y ∨ (y = x ∧ pkt.data = data) := by
  unfold LatencySimulator.send at h
  split at h
  · exact Or.inl h
  · split at h
    · exact Or.inl h
    · rcases eq_or_ne y x with rfl | hy
      · simp only [Function.update_self, List.mem_append, List.mem_singleton] at h
        rcases h with hold | rfl
        · exact Or.inl hold
        · exact Or.inr ⟨rfl, rfl⟩
      · simp only [Function.update_of_ne hy] at h
        exact Or.inl h

theorem mem_udpOutput {x y : Side} {ds : List Bytes} {pkt : DelayPacket} :
    ∀ {luck : Nat → LatencySimulator.Luck} {v : LatencySimulator}, pkt ∈ (udpOutput x ds luck v).p y →
      pkt ∈ v.p y ∨ (y = x ∧ pkt.data ∈ ds) := by
  induction ds with
  | nil =>
      intro luck v h
      exact Or.inl h
  | cons data rest ih =>
      intro luck v h
      rcases ih h with hsent | ⟨hy, hrest⟩
      · rcases LatencySimulator.mem_send hsent with hold | ⟨hy, rfl⟩
        · exact Or.inl hold
        · exact Or.inr ⟨hy, List.mem_cons_self⟩
      · exact Or.inr ⟨hy, List.mem_cons_of_mem _ hrest⟩

/-- What is taken was on its way, and what is on its way afterwards was so before. -/
theorem LatencySimulator.recv_mem (v : LatencySimulator) (x : Side) (clock : UInt32) (maxsize : Int) :
    (∃ rc, rc < 0 ∧ v.recv x clock maxsize = (v, rc, [])) ∨
      ∃ pkt ∈ v.p x.peer, ∃ w, v.recv x clock maxsize = (w, (pkt.data.length : Int), pkt.data) ∧
        ∀ y, ∀ q ∈ w.p y, q ∈ v.p y := by
  obtain hnone | ⟨pkt, rest, hp, -, -, heq⟩ := v.recv_cases x clock maxsize
  · exact Or.inl hnone
  · refine Or.inr ⟨pkt, hp ▸ List.mem_cons_self, _, heq, ?_⟩
    intro y q hq
    rcases eq_or_ne y x.peer with rfl | hy
    · simp only [Function.update_self] at hq
      rw [hp]
      exact List.mem_cons_of_mem _ hq
    · simpa only [Function.update_of_ne hy] using hq

/-! ## The numbers come back in their order -/

namespace Test

/-- What the endpoints did so far: their datagrams, the times of the messages that the first one sent, what the
second one sent back, and what of it the first one read. -/
structure Past where
  wire1 : List Bytes
  wire2 : List Bytes
  times : List UInt32
  back : List Bytes
  got : List Bytes

def net (s : Test) (past : Past) : Net where
  kcp := sides s.kcp1 s.kcp2
  wire := sides past.wire1 past.wire2
  accepted := sides (messages past.times) past.back
  delivered := sides past.got past.back

/-- The endpoints are alive, with room for `n` more calls, and the program has counted what they did. -/
structure Kept (n : Nat) (past : Past) (s : Test) : Prop where
  live : (s.net past).Live 0x11223344 n
  packets : ∀ x, ∀ pkt ∈ s.vnet.p x, pkt.data ∈ (s.net past).wire x
  index : s.index = UInt32.ofNat past.times.length
  next : s.next = UInt32.ofNat past.got.length
  count : s.count = past.got.length

variable {s : Test} {past : Past} {n : Nat}

theorem Kept.update (h : s.Kept 2 past) (r : Readings) : ∃ past', (s.update r).Kept 0 past' := by
  refine ⟨{ past with
    wire1 := past.wire1 ++ (Kcp.update s.kcp1 r.clock1).2
    wire2 := past.wire2 ++ (Kcp.update s.kcp2 r.clock2).2 }, ?_, ?_, h.index, h.next, h.count⟩
  · have hlive := (h.live.call .one (.update r.clock1)).call .two (.update r.clock2)
    convert hlive using 1
    simp [net, Test.update, Net.call, Ikcpcb.call, acceptedBy, deliveredBy]
  · intro x pkt hpkt
    rcases mem_udpOutput hpkt with hfirst | ⟨rfl, hnew⟩
    · rcases mem_udpOutput hfirst with hold | ⟨rfl, hnew⟩
      · have hwire := h.packets x pkt hold
        cases x with
        | one => exact List.mem_append_left _ hwire
        | two => exact List.mem_append_left _ hwire
      · exact List.mem_append_right _ hnew
    · exact List.mem_append_right _ hnew

theorem Kept.sending (h : s.Kept (n + 1) past) : ∃ past', s.sending.Kept n past' := by
  unfold Test.sending
  split
  · let m := message s.index s.current
    have hm : m.length = 8 := length_message _ _
    have hlength : (8 : Int) = m.length := congrArg Nat.cast hm.symm
    have haccepted : (Kcp.send s.kcp1 m m.length).2 = 0 := h.live.accepts .one hm
    have hsend := send_take s.kcp1 m s.buffer
    rw [← hlength] at haccepted hsend
    refine ⟨{ past with times := past.times ++ [s.current] }, ?_, h.packets, ?_, h.next, h.count⟩
    · have hlive := h.live.call .one (.send m)
      convert hlive using 1
      simp [net, Net.call, Ikcpcb.call, acceptedBy, deliveredBy, messages_concat, ← h.index, m] at hsend haccepted ⊢
      simp [hsend, haccepted]
    · show s.index + 1 = _
      rw [h.index, List.length_append, List.length_singleton, UInt32.ofNat_add]
      rfl
  · exact ⟨past, h.live.mono (Nat.le_succ n), h.packets, h.index, h.next, h.count⟩

theorem Kept.input2 (h : s.Kept n past) (r : Readings) : (s.input2 r).Kept n past := by
  unfold Test.input2
  obtain ⟨rc, hneg, heq⟩ | ⟨pkt, hpkt, vnet, heq, hrest⟩ := s.vnet.recv_mem .two r.current 2000
  · rw [heq]
    dsimp only
    rw [if_pos hneg]
    exact ⟨h.live, h.packets, h.index, h.next, h.count⟩
  · rw [heq]
    dsimp only
    rw [if_neg (not_lt.2 (Int.natCast_nonneg _)), Int.toNat_natCast, take_patch_zero]
    refine ⟨?_, fun y q hq => h.packets y q (hrest y q hq), h.index, h.next, h.count⟩
    have hlive := h.live.arrive (x := .two) (Or.inl (h.packets .one pkt hpkt))
    convert hlive using 1
    simp [net, Net.arrive]

theorem Kept.input1 (h : s.Kept n past) (r : Readings) : (s.input1 r).Kept n past := by
  unfold Test.input1
  obtain ⟨rc, hneg, heq⟩ | ⟨pkt, hpkt, vnet, heq, hrest⟩ := s.vnet.recv_mem .one r.current 2000
  · rw [heq]
    dsimp only
    rw [if_pos hneg]
    exact ⟨h.live, h.packets, h.index, h.next, h.count⟩
  · rw [heq]
    dsimp only
    rw [if_neg (not_lt.2 (Int.natCast_nonneg _)), Int.toNat_natCast, take_patch_zero]
    refine ⟨?_, fun y q hq => h.packets y q (hrest y q hq), h.index, h.next, h.count⟩
    have hlive := h.live.arrive (x := .one) (Or.inl (h.packets .two pkt hpkt))
    convert hlive using 1
    simp [net, Net.arrive]

theorem Kept.echo (h : s.Kept (n + 2) past) : ∃ past', s.echo.Kept n past' := by
  unfold Test.echo
  obtain ⟨rc, hneg, heq⟩ | ⟨k, m, heq, hcall⟩ := (s.net past).call_recv .two
  · rw [show Kcp.recv s.kcp2 10 = (s.kcp2, rc, []) from heq]
    dsimp only
    rw [if_pos hneg]
    exact ⟨past, h.live.mono (Nat.le_add_right n 2), h.packets, h.index, h.next, h.count⟩
  · have hread := h.live.call .two (.recv 10)
    rw [hcall] at hread
    -- it is one of the messages that the first endpoint sent
    have hm : m.length = 8 := by
      have hsent : past.back ++ [m] <+: messages past.times := by
        simpa [net, Side.peer] using hread.prefixes .one
      exact length_of_mem_messages (hsent.subset (List.mem_append_right _ (List.mem_singleton_self m)))
    have haccepted : (Kcp.send k m m.length).2 = 0 := by
      simpa [net] using hread.accepts .two hm
    rw [show Kcp.recv s.kcp2 10 = (k, (m.length : Int), m) from heq]
    dsimp only
    rw [if_neg (not_lt.2 (Int.natCast_nonneg _)), send_take]
    refine ⟨{ past with back := past.back ++ [m] }, ?_, h.packets, h.index, h.next, h.count⟩
    have hlive := hread.call .two (.send m)
    convert hlive using 1
    simp [net, Net.call, Ikcpcb.call, acceptedBy, deliveredBy, haccepted]

/-- What comes back is the next message. -/
theorem Kept.recv (h : s.Kept (n + 1) past) :
    (∃ past', s.recv.Kept n past') ∧ (s.recv.phase = s.phase ∨ s.recv.phase = .top ∨
      (s.recv.phase = .done ∧ 1000 < s.recv.count)) := by
  unfold Test.recv
  obtain ⟨rc, hneg, heq⟩ | ⟨k, m, heq, hcall⟩ := (s.net past).call_recv .one
  · rw [show Kcp.recv s.kcp1 10 = (s.kcp1, rc, []) from heq]
    dsimp only
    rw [if_pos hneg]
    refine ⟨⟨past, h.live.mono (Nat.le_succ n), h.packets, h.index, h.next, h.count⟩, Or.inr ?_⟩
    by_cases hlast : s.next > 1000
    · refine Or.inr ⟨if_pos hlast, ?_⟩
      have hmany : 1000 < s.next.toNat := UInt32.lt_iff_toNat_lt.1 hlast
      rw [h.next, UInt32.toNat_ofNat'] at hmany
      have hless := Nat.mod_le past.got.length (2 ^ 32)
      show (1000 : Int) < s.count
      rw [h.count]
      omega
    · exact Or.inl (if_neg hlast)
  · have hread := h.live.call .one (.recv 10)
    rw [hcall] at hread
    obtain ⟨t, rfl⟩ : ∃ t, m = message (UInt32.ofNat past.got.length) t := by
      have hback : past.got ++ [m] <+: past.back := by
        simpa [net, Side.peer] using hread.prefixes .two
      have hsent : past.back <+: messages past.times := by
        simpa [net, Side.peer] using h.live.prefixes .one
      exact eq_message_of_prefix (hback.trans hsent)
    have hsn : (decode32u (patch s.buffer 0 (message (UInt32.ofNat past.got.length) t))).1 = s.next := by
      rw [patch, List.take_zero, List.nil_append, message, List.append_assoc, decode32u_encode, h.next]
    rw [show Kcp.recv s.kcp1 10 = _ from heq]
    dsimp only
    rw [if_neg (not_lt.2 (Int.natCast_nonneg _)), hsn, if_neg (not_not.2 rfl)]
    refine ⟨⟨{ past with got := past.got ++ [message (UInt32.ofNat past.got.length) t] }, ?_, h.packets, h.index, ?_,
      ?_⟩, Or.inl rfl⟩
    · convert hread using 1
      simp [net]
    · show s.next + 1 = _
      rw [h.next, List.length_append, List.length_singleton, UInt32.ofNat_add]
      rfl
    · show s.count + 1 = _
      rw [h.count, List.length_append, List.length_singleton]
      rfl

/-- Both sides have room for the numbers of two more calls below `2 ^ 31`. -/
def Roomy (s : Test) (_ : Readings) : Prop :=
  s.kcp1.sndNxt.toNat + 2 ^ 17 ≤ 2 ^ 31 ∧ s.kcp2.sndNxt.toNat + 2 ^ 17 ≤ 2 ^ 31

instance (s : Test) (r : Readings) : Decidable (Roomy s r) :=
  inferInstanceAs (Decidable (_ ∧ _))

theorem Kept.roomy {r : Readings} (h : s.Kept 0 past) (hroomy : Roomy s r) : s.Kept 2 past where
  live := {
    connected := h.live.connected
    room := by
      intro x
      cases x with
      | one => exact hroomy.1
      | two => exact hroomy.2 }
  packets := h.packets
  index := h.index
  next := h.next
  count := h.count

theorem Kept.idle (h : s.Kept n past) : s.Kept 0 past where
  live := h.live.mono (Nat.zero_le n)
  packets := h.packets
  index := h.index
  next := h.next
  count := h.count

/-- No error was found, and the program does not end before it read 1001 messages. -/
structure Sound (s : Test) : Prop where
  phase : s.phase ≠ .failed
  next : ∃ n : Nat, s.next = UInt32.ofNat n ∧ s.count = n
  done : s.phase = .done → 1000 < s.count

theorem Kept.sound (h : s.Kept n past) (hphase : s.phase ≠ .failed) (hdone : s.phase = .done → 1000 < s.count) :
    s.Sound :=
  ⟨hphase, ⟨past.got.length, h.next, h.count⟩, hdone⟩

/-- The program is in one of its loops. -/
def Busy (s : Test) : Prop := s.phase ≠ .failed ∧ s.phase ≠ .done

theorem busy_of_step {t : Test} {r : Readings} (h : step s r = some t) : s.Busy := by
  constructor
  all_goals
    intro hphase
    rw [step, hphase] at h
    cases h

/-- Neither the error nor the end comes in the loops before the last one. -/
theorem Busy.loops (h : s.Busy) (r : Readings) :
    s.sending.Busy ∧ (s.input2 r).Busy ∧ (s.input1 r).Busy ∧ s.echo.Busy := by
  have next : ∀ {u : Test}, u.phase = .input2 ∨ u.phase = .input1 ∨ u.phase = .echo ∨ u.phase = .recv → u.Busy := by
    rintro u (heq | heq | heq | heq) <;> rw [Busy, heq] <;> decide
  refine ⟨?_, ?_, ?_, ?_⟩
  · unfold sending
    split
    · exact h
    · exact next (Or.inl rfl)
  · unfold input2
    dsimp only
    split
    · exact next (Or.inr (Or.inl rfl))
    · exact h
  · unfold input1
    dsimp only
    split
    · exact next (Or.inr (Or.inr (Or.inl rfl)))
    · exact h
  · unfold echo
    dsimp only
    split
    · exact next (Or.inr (Or.inr (Or.inr rfl)))
    · exact h

/-- What holds between the steps. -/
def Inv (s : Test) : Prop := (∃ past, s.Kept 0 past) ∧ s.phase ≠ .failed ∧ (s.phase = .done → 1000 < s.count)

theorem Busy.inv (h : s.Busy) (hkept : ∃ past, s.Kept 0 past) : s.Inv :=
  ⟨hkept, h.1, fun hdone => absurd hdone h.2⟩

theorem inv_of_step {t : Test} {r : Readings} (h : s.Inv) (hroomy : Roomy s r) (hstep : step s r = some t) : t.Inv := by
  obtain ⟨⟨past, hidle⟩, -, -⟩ := h
  have hkept := hidle.roomy hroomy
  have hbusy := busy_of_step hstep
  obtain ⟨hsending, hinput2, hinput1, hecho⟩ := hbusy.loops r
  unfold step at hstep
  cases hphase : s.phase with
  | top =>
      rw [hphase] at hstep
      obtain rfl := Option.some.inj hstep
      have hnext : (s.update r).Busy := ⟨Phase.noConfusion, Phase.noConfusion⟩
      exact hnext.inv (hkept.update r)
  | sending =>
      rw [hphase] at hstep
      obtain rfl := Option.some.inj hstep
      obtain ⟨past', hsent⟩ := hkept.sending
      exact hsending.inv ⟨past', hsent.idle⟩
  | input2 =>
      rw [hphase] at hstep
      obtain rfl := Option.some.inj hstep
      exact hinput2.inv ⟨past, hidle.input2 r⟩
  | input1 =>
      rw [hphase] at hstep
      obtain rfl := Option.some.inj hstep
      exact hinput1.inv ⟨past, hidle.input1 r⟩
  | echo =>
      rw [hphase] at hstep
      obtain rfl := Option.some.inj hstep
      exact hecho.inv hkept.echo
  | recv =>
      rw [hphase] at hstep
      obtain rfl := Option.some.inj hstep
      obtain ⟨⟨past', hread⟩, hsame | htop | ⟨hdone, hmany⟩⟩ := hkept.recv
      · have hnext : s.recv.Busy := by
          rw [Busy, hsame]
          exact hbusy
        exact hnext.inv ⟨past', hread.idle⟩
      · have hnext : s.recv.Busy := by
          rw [Busy, htop]
          decide
        exact hnext.inv ⟨past', hread.idle⟩
      · refine ⟨⟨past', hread.idle⟩, ?_, fun _ => hmany⟩
        rw [hdone]
        exact Phase.noConfusion
  | failed => exact absurd hphase hbusy.1
  | done => exact absurd hphase hbusy.2

theorem inv_start (mode : Int) (current : UInt32) (buffer : Bytes) : (start mode current buffer).Inv := by
  refine ⟨⟨⟨[], [], [], [], []⟩, ?_, fun x pkt hpkt => absurd hpkt List.not_mem_nil, rfl, rfl, rfl⟩,
    Phase.noConfusion, fun hdone => Phase.noConfusion hdone⟩
  have hempty : Kcp.start 0x11223344 (fun _ => 0) =
      ⟨sides (create 0x11223344) (create 0x11223344), sides [] [], sides [] [], sides [] []⟩ := by
    simp only [Kcp.start, Net.mk.injEq]
    refine ⟨?_, ?_, ?_, ?_⟩ <;> · funext x; cases x <;> rfl
  obtain ⟨nodelay, resend, nc, hconfigure⟩ : ∃ nodelay resend nc : Int32, ∀ kcp,
      configure mode kcp = setNodelay (wndsize kcp 128 128) nodelay 10 resend nc := by
    unfold configure
    split
    · exact ⟨0, 0, 0, fun _ => rfl⟩
    · split
      · exact ⟨0, 0, 1, fun _ => rfl⟩
      · exact ⟨2, 2, 1, fun _ => rfl⟩
  have hlive : ((Kcp.start 0x11223344 fun _ => 0).calls .one [.wndsize 128 128, .nodelay nodelay 10 resend nc]).calls
      .two [.wndsize 128 128, .nodelay nodelay 10 resend nc] |>.Live 0x11223344 0 :=
    (Net.Live.start _ (show 4 ≤ 2 ^ 15 by decide)).calls.calls
  have hview : (hasten mode (configure mode (create 0x11223344))).view = (configure mode (create 0x11223344)).view := by
    unfold hasten
    split
    · rfl
    · split <;> rfl
  rw [hconfigure] at hview
  have hretuned := hlive.retune (x := .one) (k := hasten mode (configure mode (create 0x11223344))) (by
    rw [hempty, hconfigure]
    simpa [Net.calls, Net.call, Ikcpcb.call] using hview)
  convert hretuned using 1
  rw [hempty]
  simp [net, start, hconfigure, Net.calls, Net.call, Ikcpcb.call, acceptedBy, deliveredBy, messages]

/-- The test program never finds an error, in none of its modes, whatever the clock and `rand` return. -/
theorem no_error_of_test (mode : Int) (current : UInt32) (buffer : Bytes) (rs : List Readings)
    (hrs : EveryStep step Roomy (start mode current buffer) rs) :
    EveryState step Sound (start mode current buffer) rs := by
  refine everyState_of_everyStep (fun _ _ _ => inv_of_step) ?_ rs _ (inv_start mode current buffer) hrs
  exact fun s ⟨⟨past, hkept⟩, hphase, hdone⟩ => hkept.sound hphase hdone

/-- What the clock and `rand` return in a round that takes no time. -/
def readings (t : UInt32) : Readings where
  current := t
  clock1 := t
  clock2 := t
  luck1 := fun i => ⟨7 + i, t, 0⟩
  luck2 := fun i => ⟨9 + i, t, 0⟩

/-- Five rounds of the outer loop, in the last of which the first message comes back. -/
def returning : List Readings :=
  List.replicate 7 (readings 20) ++ List.replicate 6 (readings 35) ++ List.replicate 10 (readings 65) ++
    List.replicate 7 (readings 75) ++ List.replicate 12 (readings 105)

theorem no_error_of_test_returning : (run step (start 2 0 []) returning).map Test.next = some 1 ∧
    EveryState step Sound (start 2 0 []) returning :=
  ⟨by decide +kernel, no_error_of_test 2 0 [] returning (by decide +kernel)⟩

end Test

end CppMisc.Kcp
