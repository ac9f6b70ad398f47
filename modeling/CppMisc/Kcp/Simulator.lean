import CppMisc.Library.Draws
import CppMisc.Kcp.Network

/-!
# The simulated network (src/kcp_learn/test.h)

`LatencySimulator` carries the datagrams of two endpoints: each way is a queue of packets with the time from which
they may be taken. Whether a packet is lost is drawn without putting back (`Random`), so that the share of losses is
exact in each round of a hundred packets, and what is left of a round is what is drawn next.

`Tunnel` adds what was sent and taken so far. Nothing is changed, repeated or overtaken on the way, nothing is taken
before its time, and every packet that was sent is lost, refused, taken or still on its way. The bounds are those that
the constructor was given (`carried_of_traffic`).
-/

set_option autoImplicit false

namespace CppMisc.Kcp

open CppMisc.Library

/-! ## `Random` -/

/-- `Random`: the places are its `seeds`. -/
abbrev Random := Pool Nat

namespace Random

/-- The constructor: the numbers come into the seeds at the first draw. -/
def create (size : Nat) : Random := ⟨List.replicate size 0, 0, Nat.zero_le _⟩

/-- When none is left, all numbers are put back. -/
def refill (r : Random) : Random := if r.size = 0 then Pool.full (List.range r.items.length) else r

theorem refill_of_empty {r : Random} (hempty : r.size = 0) : r.refill = Pool.full (List.range r.items.length) :=
  if_pos hempty

theorem refill_of_left {r : Random} (hleft : r.size ≠ 0) : r.refill = r := if_neg hleft

theorem size_refill_pos (r : Random) (hseeds : r.items.length ≠ 0) : 0 < r.refill.size := by
  by_cases hempty : r.size = 0
  · rw [refill_of_empty hempty]
    show 0 < (List.range r.items.length).length
    rw [List.length_range]
    exact Nat.pos_of_ne_zero hseeds
  · rw [refill_of_left hempty]
    exact Nat.pos_of_ne_zero hempty

/-- `Random::random`, with the number that `rand` returns. -/
def random (r : Random) (rand : Nat) : Random × Nat :=
  if hseeds : r.items.length = 0 then (r, 0)
  else r.refill.draw (rand % r.refill.size) (Nat.mod_lt _ (r.size_refill_pos hseeds))

/-- The numbers below `n` are drawn in rounds. -/
structure Draws (n : Nat) (drawn : List Nat) (r : Random) : Prop where
  seeds : r.items.length = n
  rounds : Pool.Rounds (List.range n) drawn r.refill

namespace Draws

variable {n : Nat} {drawn : List Nat} {r : Random}

theorem create (n : Nat) : Draws n [] (Random.create n) where
  seeds := List.length_replicate
  rounds := by
    have hempty : (Random.create n).size = 0 := rfl
    have hseeds : (Random.create n).items.length = n := List.length_replicate
    rw [refill_of_empty hempty, hseeds]
    exact Pool.Rounds.start _

theorem random (h : Draws n drawn r) (hn : n ≠ 0) (rand : Nat) :
    Draws n (drawn ++ [(r.random rand).2]) (r.random rand).1 := by
  have hseeds : r.items.length ≠ 0 := h.seeds ▸ hn
  have hrefill : r.refill.items.length = n := by
    by_cases hempty : r.size = 0
    · rw [refill_of_empty hempty]
      exact List.length_range.trans h.seeds
    · rw [refill_of_left hempty]
      exact h.seeds
  rw [Random.random, dif_neg hseeds]
  have hi := Nat.mod_lt rand (r.size_refill_pos hseeds)
  have hdrawn := h.rounds.draw hi
  have hsame := (Pool.length_items_draw r.refill hi).trans hrefill
  generalize r.refill.draw (rand % r.refill.size) hi = next at hdrawn hsame
  refine ⟨hsame, ?_⟩
  by_cases hempty : next.1.size = 0
  · rw [refill_of_empty hempty, hsame]
    exact hdrawn.refill hempty
  · rw [refill_of_left hempty]
    exact hdrawn

end Draws

end Random

/-! ## `LatencySimulator` -/

structure DelayPacket where
  data : Bytes
  ts : UInt32
  deriving DecidableEq, Repr

/-- `p12` and `r12` are those of the side that sends, `one`, and so is `tx1`. -/
structure LatencySimulator where
  tx : Side → Nat
  lostrate : Int
  rttmin : Int
  rttmax : Int
  nmax : Int
  p : Side → List DelayPacket
  r : Side → Random

namespace LatencySimulator

/-- The constructor: what it is given is about a round trip. -/
def create (lostrate rttmin rttmax nmax : Int) : LatencySimulator where
  tx := fun _ => 0
  lostrate := lostrate.tdiv 2
  rttmin := rttmin.tdiv 2
  rttmax := rttmax.tdiv 2
  nmax := nmax
  p := fun _ => []
  r := fun _ => Random.create 100

/-- What `rand` and `iclock` return during a call: the draw, the time and the share of the delay. -/
structure Luck where
  draw : Nat
  clock : UInt32
  jitter : Nat
  deriving DecidableEq, Repr

/-- The time that a packet is on its way. -/
def delay (v : LatencySimulator) (jitter : Nat) : UInt32 :=
  UInt32.ofInt v.rttmin + if v.rttmax > v.rttmin then UInt32.ofInt (jitter % (v.rttmax - v.rttmin)) else 0

/-- The packet is late by what `rand` says, within the settings. -/
theorem delay_eq (v : LatencySimulator) (jitter : Nat) : ∃ late : Int,
    v.delay jitter = UInt32.ofInt (v.rttmin + late) ∧ 0 ≤ late ∧ (late = 0 ∨ late < v.rttmax - v.rttmin) := by
  unfold delay
  split
  · rename_i hwide
    have hpos : 0 < v.rttmax - v.rttmin := Int.sub_pos_of_lt hwide
    refine ⟨jitter % (v.rttmax - v.rttmin), ?_, ?_, ?_⟩
    · rw [UInt32.ofInt_add]
    · exact Int.emod_nonneg _ hpos.ne'
    · exact Or.inr (Int.emod_lt_of_pos _ hpos)
  · refine ⟨0, ?_, le_rfl, Or.inl rfl⟩
    rw [Int.add_zero]
    exact UInt32.add_zero _

/-- The packet counts as sent and is drawn for. -/
def count (v : LatencySimulator) (x : Side) (rand : Nat) : LatencySimulator :=
  { v with
    tx := Function.update v.tx x (v.tx x + 1)
    r := Function.update v.r x ((v.r x).random rand).1 }

/-- The packet that is drawn for is lost. -/
def Loses (v : LatencySimulator) (x : Side) (rand : Nat) : Prop := (((v.r x).random rand).2 : Int) < v.lostrate

instance (v : LatencySimulator) (x : Side) (rand : Nat) : Decidable (v.Loses x rand) :=
  inferInstanceAs (Decidable (_ < _))

/-- There is no place for one more packet on the way. -/
def Full (v : LatencySimulator) (x : Side) : Prop := ((v.p x).length : Int) ≥ v.nmax

instance (v : LatencySimulator) (x : Side) : Decidable (v.Full x) := inferInstanceAs (Decidable (_ ≥ _))

/-- The packet as it is put on its way. -/
def packet (v : LatencySimulator) (data : Bytes) (luck : Luck) : DelayPacket :=
  ⟨data, luck.clock + v.delay luck.jitter⟩

/-- `LatencySimulator::send`. -/
def send (v : LatencySimulator) (x : Side) (data : Bytes) (luck : Luck) : LatencySimulator :=
  if v.Loses x luck.draw then v.count x luck.draw
  else if v.Full x then v.count x luck.draw
  else
    { v.count x luck.draw with p := Function.update v.p x (v.p x ++ [v.packet data luck]) }

/-- `LatencySimulator::recv` with the time that `iclock` returns: the returned number and the bytes written to the
buffer. -/
def recv (v : LatencySimulator) (x : Side) (clock : UInt32) (maxsize : Int) : LatencySimulator × Int × Bytes :=
  match v.p x.peer with
  | [] => (v, -1, [])
  | pkt :: rest =>
      if clock < pkt.ts then (v, -2, [])
      else if maxsize < pkt.data.length then (v, -3, [])
      else ({ v with p := Function.update v.p x.peer rest }, pkt.data.length, pkt.data)

/-- `recv` fails and changes nothing, or it takes the first packet, whose time has come. -/
theorem recv_cases (v : LatencySimulator) (x : Side) (clock : UInt32) (maxsize : Int) :
    (∃ rc, rc < 0 ∧ v.recv x clock maxsize = (v, rc, [])) ∨
      ∃ pkt rest, v.p x.peer = pkt :: rest ∧ ¬ clock < pkt.ts ∧ (pkt.data.length : Int) ≤ maxsize ∧
        v.recv x clock maxsize =
          ({ v with p := Function.update v.p x.peer rest }, (pkt.data.length : Int), pkt.data) := by
  unfold recv
  cases hp : v.p x.peer with
  | nil => exact Or.inl ⟨-1, by decide, rfl⟩
  | cons pkt rest =>
      dsimp only
      by_cases hearly : clock < pkt.ts
      · exact Or.inl ⟨-2, by decide, if_pos hearly⟩
      · by_cases hsmall : maxsize < pkt.data.length
        · exact Or.inl ⟨-3, by decide, by rw [if_neg hearly, if_pos hsmall]⟩
        · refine Or.inr ⟨pkt, rest, rfl, hearly, not_lt.1 hsmall, ?_⟩
          rw [if_neg hearly, if_neg hsmall]

end LatencySimulator

/-! ## Traffic -/

/-- The simulator with what happened to the packets of each side: `given` is what it sent, `queued` are the packets
that were put on their way, and `got` is what the other side was handed by `recv`. The bytes stand with the time of
the call. -/
structure Tunnel where
  sim : LatencySimulator
  given : Side → List (Bytes × UInt32)
  lost : Side → Nat
  refused : Side → Nat
  queued : Side → List DelayPacket
  got : Side → List (Bytes × UInt32)

inductive Traffic where
  | send (x : Side) (data : Bytes) (luck : LatencySimulator.Luck)
  | recv (x : Side) (clock : UInt32) (maxsize : Int)
  deriving DecidableEq, Repr

namespace Tunnel

open LatencySimulator

def send (s : Tunnel) (x : Side) (data : Bytes) (luck : Luck) : Tunnel :=
  { s with
    sim := s.sim.send x data luck
    given := Function.update s.given x (s.given x ++ [(data, luck.clock)])
    lost := if s.sim.Loses x luck.draw then Function.update s.lost x (s.lost x + 1) else s.lost
    refused :=
      if ¬ s.sim.Loses x luck.draw ∧ s.sim.Full x then Function.update s.refused x (s.refused x + 1) else s.refused
    queued :=
      if ¬ s.sim.Loses x luck.draw ∧ ¬ s.sim.Full x then
        Function.update s.queued x (s.queued x ++ [s.sim.packet data luck])
      else s.queued }

/-- The caller has as many bytes as the returned number says. -/
def recv (s : Tunnel) (x : Side) (clock : UInt32) (maxsize : Int) : Tunnel :=
  match s.sim.recv x clock maxsize with
  | (sim, rc, data) =>
      { s with
        sim := sim
        got :=
          if 0 ≤ rc then Function.update s.got x.peer (s.got x.peer ++ [(data.take rc.toNat, clock)])
          else s.got }

def step (s : Tunnel) : Traffic → Option Tunnel
  | .send x data luck => some (s.send x data luck)
  | .recv x clock maxsize => some (s.recv x clock maxsize)

def start (lostrate rttmin rttmax nmax : Int) : Tunnel where
  sim := LatencySimulator.create lostrate rttmin rttmax nmax
  given := fun _ => []
  lost := fun _ => 0
  refused := fun _ => 0
  queued := fun _ => []
  got := fun _ => []

/-- What happens to a packet of the side `x`: it is lost, or refused, or put on its way. -/
theorem send_cases (s : Tunnel) (x : Side) (data : Bytes) (luck : Luck) :
    let sent := { s with
      sim := s.sim.count x luck.draw, given := Function.update s.given x (s.given x ++ [(data, luck.clock)]) }
    (s.sim.Loses x luck.draw ∧
      s.send x data luck = { sent with lost := Function.update s.lost x (s.lost x + 1) }) ∨
    (¬ s.sim.Loses x luck.draw ∧ s.sim.Full x ∧
      s.send x data luck = { sent with refused := Function.update s.refused x (s.refused x + 1) }) ∨
    (¬ s.sim.Loses x luck.draw ∧ ¬ s.sim.Full x ∧
      s.send x data luck = { sent with
        sim := { sent.sim with p := Function.update s.sim.p x (s.sim.p x ++ [s.sim.packet data luck]) }
        queued := Function.update s.queued x (s.queued x ++ [s.sim.packet data luck]) }) := by
  intro sent
  by_cases hlost : s.sim.Loses x luck.draw
  · refine Or.inl ⟨hlost, ?_⟩
    simp [send, LatencySimulator.send, hlost, sent]
  · by_cases hfull : s.sim.Full x
    · refine Or.inr (Or.inl ⟨hlost, hfull, ?_⟩)
      simp [send, LatencySimulator.send, hlost, hfull, sent]
    · refine Or.inr (Or.inr ⟨hlost, hfull, ?_⟩)
      simp [send, LatencySimulator.send, hlost, hfull, sent]

/-- The numbers that mean a loss when they are drawn. -/
def isLoss (lostrate : Int) (n : Nat) : Bool := decide ((n : Int) < lostrate)

/-- How many of the numbers below a hundred these are. -/
def share (lostrate : Int) : Nat := (List.range 100).countP (isLoss lostrate)

-- the ten in a hundred of the default settings are five each way
example : share (Int.tdiv 10 2) = 5 := by decide

/-- How a packet is put on its way: with the bytes that were sent, and with a time that lies ahead of the sending by
what one way takes. -/
def PutAs (rttmin rttmax : Int) (g : Bytes × UInt32) (pkt : DelayPacket) : Prop :=
  pkt.data = g.1 ∧ ∃ late : Int, pkt.ts = g.2 + UInt32.ofInt (rttmin.tdiv 2 + late) ∧ 0 ≤ late ∧
    (late = 0 ∨ late < rttmax.tdiv 2 - rttmin.tdiv 2)

/-- How a packet is taken: with its bytes, and not before its time. -/
def TakenAs (pkt : DelayPacket) (e : Bytes × UInt32) : Prop := e.1 = pkt.data ∧ pkt.ts ≤ e.2

/-- What the simulator does with the packets of one side. -/
structure Carried (rttmin rttmax nmax : Int) (s : Tunnel) (x : Side) : Prop where
  /-- What was put on its way was sent, in this order. -/
  sent : ∃ kept, kept.Sublist (s.given x) ∧ List.Forall₂ (PutAs rttmin rttmax) kept (s.queued x)
  /-- What was taken and what is on its way is what was put on its way, in this order. -/
  order : ∃ taken, s.queued x = taken ++ s.sim.p x ∧ List.Forall₂ TakenAs taken (s.got x)
  room : (s.sim.p x).length ≤ nmax.toNat
  tx : s.sim.tx x = (s.given x).length
  all : (s.given x).length = s.lost x + s.refused x + (s.queued x).length

/-- Whatever is drawn, the share of losses is exact after each round of a hundred packets. -/
def Fair (lostrate : Int) (s : Tunnel) (x : Side) : Prop :=
  s.sim.tx x / 100 * share (lostrate.tdiv 2) ≤ s.lost x ∧
    s.lost x ≤ (s.sim.tx x + 99) / 100 * share (lostrate.tdiv 2)

/-- The settings are those of the constructor: each way has half of what is for a round trip. -/
structure Configured (lostrate rttmin rttmax nmax : Int) (s : Tunnel) : Prop where
  lostrate : s.sim.lostrate = lostrate.tdiv 2
  rttmin : s.sim.rttmin = rttmin.tdiv 2
  rttmax : s.sim.rttmax = rttmax.tdiv 2
  nmax : s.sim.nmax = nmax

/-- The numbers that were drawn for the packets of one side. -/
def Drawn (s : Tunnel) (x : Side) : Prop :=
  ∃ drawn, Random.Draws 100 drawn (s.sim.r x) ∧ drawn.length = s.sim.tx x ∧
    drawn.countP (isLoss s.sim.lostrate) = s.lost x

section

variable {lostrate rttmin rttmax nmax : Int}

theorem Drawn.fair {s : Tunnel} {x : Side} (h : s.Drawn x) (hset : s.Configured lostrate rttmin rttmax nmax) :
    s.Fair lostrate x := by
  obtain ⟨drawn, hdraws, hlength, hlost⟩ := h
  have hshare := hdraws.rounds.countP_le (isLoss s.sim.lostrate)
  rw [hlength, hlost, List.length_range, hset.lostrate] at hshare
  exact hshare

theorem configured_start (lostrate rttmin rttmax nmax : Int) :
    (start lostrate rttmin rttmax nmax).Configured lostrate rttmin rttmax nmax :=
  ⟨rfl, rfl, rfl, rfl⟩

theorem carried_start (lostrate rttmin rttmax nmax : Int) (x : Side) :
    (start lostrate rttmin rttmax nmax).Carried rttmin rttmax nmax x where
  sent := ⟨[], List.Sublist.refl [], List.Forall₂.nil⟩
  order := ⟨[], rfl, List.Forall₂.nil⟩
  room := Nat.zero_le _
  tx := rfl
  all := rfl

theorem drawn_start (lostrate rttmin rttmax nmax : Int) (x : Side) :
    (start lostrate rttmin rttmax nmax).Drawn x :=
  ⟨[], Random.Draws.create 100, rfl, rfl⟩

variable {s : Tunnel} {x : Side}

theorem Drawn.send (h : s.Drawn x) (y : Side) (data : Bytes) (luck : Luck) : (s.send y data luck).Drawn x := by
  obtain ⟨drawn, hdraws, hlength, hlost⟩ := h
  rcases eq_or_ne x y with rfl | hx
  · have hnext := hdraws.random (by decide) luck.draw
    refine ⟨drawn ++ [((s.sim.r x).random luck.draw).2], ?_⟩
    have hall : (drawn ++ [((s.sim.r x).random luck.draw).2]).length = s.sim.tx x + 1 := by
      rw [List.length_append, hlength, List.length_singleton]
    obtain ⟨hloses, heq⟩ | ⟨hloses, -, heq⟩ | ⟨hloses, -, heq⟩ := s.send_cases x data luck
    · have hmore : (drawn ++ [((s.sim.r x).random luck.draw).2]).countP (isLoss s.sim.lostrate) = s.lost x + 1 := by
        have hone : isLoss s.sim.lostrate ((s.sim.r x).random luck.draw).2 = true := decide_eq_true hloses
        rw [List.countP_append, hlost, List.countP_singleton, if_pos hone]
      rw [heq]
      simp only [count, Function.update_self]
      exact ⟨hnext, hall, hmore⟩
    all_goals
      have hmore : (drawn ++ [((s.sim.r x).random luck.draw).2]).countP (isLoss s.sim.lostrate) = s.lost x := by
        have hnone : isLoss s.sim.lostrate ((s.sim.r x).random luck.draw).2 = false := decide_eq_false hloses
        rw [List.countP_append, hlost, List.countP_singleton, hnone]
        rfl
      rw [heq]
      simp only [count, Function.update_self]
      exact ⟨hnext, hall, hmore⟩
  · refine ⟨drawn, ?_⟩
    obtain ⟨-, heq⟩ | ⟨-, -, heq⟩ | ⟨-, -, heq⟩ := s.send_cases y data luck
    all_goals
      rw [heq]
      simpa [count, Function.update_of_ne hx] using And.intro hdraws ⟨hlength, hlost⟩

/-- A packet of these settings. -/
theorem Configured.putAs (hset : s.Configured lostrate rttmin rttmax nmax) (data : Bytes) (luck : Luck) :
    PutAs rttmin rttmax (data, luck.clock) (s.sim.packet data luck) := by
  obtain ⟨late, hdelay, hlate, hbound⟩ := s.sim.delay_eq luck.jitter
  rw [hset.rttmin, hset.rttmax] at hbound
  rw [hset.rttmin] at hdelay
  refine ⟨rfl, late, ?_, hlate, hbound⟩
  rw [packet, hdelay]

theorem Configured.send (hset : s.Configured lostrate rttmin rttmax nmax) (y : Side) (data : Bytes) (luck : Luck) :
    (s.send y data luck).Configured lostrate rttmin rttmax nmax := by
  obtain ⟨-, heq⟩ | ⟨-, -, heq⟩ | ⟨-, -, heq⟩ := s.send_cases y data luck
  all_goals
    rw [heq]
    exact ⟨hset.lostrate, hset.rttmin, hset.rttmax, hset.nmax⟩

/-- A packet that is not put on its way is one more that was sent, and is counted once. -/
theorem Carried.dropped (h : s.Carried rttmin rttmax nmax x) (data : Bytes) (luck : Luck) {lost refused : Side → Nat}
    (hmore : lost x + refused x = s.lost x + s.refused x + 1) :
    ({ s with
      sim := s.sim.count x luck.draw
      given := Function.update s.given x (s.given x ++ [(data, luck.clock)])
      lost := lost
      refused := refused } : Tunnel).Carried rttmin rttmax nmax x := by
  obtain ⟨⟨kept, hkept, hput⟩, horder, hroom, htx, hall⟩ := h
  have hsent : kept.Sublist (s.given x ++ [(data, luck.clock)]) := hkept.trans (List.sublist_append_left _ _)
  refine ⟨⟨kept, ?_, hput⟩, horder, hroom, ?_, ?_⟩
  · simpa using hsent
  · simpa [count] using htx
  · simp
    omega

theorem Carried.send (h : s.Carried rttmin rttmax nmax x) (hset : s.Configured lostrate rttmin rttmax nmax)
    (y : Side) (data : Bytes) (luck : Luck) : (s.send y data luck).Carried rttmin rttmax nmax x := by
  rcases eq_or_ne x y with rfl | hx
  · obtain ⟨-, heq⟩ | ⟨-, -, heq⟩ | ⟨-, hfull, heq⟩ := s.send_cases x data luck
    · rw [heq]
      apply h.dropped data luck
      rw [Function.update_self]
      exact Nat.add_right_comm _ _ _
    · rw [heq]
      apply h.dropped data luck
      rw [Function.update_self]
      exact (Nat.add_assoc _ _ _).symm
    · obtain ⟨⟨kept, hkept, hput⟩, ⟨taken, horder, htaken⟩, hroom, htx, hall⟩ := h
      have hone : List.Forall₂ (PutAs rttmin rttmax) [(data, luck.clock)] [s.sim.packet data luck] :=
        List.Forall₂.cons (hset.putAs data luck) List.Forall₂.nil
      rw [heq]
      refine ⟨⟨kept ++ [(data, luck.clock)], ?_, ?_⟩, ⟨taken, ?_, htaken⟩, ?_, ?_, ?_⟩
      · simpa using hkept.append_right [(data, luck.clock)]
      · simpa using List.rel_append hput hone
      · simp [horder]
      · have hless : ((s.sim.p x).length : Int) < s.sim.nmax := not_le.1 hfull
        rw [hset.nmax] at hless
        simp
        omega
      · simpa [count] using htx
      · simp
        omega
  · -- a packet of the other side changes nothing here
    obtain ⟨⟨kept, hkept, hput⟩, ⟨taken, horder, htaken⟩, hroom, htx, hall⟩ := h
    obtain ⟨-, heq⟩ | ⟨-, -, heq⟩ | ⟨-, -, heq⟩ := s.send_cases y data luck
    all_goals
      rw [heq]
      refine ⟨⟨kept, ?_, ?_⟩, ⟨taken, ?_, htaken⟩, ?_, ?_, ?_⟩
      all_goals simpa [count, Function.update_of_ne hx]

/-- What `recv` of the side `y` does: nothing, or it takes the first packet of the other side. -/
theorem recv_cases (s : Tunnel) (y : Side) (clock : UInt32) (maxsize : Int) :
    s.recv y clock maxsize = s ∨
      ∃ pkt rest, s.sim.p y.peer = pkt :: rest ∧ pkt.ts ≤ clock ∧
        s.recv y clock maxsize = { s with
          sim := { s.sim with p := Function.update s.sim.p y.peer rest }
          got := Function.update s.got y.peer (s.got y.peer ++ [(pkt.data, clock)]) } := by
  obtain ⟨rc, hneg, heq⟩ | ⟨pkt, rest, hp, hdue, -, heq⟩ := s.sim.recv_cases y clock maxsize
  · left
    rw [Tunnel.recv, heq]
    dsimp only
    rw [if_neg (not_le.2 hneg)]
  · right
    refine ⟨pkt, rest, hp, UInt32.not_lt.1 hdue, ?_⟩
    rw [Tunnel.recv, heq]
    dsimp only
    rw [if_pos (Int.natCast_nonneg _), Int.toNat_natCast, List.take_length]

theorem Configured.recv (hset : s.Configured lostrate rttmin rttmax nmax) (y : Side) (clock : UInt32)
    (maxsize : Int) : (s.recv y clock maxsize).Configured lostrate rttmin rttmax nmax := by
  obtain heq | ⟨pkt, rest, -, -, heq⟩ := s.recv_cases y clock maxsize
  all_goals
    rw [heq]
    exact ⟨hset.lostrate, hset.rttmin, hset.rttmax, hset.nmax⟩

theorem Drawn.recv (h : s.Drawn x) (y : Side) (clock : UInt32) (maxsize : Int) :
    (s.recv y clock maxsize).Drawn x := by
  obtain heq | ⟨pkt, rest, -, -, heq⟩ := s.recv_cases y clock maxsize
  · rw [heq]
    exact h
  · rw [heq]
    exact h

theorem Carried.recv (h : s.Carried rttmin rttmax nmax x) (y : Side) (clock : UInt32) (maxsize : Int) :
    (s.recv y clock maxsize).Carried rttmin rttmax nmax x := by
  obtain heq | ⟨pkt, rest, hp, hdue, heq⟩ := s.recv_cases y clock maxsize
  · rw [heq]
    exact h
  · rw [heq]
    obtain ⟨hsent, ⟨taken, horder, htaken⟩, hroom, htx, hall⟩ := h
    rcases eq_or_ne x y.peer with rfl | hx
    · have hone : List.Forall₂ TakenAs [pkt] [(pkt.data, clock)] :=
        List.Forall₂.cons ⟨rfl, hdue⟩ List.Forall₂.nil
      refine ⟨hsent, ⟨taken ++ [pkt], ?_, ?_⟩, ?_, htx, hall⟩
      · rw [hp] at horder
        simpa using horder
      · simpa using List.rel_append htaken hone
      · rw [hp, List.length_cons] at hroom
        simp only [Function.update_self]
        omega
    · refine ⟨hsent, ⟨taken, ?_, ?_⟩, ?_, htx, hall⟩
      · simpa [Function.update_of_ne hx] using horder
      · simpa [Function.update_of_ne hx] using htaken
      · simpa [Function.update_of_ne hx] using hroom

end

/-- In any traffic of the two sides, whatever is drawn and however long the packets take. -/
theorem carried_of_traffic (lostrate rttmin rttmax nmax : Int) (as : List Traffic) :
    EveryState step (fun s => ∀ x, s.Carried rttmin rttmax nmax x ∧ s.Fair lostrate x)
      (start lostrate rttmin rttmax nmax) as := by
  have hkept : ∀ (s : Tunnel) a t,
      (s.Configured lostrate rttmin rttmax nmax ∧ ∀ x, s.Carried rttmin rttmax nmax x ∧ s.Drawn x) →
      step s a = some t →
      t.Configured lostrate rttmin rttmax nmax ∧ ∀ x, t.Carried rttmin rttmax nmax x ∧ t.Drawn x := by
    rintro s a t ⟨hset, hs⟩ hstep
    cases a with
    | send y data luck =>
        obtain rfl := Option.some.inj hstep
        refine ⟨hset.send y data luck, fun x => ?_⟩
        exact ⟨(hs x).1.send hset y data luck, (hs x).2.send y data luck⟩
    | recv y clock maxsize =>
        obtain rfl := Option.some.inj hstep
        refine ⟨hset.recv y clock maxsize, fun x => ?_⟩
        exact ⟨(hs x).1.recv y clock maxsize, (hs x).2.recv y clock maxsize⟩
  apply everyState_of_step hkept
  · exact fun s hs x => ⟨(hs.2 x).1, (hs.2 x).2.fair hs.1⟩
  · refine ⟨configured_start lostrate rttmin rttmax nmax, fun x => ?_⟩
    exact ⟨carried_start lostrate rttmin rttmax nmax x, drawn_start lostrate rttmin rttmax nmax x⟩

end Tunnel

end CppMisc.Kcp
