import CppMisc.Library.Runs
import CppMisc.Kcp.Numbering

/-!
# Two endpoints and the network between them (src/kcp_learn/test.cpp)

Two endpoints of one conversation send datagrams to each other. The network keeps every datagram that was
ever sent: it may deliver any of them at any time, again and again or never, which is loss, duplication and
reordering in one. It may also deliver datagrams of other conversations.

The application makes its calls at both ends in any order; `accepted` are the messages that `ikcp_send` took,
and `delivered` those that `ikcp_recv` handed out. A flush that would write behind the end of the assembly
buffer is no step: that is possible when `ikcp_setmtu` makes the buffer smaller than a segment in a queue, or
gets a size at which the size of the buffer wraps round.
-/

set_option autoImplicit false

namespace CppMisc.Kcp

open CppMisc.Library

/-- `kcp1` and `kcp2`. -/
inductive Side where
  | one
  | two
  deriving DecidableEq, Repr

def Side.peer : Side → Side
  | .one => .two
  | .two => .one

@[simp] theorem Side.peer_peer (x : Side) : x.peer.peer = x := by
  cases x <;> rfl

theorem Side.peer_ne (x : Side) : x.peer ≠ x := by
  cases x <;> exact Side.noConfusion

theorem Side.eq_peer_of_ne {x y : Side} (h : y ≠ x) : y = x.peer := by
  cases x <;> cases y <;> first | rfl | exact absurd rfl h

structure Net where
  kcp : Side → Ikcpcb
  wire : Side → List Bytes
  accepted : Side → List Bytes
  delivered : Side → List Bytes

inductive Action where
  | call (side : Side) (c : Call)
  | deliver (side : Side) (i : Nat)
  | stray (side : Side) (data : Bytes)
  deriving DecidableEq, Repr

/-- The size of `kcp->buffer`, which `ikcp_create` and `ikcp_setmtu` compute with 32 bits. -/
def bufferSize (mtu : Mtu) : Nat := ((UInt32.ofNat mtu.value + UInt32.ofNat overhead) * 3).toNat

theorem bufferSize_eq (mtu : Mtu) : bufferSize mtu = (mtu.value + overhead) * 3 % 2 ^ 32 := by
  rw [bufferSize, UInt32.toNat_mul, UInt32.toNat_add, UInt32.toNat_ofNat', UInt32.toNat_ofNat']
  simp [overhead]

/-- The buffer is at least as large as a datagram, but for the sizes at which it wraps round to a small one. -/
theorem le_bufferSize_iff (mtu : Mtu) :
    mtu.value ≤ bufferSize mtu ↔ mtu.value < 1431655742 ∨ 2147483612 ≤ mtu.value := by
  have hlt := mtu.lt
  rw [bufferSize_eq, overhead]
  by_cases hsmall : mtu.value < 1431655742
  · have hexact : (mtu.value + 24) * 3 % 2 ^ 32 = (mtu.value + 24) * 3 := Nat.mod_eq_of_lt (by omega)
    rw [hexact]
    omega
  · have hwrap : (mtu.value + 24) * 3 % 2 ^ 32 = (mtu.value + 24) * 3 - 2 ^ 32 := by
      rw [Nat.mod_eq_sub_mod (by omega), Nat.mod_eq_of_lt (by omega)]
    rw [hwrap]
    omega

/-- The message that a call hands over for sending. -/
def acceptedBy (c : Call) (o : Outcome) : List Bytes :=
  match c with
  | .send buffer => if o.rc = 0 then [buffer] else []
  | _ => []

/-- The message that a call takes out of the endpoint. -/
def deliveredBy (c : Call) (o : Outcome) : List Bytes :=
  match c with
  | .recv len => if 0 ≤ o.rc ∧ 0 ≤ len then [o.data] else []
  | _ => []

/-- The application makes a call at one side. -/
def Net.call (s : Net) (x : Side) (c : Call) : Net :=
  let o := (s.kcp x).call c
  { kcp := Function.update s.kcp x o.kcp
    wire := Function.update s.wire x (s.wire x ++ o.datagrams)
    accepted := Function.update s.accepted x (s.accepted x ++ acceptedBy c o)
    delivered := Function.update s.delivered x (s.delivered x ++ deliveredBy c o) }

/-- A datagram arrives at one side. -/
def Net.arrive (s : Net) (x : Side) (d : Bytes) : Net :=
  { s with kcp := Function.update s.kcp x (input (s.kcp x) d).1 }

def step (s : Net) : Action → Option Net
  | .call x c =>
      if ∀ d ∈ ((s.kcp x).call c).datagrams, d.length ≤ bufferSize (s.kcp x).mtu then some (s.call x c)
      else none
  | .deliver x i => (s.wire x.peer)[i]?.map (s.arrive x)
  | .stray x data =>
      if data.length < overhead ∨ getconv data ≠ (s.kcp x).conv then some (s.arrive x data) else none

/-- What one step does. -/
theorem step_cases {s t : Net} {a : Action} (h : step s a = some t) :
    (∃ x c, a = .call x c ∧ t = s.call x c) ∨
      (∃ x d, d ∈ s.wire x.peer ∧ t = s.arrive x d) ∨
      ∃ x d, (d.length < overhead ∨ getconv d ≠ (s.kcp x).conv) ∧ t = s.arrive x d := by
  cases a with
  | call x c =>
      have hstep := Option.ite_none_right_eq_some.1 h
      exact Or.inl ⟨x, c, rfl, (Option.some.inj hstep.2).symm⟩
  | deliver x i =>
      obtain ⟨d, hd, rfl⟩ := Option.map_eq_some_iff.1 h
      exact Or.inr (Or.inl ⟨x, d, List.mem_of_getElem? hd, rfl⟩)
  | stray x data =>
      have hstep := Option.ite_none_right_eq_some.1 h
      exact Or.inr (Or.inr ⟨x, data, hstep.1, (Option.some.inj hstep.2).symm⟩)

/-- An endpoint is as before a step, or one event happened at it. -/
theorem kcp_of_step {s t : Net} {a : Action} (h : step s a = some t) (x : Side) :
    t.kcp x = s.kcp x ∨ ∃ e, t.kcp x = (s.kcp x).event e := by
  have hupdate : ∀ (y : Side) (k : Ikcpcb) (e : Event), k = (s.kcp y).event e →
      Function.update s.kcp y k x = s.kcp x ∨ ∃ e, Function.update s.kcp y k x = (s.kcp x).event e := by
    intro y k e hk
    by_cases hx : x = y
    · subst hx
      exact Or.inr ⟨e, by rw [Function.update_self, hk]⟩
    · exact Or.inl (Function.update_of_ne hx _ _)
  obtain ⟨y, c, -, rfl⟩ | ⟨y, d, -, rfl⟩ | ⟨y, d, -, rfl⟩ := step_cases h
  · exact hupdate y _ (.call c) rfl
  · exact hupdate y _ (.input d) rfl
  · exact hupdate y _ (.input d) rfl

/-- Both endpoints are created for one conversation; `stream` is set by hand. -/
def start (conv : UInt32) (stream : Side → Int32) : Net where
  kcp := fun x => { create conv with stream := stream x }
  wire := fun _ => []
  accepted := fun _ => []
  delivered := fun _ => []

/-- Both sides have room for the numbers of one more flush below `2 ^ 31`. -/
def Few (s : Net) (_ : Action) : Prop := ∀ x, (s.kcp x).sndNxt.toNat + 2 ^ 16 ≤ 2 ^ 31

instance (s : Net) (a : Action) : Decidable (Few s a) :=
  decidable_of_iff ((s.kcp .one).sndNxt.toNat + 2 ^ 16 ≤ 2 ^ 31 ∧ (s.kcp .two).sndNxt.toNat + 2 ^ 16 ≤ 2 ^ 31)
    ⟨fun h x => match x with
      | .one => h.1
      | .two => h.2, fun h => ⟨h .one, h .two⟩⟩

end CppMisc.Kcp
