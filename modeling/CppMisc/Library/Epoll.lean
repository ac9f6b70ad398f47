import Mathlib.Tactic

/-!
# An epoll interest set

The kernel keeps for each registered descriptor the requested event bits and one word of user data.
`ctl` is `epoll_ctl`: adding needs a descriptor that is not registered, modifying and deleting one that
is, and the kernel may refuse any call for reasons of its own, which the argument `ok` decides. `close`
takes a descriptor out, as the kernel does when the last reference to the open file goes.

The events that `epoll_wait` reports for a descriptor are bits of its registered mask, apart from
`EPOLLERR` and `EPOLLHUP`, which are reported unasked (`Report.Among`).
-/

set_option autoImplicit false

namespace CppMisc.Library

universe u

/-- The requested event bits. -/
structure Mask where
  epollin : Bool
  epollout : Bool
  deriving Repr, DecidableEq

/-- The mask `EPOLLIN`. -/
def Mask.input : Mask := ⟨true, false⟩

/-- The mask `EPOLLOUT`. -/
def Mask.output : Mask := ⟨false, true⟩

/-- The bits of one reported event. -/
structure Report where
  epollin : Bool
  epollout : Bool
  epollerr : Bool
  epollhup : Bool
  deriving Repr, DecidableEq

/-- Input and output readiness are reported only to those who asked. -/
def Report.Among (r : Report) (m : Mask) : Prop :=
  (r.epollin → m.epollin) ∧ (r.epollout → m.epollout)

instance (r : Report) (m : Mask) : Decidable (r.Among m) :=
  inferInstanceAs (Decidable (_ ∧ _))

/-- What is kept for a registered descriptor: its mask and the word `data`. -/
structure Registration (D : Type u) where
  mask : Mask
  data : D
  deriving Repr, DecidableEq

/-- The interest set, by descriptor. -/
abbrev Interest (D : Type u) := Nat → Option (Registration D)

inductive CtlOp where
  | add
  | mod
  | del
  deriving Repr, DecidableEq

/-- `epoll_ctl` on the slot of its own descriptor. `EEXIST` and `ENOENT` rule out adding what is there
and changing what is not; `ok` says whether the kernel is otherwise willing. -/
def ctlSlot {D : Type u} (op : CtlOp) (slot : Option (Registration D)) (r : Registration D)
    (ok : Bool) : Option (Registration D) :=
  match op, slot, ok with
  | .add, none, true => some r
  | .mod, some _, true => some r
  | .del, some _, true => none
  | _, slot, _ => slot

namespace Interest

variable {D : Type u}

/-- `epoll_ctl`. -/
def ctl (i : Interest D) (op : CtlOp) (fd : Nat) (r : Registration D) (ok : Bool) : Interest D :=
  Function.update i fd (ctlSlot op (i fd) r ok)

/-- `close` takes the descriptor out of the set. -/
def close (i : Interest D) (fd : Nat) : Interest D := Function.update i fd none

variable {i : Interest D} {op : CtlOp} {fd fd' : Nat} {r : Registration D} {ok : Bool}

@[simp] theorem ctl_self : i.ctl op fd r ok fd = ctlSlot op (i fd) r ok := by simp [ctl]

/-- An operation on one descriptor leaves the others alone. -/
theorem ctl_of_ne (h : fd' ≠ fd) : i.ctl op fd r ok fd' = i fd' := by simp [ctl, h]

@[simp] theorem close_self : i.close fd fd = none := by simp [close]

theorem close_of_ne (h : fd' ≠ fd) : i.close fd fd' = i fd' := by simp [close, h]

end Interest

section Slots

variable {D : Type u} {slot : Option (Registration D)} {r q : Registration D} {op : CtlOp}

/-- A registration that `epoll_ctl` leaves behind is the old one or the one it was given. -/
theorem ctlSlot_eq_some {ok : Bool} (h : ctlSlot op slot r ok = some q) : slot = some q ∨ r = q := by
  cases op with
  | add => cases slot <;> cases ok <;> simp_all [ctlSlot]
  | mod => cases slot <;> cases ok <;> simp_all [ctlSlot]
  | del => cases slot <;> cases ok <;> simp_all [ctlSlot]

/-- Adding to an empty slot succeeds exactly when the kernel is willing. -/
@[simp] theorem ctlSlot_add_none (ok : Bool) :
    ctlSlot .add none r ok = if ok then some r else none := by
  cases ok with
  | true => rfl
  | false => rfl

@[simp] theorem ctlSlot_add_some (ok : Bool) : ctlSlot .add (some q) r ok = some q := rfl

@[simp] theorem ctlSlot_mod_none (ok : Bool) : ctlSlot .mod none r ok = none := rfl

@[simp] theorem ctlSlot_mod_some (ok : Bool) :
    ctlSlot .mod (some q) r ok = some (if ok then r else q) := by
  cases ok with
  | true => rfl
  | false => rfl

@[simp] theorem ctlSlot_del_none (ok : Bool) : ctlSlot .del none r ok = none := rfl

@[simp] theorem ctlSlot_del_some (ok : Bool) :
    ctlSlot .del (some q) r ok = if ok then none else some q := by
  cases ok with
  | true => rfl
  | false => rfl

end Slots

end CppMisc.Library
