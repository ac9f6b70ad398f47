import Mathlib.Tactic
import CppMisc.Library.Runs

/-!
# The smart pointer of `unique_ptr/unique_ptr.cc`

A program works with any number of handles `unique_ptr<T>`, for classes `T` that may derive from each other.
The class template declares a constructor from a raw pointer, a constructor template from an rvalue handle of
any class, an assignment operator that takes its argument by value, and a destructor.

A constructor template is never a copy or move constructor, so it does not suppress the copy constructor that
the compiler generates: from an lvalue of the same class a handle is copied member by member. From an rvalue
that is not `const` the template is the better match, and the moves below are from such rvalues. The template
takes no `const` rvalue, so from one of the same class the copy constructor is selected, as from an lvalue. There
is no generated move constructor, since the class declares a destructor and an assignment operator. An lvalue
handle of another class matches no constructor.

Objects are numbered in the order in which their raw pointers are given to handles. The log records the
deletions, and the releases to the outside through a call of `release`; the calls of `release` inside the
constructor template pass the object on to another handle and are not logged.
-/

set_option autoImplicit false

namespace CppMisc.UniquePtr

open CppMisc.Library

universe u

/-- A live handle: the class it was declared for, and `m_ptr`. -/
structure Handle (C : Type u) where
  cls : C
  mPtr : Option Nat
  deriving Repr, DecidableEq

inductive Event where
  | deleted (p : Nat)
  | released (p : Nat)
  deriving Repr, DecidableEq

/-- The object that an event is about. -/
def Event.object : Event → Nat
  | .deleted p => p
  | .released p => p

/-- The live handles, the number of the next object, and what has happened to the objects so far. -/
structure State (C : Type u) where
  handles : Nat → Option (Handle C)
  next : Nat
  log : List Event

/-- The operations that the class admits. -/
inductive Act (C : Type u) where
  | constructNull (h : Nat) (cls : C)
  | construct (h : Nat) (cls : C)
  | copyConstruct (h g : Nat)
  | moveConstruct (h : Nat) (cls : C) (g : Nat)
  | copyAssign (a b : Nat)
  | moveAssign (a b : Nat)
  | swap (a b : Nat)
  | release (a : Nat)
  | destroy (a : Nat)
  deriving Repr, DecidableEq

section Operations

variable {C : Type u}

/-- Write a handle. -/
def State.set (s : State C) (h : Nat) (x : Option (Handle C)) : State C :=
  { s with handles := Function.update s.handles h x }

/-- `delete m_ptr`; deleting the null pointer does nothing. -/
def State.delete (s : State C) (ptr : Option Nat) : State C :=
  match ptr with
  | none => s
  | some p => { s with log := s.log ++ [.deleted p] }

/-- The body of `operator=` with its argument `rhs`: the pointers are swapped, and the argument is destroyed
at the end of the call. -/
def assign (s : State C) (a : Nat) (x : Handle C) (rhs : Option Nat) : State C :=
  (s.set a (some { x with mPtr := rhs })).delete x.mPtr

variable [DecidableEq C] (derives : C → C → Bool)

/-- One operation; `derives c d` says that the class `c` is `d` or derives from it. An operation on a handle
that is not live, or a construction over one that is, does not occur. -/
def step (s : State C) : Act C → Option (State C)
  | .constructNull h cls =>
      if s.handles h = none then some (s.set h (some ⟨cls, none⟩)) else none
  | .construct h cls =>
      if s.handles h = none then
        some { (s.set h (some ⟨cls, some s.next⟩)) with next := s.next + 1 }
      else none
  | .copyConstruct h g =>
      match s.handles h, s.handles g with
      | none, some y => some (s.set h (some ⟨y.cls, y.mPtr⟩))
      | _, _ => none
  | .moveConstruct h cls g =>
      match s.handles h, s.handles g with
      | none, some y =>
          if derives y.cls cls then
            some ((s.set g (some { y with mPtr := none })).set h (some ⟨cls, y.mPtr⟩))
          else none
      | _, _ => none
  | .copyAssign a b =>
      match s.handles a, s.handles b with
      | some x, some y => if y.cls = x.cls then some (assign s a x y.mPtr) else none
      | _, _ => none
  | .moveAssign a b =>
      match s.handles b with
      | none => none
      | some y =>
          -- the argument is constructed first, which empties `b`
          let t := s.set b (some { y with mPtr := none })
          match t.handles a with
          | none => none
          | some x => if derives y.cls x.cls then some (assign t a x y.mPtr) else none
  | .swap a b =>
      match s.handles a, s.handles b with
      | some x, some y =>
          if y.cls = x.cls then
            some ((s.set a (some { x with mPtr := y.mPtr })).set b (some { y with mPtr := x.mPtr }))
          else none
      | _, _ => none
  | .release a =>
      match s.handles a with
      | none => none
      | some x =>
          let s := s.set a (some { x with mPtr := none })
          match x.mPtr with
          | none => some s
          | some p => some { s with log := s.log ++ [.released p] }
  | .destroy a =>
      match s.handles a with
      | none => none
      | some x => some ((s.set a none).delete x.mPtr)

end Operations

/-- Before the first handle. -/
def start {C : Type u} : State C := ⟨fun _ => none, 0, []⟩

end CppMisc.UniquePtr
