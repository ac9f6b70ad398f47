import Mathlib.Tactic
import CppMisc.UniquePtr.Model

/-!
# Unique ownership

No two live handles should hold the same object, and every object should be deleted at most once and not
after it was released. The moves keep this: each of them hands pointers on along a map of handles, and the
one pointer that is dropped is deleted or released (`Inv.transfer`).

The generated copy constructor does not. It is used by a construction from an lvalue and for the argument of
an assignment from an lvalue, so both leave two handles with one object, and a self-assignment deletes the
object that the handle goes on holding. Only the copy of an empty handle is harmless, and this is the
condition `CopiesNull`.
-/

set_option autoImplicit false

namespace CppMisc.UniquePtr

open CppMisc.Library

universe u

variable {C : Type u}

/-- What a handle holds; a handle that is not live holds nothing. -/
def State.ptr (s : State C) (h : Nat) : Option Nat := (s.handles h).bind Handle.mPtr

/-- At most one live handle holds an object, and no object is deleted twice or after its release. -/
structure UniqueOwnership (s : State C) : Prop where
  sole : ∀ h g p, s.ptr h = some p → s.ptr g = some p → h = g
  once : ∀ p, s.log.count (.deleted p) ≤ 1
  notReleased : ∀ p, ¬ [Event.released p, Event.deleted p].Sublist s.log

/-- Lvalue handles are used only while they are empty. -/
def CopiesNull (s : State C) : Act C → Prop
  | .copyConstruct _ g => s.ptr g = none
  | .copyAssign _ b => s.ptr b = none
  | _ => True

/-! ## The invariant -/

/-- Held objects have no history yet, and each object has at most one event. -/
structure Inv (s : State C) : Prop where
  sole : ∀ h g p, s.ptr h = some p → s.ptr g = some p → h = g
  held : ∀ h p, s.ptr h = some p → p < s.next ∧ p ∉ s.log.map Event.object
  nodup : (s.log.map Event.object).Nodup
  bounded : ∀ ev ∈ s.log, ev.object < s.next

theorem inv_start : Inv (start : State C) := by
  constructor
  · intro h g p hp
    cases hp
  · intro h p hp
    cases hp
  · exact List.nodup_nil
  · intro ev hev
    cases hev

theorem Inv.uniqueOwnership {s : State C} (hs : Inv s) : UniqueOwnership s := by
  constructor
  · exact hs.sole
  · intro p
    have hcount := List.nodup_iff_count_le_one.1 hs.nodup p
    exact le_trans (List.count_le_count_map (f := Event.object)) hcount
  · intro p hsub
    -- both events are about `p`, and there is only one such event
    have hpair : [p, p].Sublist (s.log.map Event.object) := hsub.map Event.object
    simpa using hs.nodup.sublist hpair

/-- Pointers are handed on along `f`, and what no handle gets is the object of the new event. -/
theorem Inv.transfer {s t : State C} (hs : Inv s) (f : Nat → Nat) (ev : Option Event)
    (hnext : t.next = s.next) (hlog : t.log = s.log ++ ev.toList)
    (hf : ∀ h p, t.ptr h = some p → s.ptr (f h) = some p)
    (hinj : ∀ h g p q, t.ptr h = some p → t.ptr g = some q → f h = f g → h = g)
    (hev : ∀ e, ev = some e →
      ∃ k, s.ptr k = some e.object ∧ ∀ h p, t.ptr h = some p → f h ≠ k) : Inv t := by
  have hfresh : ∀ e, ev = some e → e.object ∉ s.log.map Event.object := by
    intro e he
    obtain ⟨k, hk, _⟩ := hev e he
    exact (hs.held k _ hk).2
  constructor
  · intro h g p hh hg
    exact hinj h g p p hh hg (hs.sole _ _ p (hf h p hh) (hf g p hg))
  · intro h p hp
    obtain ⟨hlt, hmem⟩ := hs.held _ p (hf h p hp)
    refine ⟨hnext ▸ hlt, ?_⟩
    rw [hlog, List.map_append, List.mem_append, not_or]
    refine ⟨hmem, ?_⟩
    cases ev with
    | none => simp
    | some e =>
        obtain ⟨k, hk, hne⟩ := hev e rfl
        simp only [Option.toList_some, List.map_cons, List.map_nil, List.mem_singleton]
        rintro rfl
        exact hne h _ hp (hs.sole _ _ _ (hf h _ hp) hk)
  · rw [hlog, List.map_append]
    cases ev with
    | none => simpa using hs.nodup
    | some e =>
        have hnew := hfresh e rfl
        simp only [Option.toList_some, List.map_cons, List.map_nil]
        exact List.Nodup.append hs.nodup (List.nodup_singleton _) (by simpa using hnew)
  · intro e he
    rw [hlog, List.mem_append] at he
    rw [hnext]
    rcases he with hold | hnew
    · exact hs.bounded e hold
    · obtain ⟨k, hk, _⟩ := hev e (by simpa using hnew)
      exact (hs.held k _ hk).1

/-! ## The pointers after an operation -/

section Pointers

variable (s : State C) (h g : Nat) (x : Option (Handle C))

theorem ptr_set : (s.set h x).ptr g = if g = h then x.bind Handle.mPtr else s.ptr g := by
  by_cases hg : g = h
  · simp [State.ptr, State.set, hg]
  · simp [State.ptr, State.set, hg]

theorem ptr_delete (p : Option Nat) : (s.delete p).ptr g = s.ptr g := by
  cases p with
  | none => rfl
  | some p => rfl

theorem delete_log (p : Option Nat) : (s.delete p).log = s.log ++ (p.map Event.deleted).toList := by
  cases p with
  | none => simp [State.delete]
  | some p => rfl

theorem delete_next (p : Option Nat) : (s.delete p).next = s.next := by
  cases p with
  | none => rfl
  | some p => rfl

end Pointers

theorem ptr_of_handle {s : State C} {h : Nat} {x : Handle C} (hx : s.handles h = some x) :
    s.ptr h = x.mPtr := by
  simp [State.ptr, hx]

/-- A handle becomes empty, or a new empty one is made, and the event is about what it held. -/
theorem Inv.drop {s t : State C} (hs : Inv s) {h : Nat} {x : Option (Handle C)} (ev : Option Event)
    (hx : x.bind Handle.mPtr = none) (hev : ev.map Event.object = s.ptr h)
    (hptr : ∀ g, t.ptr g = (s.set h x).ptr g) (hnext : t.next = s.next)
    (hlog : t.log = s.log ++ ev.toList) : Inv t := by
  have hne : ∀ g p, t.ptr g = some p → g ≠ h ∧ s.ptr g = some p := by
    intro g p hg
    rw [hptr, ptr_set] at hg
    split at hg
    · rw [hx] at hg
      cases hg
    next hgh => exact ⟨hgh, hg⟩
  apply hs.transfer id ev hnext hlog
  · exact fun g p hg => (hne g p hg).2
  · exact fun _ _ _ _ _ _ heq => heq
  · intro e he
    refine ⟨h, ?_, fun g p hg => (hne g p hg).1⟩
    rw [← hev, he]
    rfl

/-- An empty handle is written over a handle that holds nothing, or where there is none. -/
theorem Inv.setEmpty {s : State C} (hs : Inv s) {h : Nat} {x : Option (Handle C)}
    (hx : x.bind Handle.mPtr = none) (hnone : s.ptr h = none) : Inv (s.set h x) := by
  apply hs.drop (h := h) none hx
  · simp [hnone]
  · exact fun _ => rfl
  · rfl
  · simp [State.set]

/-- A handle is emptied or ends, and what it held is deleted. -/
theorem Inv.deleteHeld {s : State C} (hs : Inv s) {a : Nat} {x : Handle C} {y : Option (Handle C)}
    (ha : s.handles a = some x) (hy : y.bind Handle.mPtr = none) :
    Inv ((s.set a y).delete x.mPtr) := by
  apply hs.drop (h := a) (x := y) (x.mPtr.map Event.deleted) hy
  · rw [ptr_of_handle ha]
    cases x.mPtr with
    | none => rfl
    | some p => rfl
  · exact fun g => ptr_delete _ g _
  · exact delete_next _ _
  · exact delete_log _ _

/-- The handle `a` takes over what `b` held, `b` becomes empty, and the event is about what `a` held. -/
theorem Inv.take {s t : State C} (hs : Inv s) {a b : Nat} (ev : Option Event)
    (hptr : ∀ g, t.ptr g = if g = a then s.ptr b else if g = b then none else s.ptr g)
    (hev : ∀ e, ev = some e → a ≠ b ∧ s.ptr a = some e.object) (hnext : t.next = s.next)
    (hlog : t.log = s.log ++ ev.toList) : Inv t := by
  have hcases : ∀ g p, t.ptr g = some p → (g = a ∧ s.ptr b = some p) ∨
      (g ≠ a ∧ g ≠ b ∧ s.ptr g = some p) := by
    intro g p hg
    rw [hptr] at hg
    by_cases hga : g = a
    · exact .inl ⟨hga, by simpa [hga] using hg⟩
    · by_cases hgb : g = b
      · rw [if_neg hga, if_pos hgb] at hg
        cases hg
      · exact .inr ⟨hga, hgb, by simpa [hga, hgb] using hg⟩
  apply hs.transfer (fun g => if g = a then b else g) ev hnext hlog
  · intro g p hg
    rcases hcases g p hg with ⟨rfl, hb⟩ | ⟨hga, _, hsame⟩
    · simpa using hb
    · simpa [hga] using hsame
  · intro g k p q hg hk heq
    rcases hcases g p hg with ⟨rfl, _⟩ | ⟨hga, hgb, _⟩
    · rcases hcases k q hk with ⟨rfl, _⟩ | ⟨hka, hkb, _⟩
      · rfl
      · simp [hka] at heq
        exact absurd heq.symm hkb
    · rcases hcases k q hk with ⟨rfl, _⟩ | ⟨hka, hkb, _⟩
      · simp [hga] at heq
        exact absurd heq hgb
      · simpa [hga, hka] using heq
  · intro e he
    obtain ⟨hab, ha⟩ := hev e he
    refine ⟨a, ha, fun g p hg => ?_⟩
    rcases hcases g p hg with ⟨rfl, _⟩ | ⟨hga, _, _⟩
    · simpa using hab.symm
    · simp [hga]

/-- The constructor template: a new handle takes over what `g` held. -/
theorem Inv.moveConstruct {s : State C} (hs : Inv s) {h g : Nat} {y : Handle C} (cls : C)
    (hg : s.handles g = some y) :
    Inv ((s.set g (some { y with mPtr := none })).set h (some ⟨cls, y.mPtr⟩)) := by
  apply hs.take (a := h) (b := g) none
  · intro j
    rw [ptr_set, ptr_set, ptr_of_handle hg]
    rfl
  · intro e he
    cases he
  · rfl
  · simp [State.set]

/-- `operator=` with an argument that has taken over what `b` held. If `a` is `b`, it is empty by then and
nothing is deleted. -/
theorem Inv.moveAssign {s : State C} (hs : Inv s) {a b : Nat} {x y : Handle C}
    (hb : s.handles b = some y)
    (ha : (s.set b (some { y with mPtr := none })).handles a = some x) :
    Inv (assign (s.set b (some { y with mPtr := none })) a x y.mPtr) := by
  have hx : x.mPtr = if a = b then none else s.ptr a := by
    rw [← ptr_of_handle ha, ptr_set]
    rfl
  apply hs.take (a := a) (b := b) (x.mPtr.map Event.deleted)
  · intro g
    rw [assign, ptr_delete, ptr_set, ptr_set, ptr_of_handle hb]
    rfl
  · intro e he
    obtain ⟨p, hp, rfl⟩ := Option.map_eq_some_iff.1 he
    rw [hx] at hp
    split at hp
    next => cases hp
    next hab => exact ⟨hab, hp⟩
  · rw [assign, delete_next]
    rfl
  · rw [assign, delete_log]
    rfl

/-- The handles `a` and `b` exchange what they hold. -/
theorem Inv.swap {s : State C} (hs : Inv s) {a b : Nat} {x y : Handle C} (ha : s.handles a = some x)
    (hb : s.handles b = some y) :
    Inv ((s.set a (some { x with mPtr := y.mPtr })).set b (some { y with mPtr := x.mPtr })) := by
  have hptr : ∀ g, ((s.set a (some { x with mPtr := y.mPtr })).set b
      (some { y with mPtr := x.mPtr })).ptr g = s.ptr (Equiv.swap a b g) := by
    intro g
    rw [ptr_set, ptr_set]
    by_cases hgb : g = b
    · simp [hgb, ptr_of_handle ha]
    · by_cases hga : g = a
      · subst hga
        simp [hgb, ptr_of_handle hb]
      · simp [hga, hgb, Equiv.swap_apply_of_ne_of_ne hga hgb]
  apply hs.transfer (Equiv.swap a b) none
  · rfl
  · simp [State.set]
  · intro g p hg
    rw [← hptr]
    exact hg
  · exact fun g k p q _ _ heq => (Equiv.swap a b).injective heq
  · intro e he
    cases he

/-- A new handle with a fresh object. -/
theorem Inv.construct {s : State C} (hs : Inv s) (h : Nat) (cls : C) :
    Inv { (s.set h (some ⟨cls, some s.next⟩)) with next := s.next + 1 } := by
  have hptr : ∀ g, State.ptr { (s.set h (some ⟨cls, some s.next⟩)) with next := s.next + 1 } g =
      if g = h then some s.next else s.ptr g := by
    intro g
    exact ptr_set s h g (some ⟨cls, some s.next⟩)
  have hnew : ∀ g, s.ptr g ≠ some s.next := by
    intro g hg
    exact absurd (hs.held g _ hg).1 (lt_irrefl _)
  constructor
  · intro g k p hg hk
    rw [hptr] at hg hk
    split at hg
    next hgh =>
      cases hg
      split at hk
      next hkh => exact hgh.trans hkh.symm
      next => exact absurd hk (hnew k)
    next =>
      split at hk
      next =>
        cases hk
        exact absurd hg (hnew g)
      next => exact hs.sole g k p hg hk
  · intro g p hg
    rw [hptr] at hg
    split at hg
    next =>
      cases hg
      refine ⟨Nat.lt_succ_self _, fun hmem => ?_⟩
      obtain ⟨e, he, hobj⟩ := List.mem_map.1 hmem
      exact absurd (hs.bounded e he) (by omega)
    next =>
      obtain ⟨hlt, hmem⟩ := hs.held g p hg
      exact ⟨Nat.lt_succ_of_lt hlt, hmem⟩
  · exact hs.nodup
  · intro e he
    exact Nat.lt_succ_of_lt (hs.bounded e he)

/-! ## Runs -/

section Runs

variable [DecidableEq C] {derives : C → C → Bool} {s t : State C}

theorem inv_step {a : Act C} (hs : Inv s) (hnull : CopiesNull s a)
    (h : step derives s a = some t) : Inv t := by
  cases a with
  | constructNull k cls =>
      simp only [step] at h
      split at h
      next hk =>
        cases h
        exact hs.setEmpty rfl (by simp [State.ptr, hk])
      next => cases h
  | construct k cls =>
      simp only [step] at h
      split at h
      next hk =>
        cases h
        exact hs.construct k cls
      next => cases h
  | copyConstruct k g =>
      simp only [step] at h
      split at h
      next y hk hg =>
        -- the copied handle is empty
        cases h
        have hy : y.mPtr = none := by simpa [CopiesNull, ptr_of_handle hg] using hnull
        exact hs.setEmpty (by simp [hy]) (by simp [State.ptr, hk])
      next => cases h
  | moveConstruct k cls g =>
      simp only [step] at h
      split at h
      next y hk hg =>
        split at h
        next =>
          cases h
          exact hs.moveConstruct cls hg
        next => cases h
      next => cases h
  | copyAssign a b =>
      simp only [step] at h
      split at h
      next x y ha hb =>
        split at h
        next =>
          -- the argument is a copy of an empty handle
          cases h
          have hy : y.mPtr = none := by simpa [CopiesNull, ptr_of_handle hb] using hnull
          exact hs.deleteHeld ha (by simp [hy])
        next => cases h
      next => cases h
  | moveAssign a b =>
      simp only [step] at h
      split at h
      next => cases h
      next y hb =>
        split at h
        next => cases h
        next x ha =>
          split at h
          next =>
            cases h
            exact hs.moveAssign hb ha
          next => cases h
  | swap a b =>
      simp only [step] at h
      split at h
      next x y ha hb =>
        split at h
        next =>
          cases h
          exact hs.swap ha hb
        next => cases h
      next => cases h
  | release a =>
      simp only [step] at h
      split at h
      next => cases h
      next x ha =>
        split at h
        next hx =>
          cases h
          exact hs.setEmpty rfl (by simp [ptr_of_handle ha, hx])
        next p hx =>
          cases h
          apply hs.drop (h := a) (x := some { x with mPtr := none }) (some (.released p)) rfl
          · rw [ptr_of_handle ha, hx]
            rfl
          · exact fun _ => rfl
          · rfl
          · rfl
  | destroy a =>
      simp only [step] at h
      split at h
      next => cases h
      next x ha =>
        cases h
        exact hs.deleteHeld ha rfl

end Runs

/-- **Ownership is unique as long as only empty lvalue handles are copied.** For every hierarchy of classes
and every sequence of operations on any number of handles in which constructions and assignments from an
lvalue are made only from a handle that holds nothing, in every state no two live handles hold the same
object, and no object has been deleted twice or after its release. -/
theorem uniqueOwnership_of_copiesNull [DecidableEq C] (derives : C → C → Bool) (as : List (Act C))
    (h : EveryStep (step derives) CopiesNull start as) :
    EveryState (step derives) UniqueOwnership start as := by
  have hkept : ∀ s a t, Inv s → CopiesNull s a → step derives s a = some t → Inv t :=
    fun _ _ _ hs hnull ht => inv_step hs hnull ht
  exact everyState_of_everyStep hkept (fun _ hs => hs.uniqueOwnership) as start inv_start h

instance [DecidableEq C] (s : State C) (a : Act C) : Decidable (CopiesNull s a) :=
  match a with
  | .copyConstruct _ g => inferInstanceAs (Decidable (s.ptr g = none))
  | .copyAssign _ b => inferInstanceAs (Decidable (s.ptr b = none))
  | .constructNull _ _ => isTrue trivial
  | .construct _ _ => isTrue trivial
  | .moveConstruct _ _ _ => isTrue trivial
  | .moveAssign _ _ => isTrue trivial
  | .swap _ _ => isTrue trivial
  | .release _ => isTrue trivial
  | .destroy _ => isTrue trivial

/-- The classes of the demonstration. -/
inductive Shapes where
  | shape
  | circle
  | triangle
  deriving Repr, DecidableEq

/-- Every class derives from `Shape`. -/
def Shapes.derives (c d : Shapes) : Bool := d == .shape || c == d

/-- Control: the moves of `test_smart_ptr`, a self-move, and the assignment of a moved-from lvalue. -/
theorem uniqueOwnership_test_smart_ptr :
    EveryState (step Shapes.derives) UniqueOwnership start
      [.construct 0 .shape, .moveConstruct 1 .shape 0, .construct 2 .triangle,
        .moveConstruct 3 .shape 2, .moveAssign 3 3, .copyAssign 1 0, .release 3, .destroy 3,
        .destroy 1] := by
  apply uniqueOwnership_of_copiesNull
  decide

/-- Control: `unique_ptr<Shape> obj2{obj}` compiles, and both handles hold the object. -/
theorem copy_shares_object :
    ¬ ∀ (C : Type) (_ : DecidableEq C) (derives : C → C → Bool) (as : List (Act C)),
      EveryState (step derives) UniqueOwnership start as := by
  intro h
  have hrun := h Shapes inferInstance Shapes.derives [.construct 0 .shape, .copyConstruct 1 0]
  have hlast : UniqueOwnership _ := (hrun.2 _ rfl).2 _ rfl
  exact absurd (hlast.sole 0 1 0 rfl rfl) (by decide)

end CppMisc.UniquePtr
