import Mathlib.Tactic

/-!
# Drawing without replacement

A pool is a list of which the first `size` places are left to be drawn. A draw takes the element of one of them,
and the last place that is left moves into it, so that a draw costs the same however large the pool is.

What is drawn and what is left are always what was there before (`Pool.perm_draw`), in any order of draws. When
everything is put back after the last draw, each round of draws has all of the elements (`Pool.Rounds`), so that
elements of a kind come as often as their share is, but for one round (`Pool.Rounds.countP_le`).
-/

set_option autoImplicit false

namespace CppMisc.Library

universe u

variable {α : Type u}

/-- Overwriting a place with the last one takes its element out. -/
theorem getElem_cons_set_perm {l : List α} {last : α} {i : Nat} (hi : i < (l ++ [last]).length) :
    ((l ++ [last])[i] :: l.set i last).Perm (l ++ [last]) := by
  rw [List.length_append, List.length_singleton] at hi
  by_cases hlast : i = l.length
  · subst hlast
    rw [List.getElem_concat_length rfl, List.set_eq_of_length_le le_rfl]
    exact (List.perm_append_singleton last l).symm
  · have hlt : i < l.length := by omega
    rw [List.getElem_append_left hlt]
    calc (l[i] :: l.set i last).Perm (l[i] :: last :: l.eraseIdx i) :=
          (List.set_perm_cons_eraseIdx hlt last).cons _
      _ |>.Perm (last :: l[i] :: l.eraseIdx i) := List.Perm.swap _ _ _
      _ |>.Perm (last :: l) := (List.getElem_cons_eraseIdx_perm hlt).cons _
      _ |>.Perm (l ++ [last]) := (List.perm_append_singleton last l).symm

/-- A list of which the first `size` places are left. -/
structure Pool (α : Type u) where
  items : List α
  size : Nat
  le : size ≤ items.length

namespace Pool

/-- All of a list is left. -/
def full (items : List α) : Pool α := ⟨items, items.length, le_rfl⟩

/-- What is left to be drawn. -/
def left (p : Pool α) : List α := p.items.take p.size

theorem length_left (p : Pool α) : p.left.length = p.size :=
  List.length_take_of_le p.le

@[simp] theorem left_full (items : List α) : (full items).left = items := List.take_length

/-- The element of the place `i` is drawn. -/
def draw (p : Pool α) (i : Nat) (h : i < p.size) : Pool α × α :=
  have hle := p.le
  have hlast : p.size - 1 < p.items.length := by omega
  have hi : i < p.items.length := by omega
  (⟨p.items.set i p.items[p.size - 1], p.size - 1, by rw [List.length_set]; omega⟩, p.items[i])

/-- The drawn element and what is left afterwards are what was left before. -/
theorem perm_draw (p : Pool α) {i : Nat} (h : i < p.size) : ((p.draw i h).2 :: (p.draw i h).1.left).Perm p.left := by
  have hle := p.le
  obtain ⟨n, hn⟩ : ∃ n, p.size = n + 1 := ⟨p.size - 1, by omega⟩
  have hn' : p.size - 1 = n := by omega
  have hlt : n < p.items.length := by omega
  have hleft : p.left = p.items.take n ++ [p.items[n]] := by
    rw [left, hn, List.take_succ_eq_append_getElem hlt]
  have hi : i < (p.items.take n ++ [p.items[n]]).length := by
    rw [← hleft, p.length_left]
    exact h
  have hdrawn : (p.draw i h).2 = (p.items.take n ++ [p.items[n]])[i] := by
    show p.items[i] = _
    simp only [← List.take_succ_eq_append_getElem hlt, List.getElem_take]
  have hrest : (p.draw i h).1.left = (p.items.take n).set i p.items[n] := by
    show (p.items.set i _).take (p.size - 1) = _
    simp only [hn', List.take_set]
  rw [hdrawn, hrest, hleft]
  exact getElem_cons_set_perm hi

theorem length_items_draw (p : Pool α) {i : Nat} (h : i < p.size) : (p.draw i h).1.items.length = p.items.length :=
  List.length_set

/-! ## Rounds -/

/-- Some rounds of all the `items` are `drawn`, and the start of one of which the pool has the rest. -/
def Rounds (items drawn : List α) (p : Pool α) : Prop :=
  ∃ (k : Nat) (part : List α), drawn.Perm ((List.replicate k items).flatten ++ part) ∧ (part ++ p.left).Perm items

namespace Rounds

variable {items drawn : List α} {p : Pool α}

theorem start (items : List α) : Rounds items [] (full items) :=
  ⟨0, [], List.Perm.refl _, List.Perm.of_eq (left_full items)⟩

theorem draw (h : Rounds items drawn p) {i : Nat} (hi : i < p.size) :
    Rounds items (drawn ++ [(p.draw i hi).2]) (p.draw i hi).1 := by
  obtain ⟨k, part, hdrawn, hleft⟩ := h
  refine ⟨k, part ++ [(p.draw i hi).2], ?_, ?_⟩
  · rw [← List.append_assoc]
    exact hdrawn.append_right _
  · rw [List.append_assoc, List.singleton_append]
    exact ((p.perm_draw hi).append_left part).trans hleft

/-- Nothing is left: the round is over, and the next one begins. -/
theorem refill (h : Rounds items drawn p) (hempty : p.size = 0) : Rounds items drawn (full items) := by
  obtain ⟨k, part, hdrawn, hleft⟩ := h
  have hpart : part.Perm items := by
    have hnone : p.left = [] := List.length_eq_zero_iff.1 (p.length_left.trans hempty)
    rwa [hnone, List.append_nil] at hleft
  refine ⟨k + 1, [], ?_, List.Perm.of_eq (left_full items)⟩
  rw [List.append_nil, List.replicate_succ', List.flatten_concat]
  exact hdrawn.trans (hpart.append_left _)

/-- Of the elements with a property, each full round has all. -/
theorem countP_le (h : Rounds items drawn p) (f : α → Bool) :
    drawn.length / items.length * items.countP f ≤ drawn.countP f ∧
      drawn.countP f ≤ (drawn.length + items.length - 1) / items.length * items.countP f := by
  obtain ⟨k, part, hdrawn, hleft⟩ := h
  have hlength : drawn.length = k * items.length + part.length := by
    rw [hdrawn.length_eq]
    simp
  have hcount : drawn.countP f = k * items.countP f + part.countP f := by
    rw [hdrawn.countP_eq]
    simp [List.countP_flatten]
  have hpart : part.length + p.left.length = items.length := by
    rw [← List.length_append, hleft.length_eq]
  have hshare : part.countP f + p.left.countP f = items.countP f := by
    rw [← List.countP_append, hleft.countP_eq]
  rcases Nat.eq_zero_or_pos items.length with hzero | hpos
  · have hnone : part = [] := List.length_eq_zero_iff.1 (by omega)
    rw [List.length_eq_zero_iff.1 hzero, hnone] at hcount
    rw [hcount, List.length_eq_zero_iff.1 hzero]
    simp
  · -- the part is empty, or a whole round, or something in between
    rw [hlength, hcount]
    have hdiv : ∀ m, (k * items.length + m) / items.length = k + m / items.length := by
      intro m
      rw [Nat.add_comm, Nat.add_mul_div_right _ _ hpos, Nat.add_comm]
    rw [hdiv, Nat.add_sub_assoc (by omega), Nat.add_assoc, hdiv, Nat.add_mul, Nat.add_mul]
    constructor
    · apply Nat.add_le_add_left
      rcases Nat.lt_or_ge part.length items.length with hless | hall
      · rw [Nat.div_eq_of_lt hless, Nat.zero_mul]
        exact Nat.zero_le _
      · have hnone : p.left = [] := List.length_eq_zero_iff.1 (by omega)
        have hone : part.length / items.length = 1 := by
          rw [show part.length = items.length by omega, Nat.div_self hpos]
        rw [hone, Nat.one_mul, ← hshare, hnone]
        exact le_rfl
    · apply Nat.add_le_add_left
      rcases Nat.eq_zero_or_pos part.length with hnone | hsome
      · rw [List.length_eq_zero_iff.1 hnone]
        exact Nat.zero_le _
      · have hone : 1 ≤ (part.length + (items.length - 1)) / items.length := by
          rw [Nat.le_div_iff_mul_le hpos]
          omega
        calc part.countP f ≤ items.countP f := by omega
          _ = 1 * items.countP f := (Nat.one_mul _).symm
          _ ≤ (part.length + (items.length - 1)) / items.length * items.countP f := Nat.mul_le_mul_right _ hone

end Rounds

end Pool

end CppMisc.Library
