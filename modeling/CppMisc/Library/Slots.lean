import Mathlib.Tactic
import Mathlib.Data.List.Perm.Basic

/-!
# Tables indexed by position

A population whose members are named by their position is a list, and a step changes or removes one
entry. These lemmas say what such a step does to the number of entries with a given property. `Kept R l l'`
says that every entry of `l` is still there in `l'`, changed by `R`.
-/

set_option autoImplicit false

namespace CppMisc.Library

universe u v

variable {α : Type u} {β : Type v}

/-- An entry of a list with one more entry at the end. -/
theorem getElem?_snoc_cases {l : List α} {a x : α} {i : Nat} (h : (l ++ [a])[i]? = some x) :
    l[i]? = some x ∨ (i = l.length ∧ x = a) := by
  rcases lt_or_ge i l.length with hlt | hge
  · rw [List.getElem?_append_left hlt] at h
    exact .inl h
  · rw [List.getElem?_append_right hge] at h
    obtain ⟨hlt, heq⟩ := List.getElem?_eq_some_iff.1 h
    simp only [List.length_singleton] at hlt
    refine .inr ⟨by omega, ?_⟩
    simpa using heq.symm

/-- An entry of a list with the entry at `j` replaced. -/
theorem getElem?_set_cases {l : List α} {b x : α} {i j : Nat} (h : (l.set j b)[i]? = some x) :
    (i = j ∧ x = b) ∨ (i ≠ j ∧ l[i]? = some x) := by
  rcases eq_or_ne i j with rfl | hij
  · obtain ⟨hlt, -⟩ := List.getElem?_eq_some_iff.1 h
    rw [List.length_set] at hlt
    rw [List.getElem?_set_self hlt, Option.some.injEq] at h
    exact .inl ⟨rfl, h.symm⟩
  · rw [List.getElem?_set_ne hij.symm] at h
    exact .inr ⟨hij, h⟩

/-- Removing the entry at `i` lowers the count by the entry's own contribution. -/
theorem countP_eraseIdx (f : α → Bool) {l : List α} {i : Nat} {a : α} (h : l[i]? = some a) :
    (l.eraseIdx i).countP f + (if f a then 1 else 0) = l.countP f := by
  obtain ⟨hi, rfl⟩ := List.getElem?_eq_some_iff.1 h
  rw [← (List.getElem_cons_eraseIdx_perm hi).countP_eq f, List.countP_cons]

/-- Replacing the entry `a` at `i` by `b` exchanges their contributions to the count. -/
theorem countP_set_add (f : α → Bool) {l : List α} {i : Nat} {a : α} (b : α) (h : l[i]? = some a) :
    (l.set i b).countP f + (if f a then 1 else 0) = l.countP f + (if f b then 1 else 0) := by
  obtain ⟨hi, rfl⟩ := List.getElem?_eq_some_iff.1 h
  have hle : (if f l[i] then 1 else 0) ≤ l.countP f := List.boole_getElem_le_countP hi
  rw [List.countP_set hi]
  omega

/-- Replacing an entry by one with the same image keeps the list of images. -/
theorem map_set_of_eq (f : α → β) {l : List α} {i : Nat} {a b : α} (h : l[i]? = some a)
    (hf : f b = f a) : (l.set i b).map f = l.map f := by
  obtain ⟨hi, rfl⟩ := List.getElem?_eq_some_iff.1 h
  rw [List.map_set, hf, ← List.map_set, List.set_getElem_self]

/-- A change of one entry that the property does not see keeps the count. -/
theorem countP_set_of_eq (f : α → Bool) {l : List α} {i : Nat} {a b : α} (h : l[i]? = some a)
    (hf : f b = f a) : (l.set i b).countP f = l.countP f := by
  have hc := countP_set_add f b h
  rw [hf] at hc
  omega

/-- An entry that gains the property adds one to the count. -/
theorem countP_set_gain (f : α → Bool) {l : List α} {i : Nat} {a b : α} (h : l[i]? = some a)
    (ha : f a = false) (hb : f b = true) : (l.set i b).countP f = l.countP f + 1 := by
  have hc := countP_set_add f b h
  rw [ha, hb] at hc
  exact hc

/-- An entry that loses the property takes one off the count. -/
theorem countP_set_lose (f : α → Bool) {l : List α} {i : Nat} {a b : α} (h : l[i]? = some a)
    (ha : f a = true) (hb : f b = false) : (l.set i b).countP f + 1 = l.countP f := by
  have hc := countP_set_add f b h
  rw [ha, hb] at hc
  exact hc

/-- Giving one member of a list without repetitions the property adds one to the count. -/
theorem countP_gain_of_mem {f g : α → Bool} {l : List α} (hl : l.Nodup) {a : α} (ha : a ∈ l)
    (hf : f a = false) (hg : g a = true) (hother : ∀ b ∈ l, b ≠ a → g b = f b) :
    l.countP g = l.countP f + 1 := by
  obtain ⟨pre, post, rfl⟩ := List.append_of_mem ha
  have hnot : a ∉ pre ∧ a ∉ post := by
    rw [List.nodup_middle, List.nodup_cons] at hl
    simpa using hl.1
  have hpre : pre.countP g = pre.countP f := List.countP_congr fun b hb => by
    rw [hother b (by simp [hb]) fun he => hnot.1 (he ▸ hb)]
  have hpost : post.countP g = post.countP f := List.countP_congr fun b hb => by
    rw [hother b (by simp [hb]) fun he => hnot.2 (he ▸ hb)]
  simp only [List.countP_append, List.countP_cons, hf, hg, hpre, hpost]
  simp
  omega

/-! ## Changes entry by entry -/

/-- Every entry of `l` is still there in `l'`, and has changed by `R`. -/
def Kept (R : α → α → Prop) (l l' : List α) : Prop :=
  ∀ (i : Nat) (a : α), l[i]? = some a → ∃ b, l'[i]? = some b ∧ R a b

variable {R : α → α → Prop}

theorem kept_refl (hR : ∀ a, R a a) (l : List α) : Kept R l l := fun _ a ha => ⟨a, ha, hR a⟩

theorem Kept.trans (hR : ∀ a b c, R a b → R b c → R a c) {l₁ l₂ l₃ : List α} (h : Kept R l₁ l₂)
    (h' : Kept R l₂ l₃) : Kept R l₁ l₃ := by
  intro i a ha
  obtain ⟨b, hb, hab⟩ := h i a ha
  obtain ⟨c, hc, hbc⟩ := h' i b hb
  exact ⟨c, hc, hR a b c hab hbc⟩

/-- When no entry was added, every entry of `l'` comes from one of `l`. -/
theorem Kept.back {l l' : List α} (h : Kept R l l') (hlen : l'.length = l.length) {i : Nat} {b : α}
    (hb : l'[i]? = some b) : ∃ a, l[i]? = some a ∧ R a b := by
  obtain ⟨hlt, -⟩ := List.getElem?_eq_some_iff.1 hb
  have ha := List.getElem?_eq_getElem (hlen ▸ hlt)
  obtain ⟨c, hc, hac⟩ := h i _ ha
  rw [hb] at hc
  cases hc
  exact ⟨_, ha, hac⟩

/-- Replacing one entry. -/
theorem kept_set (hR : ∀ a, R a a) {l : List α} {j : Nat} {a b : α} (ha : l[j]? = some a)
    (h : R a b) : Kept R l (l.set j b) := by
  intro i x hx
  obtain ⟨hlt, -⟩ := List.getElem?_eq_some_iff.1 ha
  rcases eq_or_ne i j with rfl | hij
  · rw [ha] at hx
    cases hx
    exact ⟨b, List.getElem?_set_self hlt, h⟩
  · exact ⟨x, by rw [List.getElem?_set_ne hij.symm, hx], hR x⟩

/-- A new entry at the end. -/
theorem kept_snoc (hR : ∀ a, R a a) (l : List α) (b : α) : Kept R l (l ++ [b]) := by
  intro i a ha
  obtain ⟨hlt, -⟩ := List.getElem?_eq_some_iff.1 ha
  exact ⟨a, by rw [List.getElem?_append_left hlt, ha], hR a⟩

end CppMisc.Library
