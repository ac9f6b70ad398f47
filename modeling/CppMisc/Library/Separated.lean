import Mathlib.Tactic

/-!
# Lists cut at a separator

`Separated sep s parts` says that `parts` are what lies between the separators in `s`: joined with `sep`
they give `s`, and no part contains `sep`. A separator that can overlap with itself may cut a list in
several ways ("aaa" at "aa"), so the parts are determined only for an `Unbordered` separator, of which no
proper beginning is also an end (`Separated.unique`).

`Separated.single` and `Separated.cons` build the parts from the front, as a scan finds them.
-/

set_option autoImplicit false

namespace CppMisc.Library

universe u

variable {α : Type u} {sep s p : List α} {parts : List (List α)}

/-- Only the whole of `sep` is both a beginning and an end of it. -/
def Unbordered (sep : List α) : Prop := ∀ u, u ≠ [] → u <+: sep → u <:+ sep → u = sep

/-- `parts` are the pieces of `s` between the separators. -/
structure Separated (sep s : List α) (parts : List (List α)) : Prop where
  ne_nil : parts ≠ []
  joined : sep.intercalate parts = s
  free : ∀ p ∈ parts, ¬ sep <:+: p

theorem Separated.single (h : ¬ sep <:+: s) : Separated sep s [s] :=
  ⟨List.cons_ne_nil s [], List.intercalate_singleton, List.forall_mem_singleton.2 h⟩

theorem Separated.cons (hp : ¬ sep <:+: p) (h : Separated sep s parts) :
    Separated sep (p ++ (sep ++ s)) (p :: parts) := by
  refine ⟨List.cons_ne_nil p parts, ?_, List.forall_mem_cons.2 ⟨hp, h.free⟩⟩
  rw [List.intercalate_cons_of_ne_nil h.ne_nil, h.joined, List.append_assoc]

/-- Either there is one part, without a separator, or there is a first part and the rest. -/
theorem Separated.cases (h : Separated sep s parts) :
    (parts = [s] ∧ ¬ sep <:+: s) ∨
      ∃ p rest parts', parts = p :: parts' ∧ s = p ++ (sep ++ rest) ∧ ¬ sep <:+: p ∧
        Separated sep rest parts' := by
  obtain ⟨hne, hjoined, hfree⟩ := h
  cases parts with
  | nil => exact absurd rfl hne
  | cons p parts =>
      obtain ⟨hp, hrest⟩ := List.forall_mem_cons.1 hfree
      cases parts with
      | nil =>
          rw [List.intercalate_singleton] at hjoined
          exact .inl ⟨by rw [hjoined], hjoined ▸ hp⟩
      | cons q parts =>
          have htail : q :: parts ≠ [] := List.cons_ne_nil q parts
          rw [List.intercalate_cons_of_ne_nil htail, List.append_assoc] at hjoined
          exact .inr ⟨p, _, q :: parts, rfl, hjoined.symm, hp, htail, rfl, hrest⟩

/-- The first separator of a list is at one place only: a part that is shorter leaves the other one with
a separator inside, or the two separators overlap. -/
theorem Unbordered.cut_of_prefix (hsep : Unbordered sep) {p u s s' : List α} (hp : ¬ sep <:+: p ++ u)
    (h : sep ++ s = u ++ (sep ++ s')) : u = [] ∧ s = s' := by
  rcases List.append_eq_append_iff.1 h with ⟨v, rfl, -⟩ | ⟨v, hv, hover⟩
  · exact absurd (List.infix_append p sep v |>.trans (by rw [List.append_assoc])) hp
  · cases v with
    | nil =>
        rw [List.append_nil] at hv
        rw [← hv] at hp
        exact absurd (List.suffix_append p sep).isInfix hp
    | cons a v =>
        have hfront : a :: v <+: sep := by
          have hlength : (a :: v).length ≤ sep.length := by
            rw [hv, List.length_append]
            omega
          exact List.prefix_of_prefix_length_le (List.prefix_append _ s) ⟨s', hover⟩ hlength
        have hback : a :: v <:+ sep := ⟨u, hv.symm⟩
        have hwhole := hsep _ (List.cons_ne_nil a v) hfront hback
        rw [hwhole] at hv hover
        exact ⟨List.self_eq_append_left.1 hv, (List.append_cancel_left hover).symm⟩

/-- The part in front of the first separator is determined. -/
theorem Unbordered.cut_unique (hsep : Unbordered sep) {p p' s s' : List α} (hp : ¬ sep <:+: p)
    (hp' : ¬ sep <:+: p') (h : p ++ (sep ++ s) = p' ++ (sep ++ s')) : p = p' ∧ s = s' := by
  rcases List.append_eq_append_iff.1 h with ⟨u, rfl, hrest⟩ | ⟨u, rfl, hrest⟩
  · obtain ⟨rfl, rfl⟩ := hsep.cut_of_prefix hp' hrest
    exact ⟨(List.append_nil p).symm, rfl⟩
  · obtain ⟨rfl, rfl⟩ := hsep.cut_of_prefix hp hrest
    exact ⟨List.append_nil p', rfl⟩

/-- A list is cut at the separators in one way only. -/
theorem Separated.unique (hsep : Unbordered sep) (h : Separated sep s parts) :
    ∀ {parts' : List (List α)}, Separated sep s parts' → parts' = parts := by
  induction parts generalizing s with
  | nil => exact absurd rfl h.ne_nil
  | cons p parts ih =>
      intro parts' h'
      rcases h.cases with ⟨heq, hfree⟩ | ⟨q, rest, tail, heq, rfl, hq, hrest⟩
      · rcases h'.cases with ⟨rfl, -⟩ | ⟨q', rest', tail', -, rfl, -, -⟩
        · exact heq.symm
        · exact absurd ⟨q', rest', by rw [List.append_assoc]⟩ hfree
      · rcases h'.cases with ⟨-, hfree⟩ | ⟨q', rest', tail', rfl, hcut, hq', hrest'⟩
        · exact absurd ⟨q, rest, by rw [List.append_assoc]⟩ hfree
        · obtain ⟨rfl, rfl⟩ := hsep.cut_unique hq hq' hcut
          rw [List.cons.injEq] at heq
          obtain ⟨rfl, rfl⟩ := heq
          rw [ih hrest hrest']

end CppMisc.Library
