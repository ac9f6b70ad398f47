import Mathlib.Tactic

/-!
# Chains of next pointers

A linked list in memory is a `next` field per item and a head pointer, null being `none`.
`IsChain next head l` says that following `next` from `head` visits exactly the items of `l`, in
order, and ends in the null pointer. A chain has no repeated item, since a repeated item would be
followed forever (`IsChain.nodup`), and it depends on the fields of its own items only
(`IsChain.congr`). `follow` walks a chain for a bounded number of items. `IsSegment next head l tail` is
the part of such a walk that visits `l` and arrives at `tail`.

`IsDouble next prev p head l` is a doubly linked list whose first item has `p` before it. An item can be
taken out of it at any place by the two assignments that bypass it (`IsDouble.unlink`).
-/

set_option autoImplicit false

namespace CppMisc.Library

universe u

variable {α : Type u}

/-- Following `next` from `head` visits exactly `l` and ends in the null pointer. -/
inductive IsChain (next : α → Option α) : Option α → List α → Prop
  | nil : IsChain next none []
  | cons {a : α} {l : List α} : IsChain next (next a) l → IsChain next (some a) (a :: l)

/-- The first `n` items that following `next` from `head` visits. -/
def follow (next : α → Option α) : Nat → Option α → List α
  | 0, _ => []
  | _ + 1, none => []
  | n + 1, some a => a :: follow next n (next a)

variable {next next' : α → Option α}

theorem isChain_none_iff {l : List α} : IsChain next none l ↔ l = [] := by
  constructor
  · intro h
    cases h
    rfl
  · rintro rfl
    exact .nil

theorem isChain_nil_iff {head : Option α} : IsChain next head [] ↔ head = none := by
  constructor
  · intro h
    cases h
    rfl
  · rintro rfl
    exact .nil

theorem isChain_some_iff {a : α} {l : List α} :
    IsChain next (some a) l ↔ ∃ rest, l = a :: rest ∧ IsChain next (next a) rest := by
  constructor
  · intro h
    cases h with
    | cons h => exact ⟨_, rfl, h⟩
  · rintro ⟨rest, rfl, h⟩
    exact .cons h

/-- The chain from a given head is determined by the fields. -/
theorem IsChain.unique {head : Option α} {l l' : List α} (h : IsChain next head l)
    (h' : IsChain next head l') : l = l' := by
  induction h generalizing l' with
  | nil => exact (isChain_none_iff.1 h').symm
  | cons _ ih =>
      obtain ⟨rest, rfl, hrest⟩ := isChain_some_iff.1 h'
      rw [ih hrest]

/-- The part of a chain from one of its items on is the chain from that item. -/
theorem IsChain.suffix {a : α} {pre post : List α} : ∀ {head : Option α},
    IsChain next head (pre ++ a :: post) → IsChain next (some a) (a :: post) := by
  induction pre with
  | nil =>
      intro head h
      cases h with
      | cons h => exact .cons h
  | cons b pre ih =>
      intro head h
      cases h with
      | cons h => exact ih h

theorem IsChain.nodup {head : Option α} {l : List α} (h : IsChain next head l) : l.Nodup := by
  induction h with
  | nil => exact List.nodup_nil
  | @cons a l h ih =>
      refine List.nodup_cons.2 ⟨fun hmem => ?_, ih⟩
      obtain ⟨pre, post, rfl⟩ := List.append_of_mem hmem
      -- the chain from the second occurrence would be the chain from the first, and shorter
      have heq := IsChain.unique (.cons h) h.suffix
      have hlen := congrArg List.length heq
      simp only [List.length_cons, List.length_append] at hlen
      omega

/-- No item of a chain points to itself. -/
theorem IsChain.next_ne_self {head : Option α} {l : List α} (h : IsChain next head l) {a : α} (ha : a ∈ l) :
    next a ≠ some a := by
  intro hself
  obtain ⟨pre, post, rfl⟩ := List.append_of_mem ha
  have hfrom := h.suffix
  obtain ⟨rest, hrest, hchain⟩ := isChain_some_iff.1 hfrom
  rw [hself] at hchain
  have hlen := congrArg List.length (hfrom.unique hchain)
  rw [hrest, List.length_cons] at hlen
  omega

/-- Fields of items off the chain do not matter. -/
theorem IsChain.congr {head : Option α} {l : List α} (h : IsChain next head l)
    (heq : ∀ a ∈ l, next' a = next a) : IsChain next' head l := by
  induction h with
  | nil => exact .nil
  | @cons a l _ ih =>
      refine .cons ?_
      rw [heq a List.mem_cons_self]
      exact ih fun b hb => heq b (List.mem_cons_of_mem a hb)

/-- Pointers that stay among some items lead the same way when the fields of these items agree. -/
theorem IsChain.of_closed {R : α → Prop} (hclosed : ∀ a b, R a → next' a = some b → R b)
    (heq : ∀ a, R a → next a = next' a) {head : Option α} {l : List α} (h : IsChain next head l)
    (hhead : ∀ a, head = some a → R a) : IsChain next' head l := by
  induction h with
  | nil => exact .nil
  | @cons a l _ ih =>
      have ha : R a := hhead a rfl
      rw [heq a ha] at ih
      exact .cons (ih fun b hb => hclosed a b ha hb)

/-- Linking a new item behind the last one. -/
theorem IsChain.snoc {z m : α} {l : List α} : ∀ {head : Option α},
    IsChain next head (l ++ [z]) → (∀ a ∈ l, next' a = next a) → next' z = some m →
      next' m = none → IsChain next' head (l ++ [z] ++ [m]) := by
  induction l with
  | nil =>
      intro head h _ hz hm
      cases h with
      | cons _ =>
          refine .cons ?_
          rw [hz]
          refine .cons ?_
          rw [hm]
          exact .nil
  | cons a l ih =>
      intro head h heq hz hm
      cases h with
      | cons h =>
          refine .cons ?_
          rw [heq a List.mem_cons_self]
          exact ih h (fun b hb => heq b (List.mem_cons_of_mem a hb)) hz hm

/-- Walking a chain for at least its length yields it. -/
theorem IsChain.follow_eq {head : Option α} {l : List α} (h : IsChain next head l) {n : Nat}
    (hn : l.length ≤ n) : follow next n head = l := by
  induction h generalizing n with
  | nil => cases n <;> rfl
  | cons _ ih =>
      simp only [List.length_cons] at hn
      obtain ⟨m, rfl⟩ : ∃ m, n = m + 1 := ⟨n - 1, by omega⟩
      rw [follow, ih (by omega)]

/-! ## Segments -/

/-- Following `next` from `head` visits exactly `l` and arrives at `tail`. -/
inductive IsSegment (next : α → Option α) : Option α → List α → Option α → Prop
  | nil {tail : Option α} : IsSegment next tail [] tail
  | cons {a : α} {l : List α} {tail : Option α} :
      IsSegment next (next a) l tail → IsSegment next (some a) (a :: l) tail

theorem isSegment_nil_iff {head tail : Option α} :
    IsSegment next head [] tail ↔ head = tail := by
  constructor
  · intro h
    cases h
    rfl
  · rintro rfl
    exact .nil

theorem isSegment_cons_iff {head tail : Option α} {a : α} {l : List α} :
    IsSegment next head (a :: l) tail ↔ head = some a ∧ IsSegment next (next a) l tail := by
  constructor
  · intro h
    cases h with
    | cons h => exact ⟨rfl, h⟩
  · rintro ⟨rfl, h⟩
    exact .cons h

/-- A segment can be cut at each of its items. -/
theorem isSegment_append_cons_iff {tail : Option α} {a : α} {pre post : List α} :
    ∀ {head : Option α}, IsSegment next head (pre ++ a :: post) tail ↔
      IsSegment next head pre (some a) ∧ IsSegment next (next a) post tail := by
  induction pre with
  | nil =>
      intro head
      rw [List.nil_append, isSegment_cons_iff, isSegment_nil_iff]
  | cons b pre ih =>
      intro head
      rw [List.cons_append, isSegment_cons_iff, isSegment_cons_iff, ih, and_assoc]

/-- A segment that arrives at the null pointer is a chain. -/
theorem isSegment_none_iff {head : Option α} {l : List α} :
    IsSegment next head l none ↔ IsChain next head l := by
  constructor
  · intro h
    induction l generalizing head with
    | nil =>
        rw [isSegment_nil_iff] at h
        exact h ▸ .nil
    | cons a l ih =>
        obtain ⟨rfl, hrest⟩ := isSegment_cons_iff.1 h
        exact .cons (ih hrest)
  · intro h
    induction h with
    | nil => exact .nil
    | cons _ ih => exact .cons ih

theorem IsSegment.congr {head tail : Option α} {l : List α} (h : IsSegment next head l tail)
    (heq : ∀ a ∈ l, next' a = next a) : IsSegment next' head l tail := by
  induction h with
  | nil => exact .nil
  | @cons a l tail _ ih =>
      refine .cons ?_
      rw [heq a List.mem_cons_self]
      exact ih fun b hb => heq b (List.mem_cons_of_mem a hb)

/-- Pointers that start among some items and lead on among them stay there. -/
theorem IsSegment.closed {R : α → Prop} (hclosed : ∀ a b, R a → next a = some b → R b)
    {head tail : Option α} {l : List α} (h : IsSegment next head l tail)
    (hhead : ∀ a, head = some a → R a) : (∀ a ∈ l, R a) ∧ ∀ a, tail = some a → R a := by
  induction h with
  | nil => exact ⟨fun _ ha => absurd ha List.not_mem_nil, hhead⟩
  | @cons a l tail _ ih =>
      have ha : R a := hhead a rfl
      obtain ⟨hl, htail⟩ := ih fun b hb => hclosed a b ha hb
      refine ⟨fun b hb => ?_, htail⟩
      rcases List.mem_cons.1 hb with rfl | hb
      · exact ha
      · exact hl b hb

/-- A segment that arrives at an item can be cut short where it meets that item first. -/
theorem IsSegment.first {head : Option α} {a : α} {l : List α} (h : IsSegment next head l (some a)) :
    ∃ l', IsSegment next head l' (some a) ∧ a ∉ l' := by
  by_cases hmem : a ∈ l
  · obtain ⟨pre, post, rfl, hpre⟩ := List.eq_append_cons_of_mem hmem
    exact ⟨pre, (isSegment_append_cons_iff.1 h).1, hpre⟩
  · exact ⟨l, h, hmem⟩

/-! ## Doubly linked lists -/

/-- Following `next` from `head` visits exactly `l`, and each `prev` is the item before, or `p` for the first
one. -/
inductive IsDouble (next prev : α → Option α) : Option α → Option α → List α → Prop
  | nil {p : Option α} : IsDouble next prev p none []
  | cons {p : Option α} {a : α} {l : List α} : prev a = p →
      IsDouble next prev (some a) (next a) l → IsDouble next prev p (some a) (a :: l)

section Double

variable {prev prev' : α → Option α}

theorem IsDouble.chain {p head : Option α} {l : List α} (h : IsDouble next prev p head l) :
    IsChain next head l := by
  induction h with
  | nil => exact .nil
  | cons _ _ ih => exact .cons ih

theorem IsDouble.nodup {p head : Option α} {l : List α} (h : IsDouble next prev p head l) : l.Nodup :=
  h.chain.nodup

theorem IsDouble.congr {p head : Option α} {l : List α} (h : IsDouble next prev p head l)
    (hnext : ∀ a ∈ l, next' a = next a) (hprev : ∀ a ∈ l, prev' a = prev a) :
    IsDouble next' prev' p head l := by
  induction h with
  | nil => exact .nil
  | @cons p a l ha _ ih =>
      refine .cons ((hprev a List.mem_cons_self).trans ha) ?_
      rw [hnext a List.mem_cons_self]
      exact ih (fun b hb => hnext b (List.mem_cons_of_mem a hb))
        fun b hb => hprev b (List.mem_cons_of_mem a hb)

/-- The first item has `p` before it. -/
theorem IsDouble.prev_head {p : Option α} {a : α} {l : List α} (h : IsDouble next prev p (some a) l) :
    prev a = p := by
  cases h with
  | cons ha _ => exact ha

/-- What follows an item of the list is on the list. -/
theorem IsDouble.mem_of_next {p head : Option α} {l : List α} (h : IsDouble next prev p head l) {a b : α}
    (ha : a ∈ l) (hb : next a = some b) : b ∈ l := by
  induction h with
  | nil => cases ha
  | cons _ hrest ih =>
      rcases List.mem_cons.1 ha with rfl | ha
      · rw [hb] at hrest
        cases hrest with
        | cons _ _ => exact List.mem_cons_of_mem _ List.mem_cons_self
      · exact List.mem_cons_of_mem _ (ih ha)

/-- Every item but the first has an item of the list before it. -/
theorem IsDouble.prev_cases {p head : Option α} {l : List α} (h : IsDouble next prev p head l) {b : α}
    (hb : b ∈ l) : head = some b ∨ ∃ c ∈ l, prev b = some c := by
  induction h with
  | nil => cases hb
  | @cons p a l _ hrest ih =>
      rcases List.mem_cons.1 hb with rfl | hb
      · exact .inl rfl
      · rcases ih hb with hnext | ⟨c, hcl, hbc⟩
        · rw [hnext] at hrest
          exact .inr ⟨a, List.mem_cons_self, hrest.prev_head⟩
        · exact .inr ⟨c, List.mem_cons_of_mem a hcl, hbc⟩

/-- On the list `prev` is the inverse of `next`. -/
theorem IsDouble.inverse {p head : Option α} {l : List α} (h : IsDouble next prev p head l)
    (hp : ∀ q, p = some q → q ∉ l) {a b : α} (ha : a ∈ l) (hb : b ∈ l) :
    next a = some b ↔ prev b = some a := by
  induction h with
  | nil => cases ha
  | @cons p c l hc hrest ih =>
      have hnodup : (c :: l).Nodup := (IsDouble.cons hc hrest).nodup
      have hfresh : c ∉ l := (List.nodup_cons.1 hnodup).1
      have hstep : ∀ q, some c = some q → q ∉ l := by
        intro q hq
        rw [← Option.some.inj hq]
        exact hfresh
      rcases List.mem_cons.1 hb with rfl | hbl
      · -- nothing on the list comes before the first item
        refine iff_of_false (fun hnext => ?_) fun hprev => hp a (hc.symm.trans hprev) ha
        rcases List.mem_cons.1 ha with rfl | hal
        · rw [hnext] at hrest
          cases hrest with
          | cons _ _ => exact hfresh List.mem_cons_self
        · exact hfresh (hrest.mem_of_next hal hnext)
      · rcases List.mem_cons.1 ha with rfl | hal
        · constructor
          · intro hnext
            rw [hnext] at hrest
            exact hrest.prev_head
          · intro hprev
            rcases hrest.prev_cases hbl with hnext | ⟨c, hcl, hbc⟩
            · exact hnext
            · rw [hprev] at hbc
              exact absurd (Option.some.inj hbc ▸ hcl) hfresh
        · exact ih hstep hal hbl

/-- An item is taken out by the two assignments that bypass it, wherever it stands. -/
theorem IsDouble.unlink [DecidableEq α] {item : α}
    (hnext : ∀ a, a ≠ item → next' a = if prev item = some a then next item else next a)
    (hprev : ∀ a, a ≠ item → prev' a = if next item = some a then prev item else prev a)
    {pre post : List α} : ∀ {p head : Option α}, IsDouble next prev p head (pre ++ item :: post) →
      (∀ q, p = some q → q ∉ pre ++ item :: post) →
        IsDouble next' prev' p (if head = some item then next item else head) (pre ++ post) := by
  induction pre with
  | nil =>
      intro p head h hp
      have hnodup := h.nodup
      cases h with
      | cons hitem hrest =>
          rw [if_pos rfl, List.nil_append]
          rw [List.nil_append] at hp hnodup
          obtain ⟨hfresh, hpost⟩ := List.nodup_cons.1 hnodup
          have hout : ∀ a ∈ post, prev item ≠ some a := by
            intro a ha hq
            exact hp a (hitem.symm.trans hq) (List.mem_cons_of_mem item ha)
          generalize hn : next item = n at hrest
          cases hrest with
          | nil => exact .nil
          | @cons _ b post _ hrest =>
              have hb : b ≠ item := fun he => hfresh (he ▸ List.mem_cons_self)
              refine .cons ?_ ?_
              · rw [hprev b hb, if_pos hn, hitem]
              · rw [hnext b hb, if_neg (hout b List.mem_cons_self)]
                refine hrest.congr (fun c hc => ?_) fun c hc => ?_
                · have hci : c ≠ item := fun he => hfresh (he ▸ List.mem_cons_of_mem b hc)
                  rw [hnext c hci, if_neg (hout c (List.mem_cons_of_mem b hc))]
                · have hci : c ≠ item := fun he => hfresh (he ▸ List.mem_cons_of_mem b hc)
                  have hcb : b ≠ c := fun he => (List.nodup_cons.1 hpost).1 (he ▸ hc)
                  rw [hprev c hci, hn, if_neg fun he => hcb (Option.some.inj he)]
  | cons a pre ih =>
      intro p head h hp
      have hnodup := h.nodup
      have hinverse := h.inverse hp (a := a) (b := item) List.mem_cons_self
        (List.mem_cons_of_mem a (List.mem_append_right pre List.mem_cons_self))
      have hback := h.inverse hp (a := item) (b := a)
        (List.mem_cons_of_mem a (List.mem_append_right pre List.mem_cons_self)) List.mem_cons_self
      rw [List.cons_append, List.nodup_cons] at hnodup
      have hai : a ≠ item := fun he => hnodup.1 (he ▸ List.mem_append_right pre List.mem_cons_self)
      cases h with
      | cons ha hrest =>
          have hstep : ∀ q, some a = some q → q ∉ pre ++ item :: post := by
            intro q hq
            rw [← Option.some.inj hq]
            exact hnodup.1
          rw [if_neg fun he => hai (Option.some.inj he)]
          refine .cons ?_ ?_
          · -- nothing on the list has the first item behind it
            rw [hprev a hai, if_neg, ha]
            intro hni
            exact hp item (ha.symm.trans (hback.1 hni))
              (List.mem_cons_of_mem a (List.mem_append_right pre List.mem_cons_self))
          · rw [hnext a hai]
            simp only [← hinverse]
            exact ih hrest hstep

end Double

end CppMisc.Library
