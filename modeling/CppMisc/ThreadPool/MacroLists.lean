import CppMisc.Library.Runs
import CppMisc.ThreadPool.ListMacros

/-!
# What the list macros of the thread pools implement

A list is used through `LIST_ADD` with items that are not on it and `LIST_REMOVE` with items that are,
starting from the null pointer. It should be a doubly linked list of the items, the newest first
(`DoublyLinked`).

`LIST_REMOVE` is right: it takes an item out of a doubly linked list wherever it stands
(`isDouble_listRemove`). `LIST_ADD` does not set the `prev` field of the old head, so the list is doubly
linked only as long as an item is added to an empty list. Since an item behind the head then has no `prev`,
removing one cuts the list at that item instead of bypassing it. Followed by `next`, the list has the right
items exactly when always the head is removed (`macros_implement_list_iff`).
-/

set_option autoImplicit false

namespace CppMisc.ThreadPool

open CppMisc.Library

universe u

/-- The two files that define the macros. -/
inductive Macros where
  | threadPool
  | tp
  deriving Repr, DecidableEq

section Lists

variable {α : Type u} [DecidableEq α]

/-- `LIST_ADD` or `LL_ADD`. -/
def Macros.add : Macros → (α → Link α) → Option α → α → (α → Link α) × Option α
  | .threadPool => listAdd
  | .tp => llAdd

/-- `LIST_REMOVE` or `LL_REMOVE`. -/
def Macros.remove : Macros → (α → Link α) → Option α → α → (α → Link α) × Option α
  | .threadPool => listRemove
  | .tp => llRemove

/-- The fields of all items and the variable `list`, with the items added and not yet removed, the newest
first. -/
structure ListState (α : Type u) where
  links : α → Link α
  list : Option α
  items : List α

/-- The uses of a list. -/
inductive ListAct (α : Type u) where
  | add (item : α)
  | remove (item : α)

/-- An item is added when it is not on the list, and removed when it is. -/
def listStep (macros : Macros) (s : ListState α) : ListAct α → Option (ListState α)
  | .add item =>
      if item ∈ s.items then none
      else
        let r := macros.add s.links s.list item
        some ⟨r.1, r.2, item :: s.items⟩
  | .remove item =>
      if item ∈ s.items then
        let r := macros.remove s.links s.list item
        some ⟨r.1, r.2, s.items.erase item⟩
      else none

/-- An empty list, with whatever the memory of the items holds. -/
def emptyList (links : α → Link α) : ListState α := ⟨links, none, []⟩

/-- Following `next` from the head visits exactly the items, the newest first. -/
def Visits (s : ListState α) : Prop := IsChain (fun a => (s.links a).next) s.list s.items

/-- The list is doubly linked. -/
structure DoublyLinked (s : ListState α) : Prop where
  visits : Visits s
  inverse : ∀ a ∈ s.items, ∀ b ∈ s.items, (s.links a).next = some b ↔ (s.links b).prev = some a
  head : ∀ a, s.list = some a → (s.links a).prev = none

/-- An item is added to an empty list only. -/
def AddsToEmpty (s : ListState α) : ListAct α → Prop
  | .add _ => s.list = none
  | .remove _ => True

/-- Only the head is removed. -/
def RemovesHead (s : ListState α) : ListAct α → Prop
  | .add _ => True
  | .remove item => s.list = some item

/-! ## The macros on a doubly linked list -/

theorem listRemove_next_of_ne (m : α → Link α) (list : Option α) {item a : α} (ha : a ≠ item) :
    ((listRemove m list item).1 a).next =
      if (m item).prev = some a then (m item).next else (m a).next := by
  simp only [listRemove, Function.update_of_ne ha, unlinkNext_next, unlinkPrev_next]

section Remove

variable {m : α → Link α} {item : α} (hself : (m item).prev ≠ some item) (list : Option α)

include hself

theorem listRemove_prev_of_ne {a : α} (ha : a ≠ item) :
    ((listRemove m list item).1 a).prev =
      if (m item).next = some a then (m item).prev else (m a).prev := by
  simp only [listRemove, Function.update_of_ne ha, unlinkNext_prev, unlinkPrev_prev, unlinkPrev_next, hself,
    if_false]

theorem listRemove_list_of_ne :
    (listRemove m list item).2 = if list = some item then (m item).next else list := by
  simp only [listRemove, unlinkNext_next, unlinkPrev_next, hself, if_false]

end Remove

/-- `LIST_REMOVE` takes an item out of a doubly linked list, wherever it stands. -/
theorem isDouble_listRemove {m : α → Link α} {list : Option α} {item : α} {pre post : List α}
    (h : IsDouble (fun a => (m a).next) (fun a => (m a).prev) none list (pre ++ item :: post)) :
    IsDouble (fun a => ((listRemove m list item).1 a).next) (fun a => ((listRemove m list item).1 a).prev)
      none (listRemove m list item).2 (pre ++ post) := by
  have hmem : item ∈ pre ++ item :: post := List.mem_append_right pre List.mem_cons_self
  have hout : ∀ q, (none : Option α) = some q → q ∉ pre ++ item :: post := by
    intro q hq
    cases hq
  have hself : (m item).prev ≠ some item := by
    intro hprev
    exact h.chain.next_ne_self hmem ((h.inverse hout hmem hmem).2 hprev)
  rw [listRemove_list_of_ne hself list]
  exact h.unlink (fun a ha => listRemove_next_of_ne m list ha)
    (fun a ha => listRemove_prev_of_ne hself list ha) hout

/-! ## Runs -/

/-- A step is one of the two macros, the same in both files. -/
theorem listStep_cases {macros : Macros} {s t : ListState α} {act : ListAct α}
    (h : listStep macros s act = some t) :
    (∃ item, act = .add item ∧ item ∉ s.items ∧
      t = ⟨(listAdd s.links s.list item).1, (listAdd s.links s.list item).2, item :: s.items⟩) ∨
    (∃ item, act = .remove item ∧ item ∈ s.items ∧
      t = ⟨(listRemove s.links s.list item).1, (listRemove s.links s.list item).2,
        s.items.erase item⟩) := by
  cases act with
  | add item =>
      rw [listStep] at h
      split at h
      · cases h
      · next hitem =>
          refine .inl ⟨item, rfl, hitem, ?_⟩
          cases macros <;> exact (Option.some.inj h).symm
  | remove item =>
      rw [listStep] at h
      split at h
      · next hitem =>
          refine .inr ⟨item, rfl, hitem, ?_⟩
          cases macros <;> exact (Option.some.inj h).symm
      · cases h

/-- The invariant for doubly linked lists. -/
def DoubleInv (s : ListState α) : Prop :=
  IsDouble (fun a => (s.links a).next) (fun a => (s.links a).prev) none s.list s.items

omit [DecidableEq α] in
theorem DoubleInv.doublyLinked {s : ListState α} (h : DoubleInv s) : DoublyLinked s := by
  refine ⟨h.chain, fun a ha b hb => h.inverse (fun q hq => by cases hq) ha hb, ?_⟩
  intro a ha
  rw [DoubleInv, ha] at h
  exact h.prev_head

theorem doubleInv_step (macros : Macros) (s : ListState α) (act : ListAct α) (t : ListState α)
    (hs : DoubleInv s) (hact : AddsToEmpty s act) (h : listStep macros s act = some t) : DoubleInv t := by
  rcases listStep_cases h with ⟨item, rfl, -, rfl⟩ | ⟨item, rfl, hitem, rfl⟩
  · -- added to an empty list, the item is its own head and end
    have hempty : s.list = none := hact
    rw [DoubleInv, hempty] at hs
    have hitems : s.items = [] := isChain_none_iff.1 hs.chain
    simp only [DoubleInv, listAdd, hempty, hitems]
    refine .cons (by rw [Function.update_self]) ?_
    rw [Function.update_self]
    exact .nil
  · obtain ⟨pre, post, -, hsplit, herase⟩ := List.exists_erase_eq hitem
    rw [DoubleInv, hsplit] at hs
    rw [DoubleInv, herase]
    exact isDouble_listRemove hs

/-- An item added to a list that is not empty is not the `prev` of the old head. -/
theorem not_doublyLinked_of_add (macros : Macros) (s : ListState α) (act : ListAct α) (t : ListState α)
    (hs : DoubleInv s) (hact : ¬ AddsToEmpty s act) (h : listStep macros s act = some t) :
    ¬ DoublyLinked t := by
  rcases listStep_cases h with ⟨item, rfl, hitem, rfl⟩ | ⟨item, rfl, -, -⟩
  · obtain ⟨b, hb⟩ := Option.ne_none_iff_exists'.1 hact
    intro ht
    have hhead := hs.doublyLinked.head b hb
    have hchain := hs.chain
    rw [hb] at hchain
    obtain ⟨rest, hrest, -⟩ := isChain_some_iff.1 hchain
    have hbmem : b ∈ s.items := by
      rw [hrest]
      exact List.mem_cons_self
    have hne : b ≠ item := fun he => hitem (he ▸ hbmem)
    -- `next` of the new item is the old head, whose `prev` the macro does not write
    have hprev := (ht.inverse item List.mem_cons_self b (List.mem_cons_of_mem item hbmem)).1
      (by simp only [listAdd, Function.update_self, hb])
    simp only [listAdd, Function.update_of_ne hne, hhead] at hprev
    cases hprev
  · exact absurd trivial hact

theorem stack_step (macros : Macros) (s : ListState α) (act : ListAct α) (t : ListState α)
    (hs : Stack s.links s.list s.items) (hact : RemovesHead s act) (h : listStep macros s act = some t) :
    Stack t.links t.list t.items := by
  rcases listStep_cases h with ⟨item, rfl, hitem, rfl⟩ | ⟨item, rfl, -, rfl⟩
  · exact stack_listAdd hs hitem
  · -- with the head removed the macro needs no `prev`
    have hlist : s.list = some item := hact
    have hchain := hs.chain
    rw [hlist] at hs hchain
    obtain ⟨rest, hrest, -⟩ := isChain_some_iff.1 hchain
    rw [hrest] at hs
    simp only [hlist, hrest, List.erase_cons_head]
    exact stack_listRemove hs

/-- An item behind the head has no `prev`, so removing it makes it the end of the list. -/
theorem not_visits_of_remove (macros : Macros) (s : ListState α) (act : ListAct α) (t : ListState α)
    (hs : Stack s.links s.list s.items) (hact : ¬ RemovesHead s act)
    (h : listStep macros s act = some t) : ¬ Visits t := by
  rcases listStep_cases h with ⟨item, rfl, -, -⟩ | ⟨item, rfl, hitem, rfl⟩
  · exact absurd trivial hact
  · intro ht
    have hlist : s.list ≠ some item := hact
    have hprev := hs.prev_none item hitem
    have hself : (s.links item).prev ≠ some item := by
      rw [hprev]
      exact fun hq => nomatch hq
    obtain ⟨pre, post, hpre, hsplit, herase⟩ := List.exists_erase_eq hitem
    have hnodup := hs.chain.nodup
    have hsegment := isSegment_none_iff.2 hs.chain
    rw [hsplit, isSegment_append_cons_iff] at hsegment
    -- the list now runs through the items before the removed one and ends with it
    have hreach : IsSegment (fun a => ((listRemove s.links s.list item).1 a).next) s.list pre (some item) := by
      apply hsegment.1.congr
      intro a ha
      have hne : a ≠ item := fun he => hpre (he ▸ ha)
      rw [listRemove_next_of_ne s.links s.list hne, hprev, if_neg fun hq => nomatch hq]
    have hend : ((listRemove s.links s.list item).1 item).next = none := by
      simp [listRemove]
    have hfull : IsChain (fun a => ((listRemove s.links s.list item).1 a).next) s.list (pre ++ [item]) := by
      rw [← isSegment_none_iff, isSegment_append_cons_iff, hend]
      exact ⟨hreach, .nil⟩
    simp only [Visits, herase, listRemove_list_of_ne hself s.list, if_neg hlist] at ht
    have hmem : item ∈ pre ++ post := by
      rw [ht.unique hfull]
      exact List.mem_append_right pre List.mem_cons_self
    rw [hsplit, List.nodup_middle, List.nodup_cons] at hnodup
    exact hnodup.1 hmem

/-- **The list macros.** For every sequence of additions of items that are not on the list and removals of
items that are, at any place, with the macros of either file and whatever the memory of the items holds: the
list is doubly linked in every state exactly when every item is added to an empty list, and following `next`
visits the right items in every state exactly when only heads are removed. -/
theorem macros_implement_list_iff (macros : Macros) (links : α → Link α) (acts : List (ListAct α)) :
    (EveryState (listStep macros) DoublyLinked (emptyList links) acts ↔
      EveryStep (listStep macros) AddsToEmpty (emptyList links) acts) ∧
    (EveryState (listStep macros) Visits (emptyList links) acts ↔
      EveryStep (listStep macros) RemovesHead (emptyList links) acts) :=
  ⟨everyState_iff_everyStep (doubleInv_step macros) (fun _ h => h.doublyLinked)
      (not_doublyLinked_of_add macros) acts _ .nil,
    everyState_iff_everyStep (stack_step macros) (fun _ h => h.chain) (not_visits_of_remove macros) acts _
      (stack_nil links)⟩

/-- Control: of two items the older one is removed, and it is still on the list. -/
theorem removed_item_stays_on_list :
    ¬ ∀ (macros : Macros) (links : Nat → Link Nat) (acts : List (ListAct Nat)),
      EveryState (listStep macros) DoublyLinked (emptyList links) acts := by
  intro h
  have hrun := h .threadPool (fun _ => ⟨none, none⟩) [.add 0, .add 1, .remove 0]
  have hlast := ((hrun.2 _ rfl).2 _ rfl).2 _ rfl
  have hfollow := hlast.visits.follow_eq (n := 2) (by decide)
  exact absurd hfollow (by decide)

end Lists

end CppMisc.ThreadPool
