import CppMisc.Library.Chains

/-!
# The list macros of the thread pools

`LIST_ADD` and `LIST_REMOVE` of `threadpool/thread_pool.c`, and `LL_ADD` and `LL_REMOVE` of
`threadpool/tp.c`, expand to the same statements. They are embedded over a memory that gives the
`prev` and `next` field of every item. Adding writes the fields of the new item only: the `prev`
field of the old head keeps its value.

Used as a stack, the macros do implement a list: items that are added at the head and removed at the
head form a chain whose `prev` fields are all null (`Stack`).
-/

set_option autoImplicit false

namespace CppMisc.ThreadPool

open CppMisc.Library

universe u

variable {α : Type u} [DecidableEq α]

/-- The two pointer fields of a list item. -/
structure Link (α : Type u) where
  prev : Option α
  next : Option α

/-- `LIST_ADD(list, item)`. -/
def listAdd (m : α → Link α) (list : Option α) (item : α) : (α → Link α) × Option α :=
  (Function.update m item ⟨none, list⟩, some item)

/-- `if (item->prev) item->prev->next = item->next;` -/
def unlinkPrev (m : α → Link α) (item : α) : α → Link α :=
  match (m item).prev with
  | some p => Function.update m p { m p with next := (m item).next }
  | none => m

/-- `if (item->next) item->next->prev = item->prev;` -/
def unlinkNext (m : α → Link α) (item : α) : α → Link α :=
  match (m item).next with
  | some n => Function.update m n { m n with prev := (m item).prev }
  | none => m

/-- `LIST_REMOVE(list, item)`: the four statements in order. -/
def listRemove (m : α → Link α) (list : Option α) (item : α) : (α → Link α) × Option α :=
  let m' := unlinkNext (unlinkPrev m item) item
  let list' := if list = some item then (m' item).next else list
  (Function.update m' item ⟨none, none⟩, list')

/-- `LL_ADD(item, list)`. -/
def llAdd (m : α → Link α) (list : Option α) (item : α) : (α → Link α) × Option α :=
  listAdd m list item

/-- `LL_REMOVE(item, list)`. -/
def llRemove (m : α → Link α) (list : Option α) (item : α) : (α → Link α) × Option α :=
  listRemove m list item

theorem listAdd_next (m : α → Link α) (list : Option α) (item a : α) :
    ((listAdd m list item).1 a).next = if a = item then list else (m a).next := by
  by_cases ha : a = item
  · simp [listAdd, ha]
  · simp [listAdd, ha]

theorem listAdd_prev {m : α → Link α} (hprev : ∀ a, (m a).prev = none) (list : Option α) (item a : α) :
    ((listAdd m list item).1 a).prev = none := by
  by_cases ha : a = item
  · simp [listAdd, ha]
  · simp [listAdd, ha, hprev a]

@[simp] theorem unlinkNext_next (m : α → Link α) (item a : α) :
    (unlinkNext m item a).next = (m a).next := by
  cases hn : (m item).next with
  | none => simp [unlinkNext, hn]
  | some n =>
      by_cases ha : a = n
      · subst ha; simp [unlinkNext, hn]
      · simp [unlinkNext, hn, ha]

theorem unlinkNext_prev (m : α → Link α) (item a : α) :
    (unlinkNext m item a).prev =
      if (m item).next = some a then (m item).prev else (m a).prev := by
  cases hn : (m item).next with
  | none => simp [unlinkNext, hn]
  | some n =>
      by_cases ha : a = n
      · subst ha; simp [unlinkNext, hn]
      · simp [unlinkNext, hn, ha, Ne.symm ha]

@[simp] theorem unlinkPrev_prev (m : α → Link α) (item a : α) :
    (unlinkPrev m item a).prev = (m a).prev := by
  cases hp : (m item).prev with
  | none => simp [unlinkPrev, hp]
  | some p =>
      by_cases ha : a = p
      · subst ha; simp [unlinkPrev, hp]
      · simp [unlinkPrev, hp, ha]

theorem unlinkPrev_next (m : α → Link α) (item a : α) :
    (unlinkPrev m item a).next =
      if (m item).prev = some a then (m item).next else (m a).next := by
  cases hp : (m item).prev with
  | none => simp [unlinkPrev, hp]
  | some p =>
      by_cases ha : a = p
      · subst ha; simp [unlinkPrev, hp]
      · simp [unlinkPrev, hp, ha, Ne.symm ha]

section NoPrev

variable {m : α → Link α} (hprev : ∀ a, (m a).prev = none) (list : Option α) (item : α)

include hprev

/-- As long as no item has a `prev` pointer, `LIST_REMOVE` changes the `next` field of its item only. -/
theorem listRemove_next (a : α) :
    ((listRemove m list item).1 a).next = if a = item then none else (m a).next := by
  have hsame : unlinkPrev m item = m := by simp [unlinkPrev, hprev item]
  by_cases ha : a = item
  · subst ha
    simp [listRemove]
  · simp [listRemove, hsame, ha]

theorem listRemove_prev (a : α) : ((listRemove m list item).1 a).prev = none := by
  have hsame : unlinkPrev m item = m := by simp [unlinkPrev, hprev item]
  by_cases ha : a = item
  · subst ha
    simp [listRemove]
  · simp [listRemove, hsame, ha, unlinkNext_prev, hprev]

theorem listRemove_list :
    (listRemove m list item).2 = if list = some item then (m item).next else list := by
  have hsame : unlinkPrev m item = m := by simp [unlinkPrev, hprev item]
  simp [listRemove, hsame]

end NoPrev

/-- The items of `l` form the list, and none of them has a `prev` pointer. -/
structure Stack (m : α → Link α) (list : Option α) (l : List α) : Prop where
  chain : IsChain (fun a => (m a).next) list l
  prev_none : ∀ a ∈ l, (m a).prev = none

omit [DecidableEq α] in
theorem stack_nil (m : α → Link α) : Stack m none [] := ⟨.nil, by simp⟩

/-- Adding an item that is not on the list puts it in front. -/
theorem stack_listAdd {m : α → Link α} {list : Option α} {l : List α} (h : Stack m list l)
    {item : α} (hitem : item ∉ l) :
    Stack (listAdd m list item).1 (listAdd m list item).2 (item :: l) := by
  have hother : ∀ a ∈ l, Function.update m item ⟨none, list⟩ a = m a := by
    intro a ha
    have hne : a ≠ item := fun he => hitem (he ▸ ha)
    simp [hne]
  refine ⟨.cons ?_, ?_⟩
  · simp only [listAdd, Function.update_self]
    exact h.chain.congr fun a ha => by rw [hother a ha]
  · intro a ha
    rcases List.mem_cons.1 ha with rfl | ha
    · simp [listAdd]
    · simp only [listAdd, hother a ha]
      exact h.prev_none a ha

/-- Removing the head leaves the rest of the list, which is then `list`. -/
theorem stack_listRemove {m : α → Link α} {item : α} {l : List α}
    (h : Stack m (some item) (item :: l)) :
    Stack (listRemove m (some item) item).1 (listRemove m (some item) item).2 l := by
  obtain ⟨rest, hl, hrest⟩ := isChain_some_iff.1 h.chain
  obtain ⟨-, rfl⟩ := List.cons.inj hl
  have hnotin : item ∉ l := (List.nodup_cons.1 h.chain.nodup).1
  have hprev : unlinkPrev m item = m := by
    simp [unlinkPrev, h.prev_none item List.mem_cons_self]
  -- the only other field written is the `prev` of the new head, which was null already
  have hstill : ∀ a ∈ l, (unlinkNext m item a).prev = none := by
    intro a ha
    rw [unlinkNext_prev]
    split
    · exact h.prev_none item List.mem_cons_self
    · exact h.prev_none a (List.mem_cons_of_mem item ha)
  have hne : ∀ a ∈ l, a ≠ item := fun a ha he => hnotin (he ▸ ha)
  simp only [listRemove, hprev, if_true, unlinkNext_next]
  refine ⟨hrest.congr fun a ha => ?_, fun a ha => ?_⟩
  · rw [Function.update_of_ne (hne a ha), unlinkNext_next]
  · rw [Function.update_of_ne (hne a ha)]
    exact hstill a ha

end CppMisc.ThreadPool
