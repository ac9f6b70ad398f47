import CppMisc.CopyOnUpdate.Model
import CppMisc.Library.Slots

/-!
# Snapshot isolation of the copy-on-update map

The use count of every cell is the number of references to it: `data_`, the writer's local
`newData` and the readers' snapshots (`refCount`). The invariant `Isolated` adds that no snapshot
refers to the current map from the moment the writer has found it unshared, so the assignment
changes no map that a reader holds.
-/

set_option autoImplicit false

namespace CppMisc.CopyOnUpdate

open CppMisc.Library

/-- Snapshots that refer to the cell `p`. -/
def readersOf (s : UserData) (p : Nat) : Nat := s.readers.countP fun snap => snap.ptr = p

/-- The reference of the writer's local `newData`. -/
def Writer.refs : Writer → Nat → Nat
  | .dropping _ _ old, p => if old = p then 1 else 0
  | _, _ => 0

/-- References to the cell `p`. -/
def refCount (s : UserData) (p : Nat) : Nat :=
  (if s.data_ = p then 1 else 0) + s.writer.refs p + readersOf s p

/-- The writer has passed its test, so the current map must have no reader. -/
def Writer.exclusive : Writer → Bool
  | .dropping _ _ _ => true
  | .asserting _ _ => true
  | .writing _ _ => true
  | _ => false

/-- The invariant behind isolation. -/
structure Isolated (s : UserData) : Prop where
  counted : ∀ p, (s.heap p).useCount = refCount s p
  data_lt : s.data_ < s.fresh
  old_lt : ∀ key entry old, s.writer = .dropping key entry old → old < s.fresh ∧ old ≠ s.data_
  reader_lt : ∀ snap ∈ s.readers, snap.ptr < s.fresh
  seen : ∀ snap ∈ s.readers, (s.heap snap.ptr).contents = snap.seen
  alone : s.writer.exclusive = true → readersOf s s.data_ = 0
  running : s.writer ≠ .aborted

theorem isolated_initial : Isolated initial where
  counted := by
    intro p
    by_cases hp : p = 0
    · simp [initial, refCount, Writer.refs, readersOf, hp]
    · simp [initial, refCount, Writer.refs, readersOf, hp, Ne.symm hp]
  data_lt := by decide
  old_lt := by simp [initial]
  reader_lt := by simp [initial]
  seen := by simp [initial]
  alone := by simp [initial, Writer.exclusive]
  running := by simp [initial]

@[simp] theorem retain_contents (heap : Nat → MapCell) (p q : Nat) :
    (retain heap p q).contents = (heap q).contents := by
  by_cases h : q = p
  · subst h; simp [retain]
  · simp [retain, h]

@[simp] theorem release_contents (heap : Nat → MapCell) (p q : Nat) :
    (release heap p q).contents = (heap q).contents := by
  by_cases h : q = p
  · subst h; simp [release]
  · simp [release, h]

@[simp] theorem assign_useCount (heap : Nat → MapCell) (p q : Nat) (key : Key) (entry : Entry) :
    (assign heap p key entry q).useCount = (heap q).useCount := by
  by_cases h : q = p
  · subst h; simp [assign]
  · simp [assign, h]

theorem retain_useCount (heap : Nat → MapCell) (p q : Nat) :
    (retain heap p q).useCount = (heap q).useCount + if p = q then 1 else 0 := by
  by_cases h : p = q
  · subst h; simp [retain]
  · simp [retain, h, Ne.symm h]

theorem release_useCount (heap : Nat → MapCell) (p q : Nat) :
    (release heap p q).useCount = (heap q).useCount - if p = q then 1 else 0 := by
  by_cases h : p = q
  · subst h; simp [release]
  · simp [release, h, Ne.symm h]

/-- No snapshot refers to a cell with no reader. -/
theorem ptr_ne_of_readersOf_eq_zero {s : UserData} {p : Nat} (h : readersOf s p = 0)
    {snap : Snapshot} (hs : snap ∈ s.readers) : snap.ptr ≠ p := by
  intro hp
  have hnone := List.countP_eq_zero.1 h snap hs
  simp [hp] at hnone

/-- A cell that was never allocated has no reader. -/
theorem readersOf_fresh {s : UserData} (h : Isolated s) : readersOf s s.fresh = 0 := by
  refine List.countP_eq_zero.2 fun snap hs => ?_
  have hlt := h.reader_lt snap hs
  simp only [decide_eq_true_eq]
  omega

theorem isolated_getData {s : UserData} (h : Isolated s) (hidle : s.writer = .idle) :
    Isolated (getData s) where
  counted := by
    -- the new snapshot is the reference that `retain` counts
    intro p
    have hp := h.counted p
    simp only [getData, refCount, readersOf, retain_useCount, List.countP_append] at hp ⊢
    by_cases hd : s.data_ = p
    · simp only [hd, if_true, List.countP_singleton, decide_true] at hp ⊢
      omega
    · simp only [hd, if_false, List.countP_singleton, decide_false] at hp ⊢
      simpa using hp
  data_lt := h.data_lt
  old_lt := h.old_lt
  reader_lt := by
    intro snap hs
    rcases List.mem_append.1 hs with hs | hs
    · exact h.reader_lt snap hs
    · rw [List.mem_singleton.1 hs]
      exact h.data_lt
  seen := by
    intro snap hs
    rcases List.mem_append.1 hs with hs | hs
    · simpa [getData] using h.seen snap hs
    · -- the new snapshot has just been filled from the map
      rw [List.mem_singleton.1 hs]
      simp [getData]
  alone := by simp [getData, hidle, Writer.exclusive]
  running := h.running

theorem isolated_release {s : UserData} (h : Isolated s) {r : Nat} {snap : Snapshot}
    (hr : s.readers[r]? = some snap) :
    Isolated { s with heap := release s.heap snap.ptr, readers := s.readers.eraseIdx r } where
  counted := by
    -- the snapshot that goes is the reference that `release` takes off
    intro p
    have hp := h.counted p
    have hc := countP_eraseIdx (fun x : Snapshot => decide (x.ptr = p)) hr
    simp only [refCount, readersOf, release_useCount, decide_eq_true_eq] at hp hc ⊢
    omega
  data_lt := h.data_lt
  old_lt := h.old_lt
  reader_lt := fun x hx => h.reader_lt x (List.mem_of_mem_eraseIdx hx)
  seen := by
    intro x hx
    simpa using h.seen x (List.mem_of_mem_eraseIdx hx)
  alone := by
    intro he
    have hc := countP_eraseIdx (fun x : Snapshot => decide (x.ptr = s.data_)) hr
    have hz := h.alone he
    simp only [readersOf] at hz ⊢
    omega
  running := h.running

/-- A use count of one leaves no reader of the current map. -/
theorem readersOf_data_of_unique {s : UserData} (h : Isolated s) (hu : unique s = true) :
    readersOf s s.data_ = 0 := by
  have hc := h.counted s.data_
  simp only [unique, beq_iff_eq] at hu
  simp only [refCount, if_true] at hc
  omega

/-- With no reader and no `newData` left, the assertion holds. -/
theorem unique_of_asserting {s : UserData} (h : Isolated s) {key : Key} {entry : Entry}
    (hw : s.writer = .asserting key entry) : unique s = true := by
  have hc := h.counted s.data_
  have hz := h.alone (by rw [hw]; rfl)
  simp only [refCount, hw, Writer.refs, if_true] at hc
  simp only [unique, beq_iff_eq]
  omega

theorem isolated_swapIn {s : UserData} (h : Isolated s) {key : Key} {entry : Entry}
    (hw : s.writer = .swapping key entry) : Isolated (swapIn s key entry) where
  counted := by
    intro p
    have hp := h.counted p
    have hlt := h.data_lt
    have hf := readersOf_fresh h
    by_cases hpf : p = s.fresh
    · -- the new cell: `data_` is its only reference
      subst hpf
      have hne : s.data_ ≠ s.fresh := by omega
      have hr : readersOf (swapIn s key entry) s.fresh = readersOf s s.fresh := rfl
      simp [swapIn, refCount, Writer.refs, hne] at hr ⊢
      omega
    · -- the old map keeps its count: `newData` refers to it in place of `data_`
      have hr : readersOf (swapIn s key entry) p = readersOf s p := rfl
      simp only [refCount, hw, Writer.refs] at hp
      simp [swapIn, refCount, Writer.refs, hpf, Ne.symm hpf] at hr ⊢
      omega
  data_lt := by simp [swapIn]
  old_lt := by
    intro k e old ho
    have hlt := h.data_lt
    simp only [swapIn, Writer.dropping.injEq] at ho ⊢
    omega
  reader_lt := by
    intro snap hs
    have hlt := h.reader_lt snap hs
    simp only [swapIn]
    omega
  seen := by
    intro snap hs
    -- the new cell is not one that a snapshot can refer to
    have hlt := h.reader_lt snap hs
    have hne : snap.ptr ≠ s.fresh := by omega
    simpa [swapIn, hne] using h.seen snap hs
  alone := fun _ => readersOf_fresh h
  running := by simp [swapIn]

theorem isolated_drop {s : UserData} (h : Isolated s) {key : Key} {entry : Entry} {old : Nat}
    (hw : s.writer = .dropping key entry old) :
    Isolated { s with heap := release s.heap old, writer := .asserting key entry } where
  counted := by
    intro p
    have hp := h.counted p
    simp only [refCount, readersOf, hw, Writer.refs, release_useCount] at hp ⊢
    omega
  data_lt := h.data_lt
  old_lt := by simp
  reader_lt := h.reader_lt
  seen := by
    intro snap hs
    simpa using h.seen snap hs
  alone := fun _ => h.alone (by rw [hw]; rfl)
  running := by simp

theorem isolated_assign {s : UserData} (h : Isolated s) {key : Key} {entry : Entry}
    (hw : s.writer = .writing key entry) :
    Isolated { s with
      heap := assign s.heap s.data_ key entry
      writer := .idle
      updates := (key, entry) :: s.updates } where
  counted := by
    intro p
    have hp := h.counted p
    simpa [refCount, readersOf, hw, Writer.refs] using hp
  data_lt := h.data_lt
  old_lt := by simp
  reader_lt := h.reader_lt
  seen := by
    -- the map written to is not the map of any snapshot
    intro snap hs
    have hne := ptr_ne_of_readersOf_eq_zero (h.alone (by rw [hw]; rfl)) hs
    simpa [assign, hne] using h.seen snap hs
  alone := by simp [Writer.exclusive]
  running := by simp

/-- A move of the program counter alone. -/
theorem isolated_writer {s : UserData} (h : Isolated s) {w : Writer}
    (hrefs : ∀ p, w.refs p = s.writer.refs p) (hdrop : ∀ key entry old, w ≠ .dropping key entry old)
    (halone : w.exclusive = true → readersOf s s.data_ = 0) (hrun : w ≠ .aborted) :
    Isolated { s with writer := w } where
  counted := by
    intro p
    have hp := h.counted p
    simpa [refCount, readersOf, hrefs p] using hp
  data_lt := h.data_lt
  old_lt := fun key entry old ho => absurd ho (hdrop key entry old)
  reader_lt := h.reader_lt
  seen := h.seen
  alone := halone
  running := hrun

theorem isolated_updateStep {s t : UserData} (h : Isolated s) (ht : updateStep s = some t) :
    Isolated t := by
  unfold updateStep at ht
  cases hw : s.writer with
  | idle => simp [hw] at ht
  | entered key entry =>
      simp only [hw] at ht
      by_cases hu : unique s = true
      · simp only [hu, if_true, Option.some.injEq] at ht
        subst ht
        exact isolated_writer h (by simp [hw, Writer.refs]) (by simp)
          (fun _ => readersOf_data_of_unique h hu) (by simp)
      · simp only [hu, Bool.false_eq_true, if_false, Option.some.injEq] at ht
        subst ht
        exact isolated_writer h (by simp [hw, Writer.refs]) (by simp)
          (by simp [Writer.exclusive]) (by simp)
  | swapping key entry =>
      simp only [hw, Option.some.injEq] at ht
      subst ht
      exact isolated_swapIn h hw
  | dropping key entry old =>
      simp only [hw, Option.some.injEq] at ht
      subst ht
      exact isolated_drop h hw
  | asserting key entry =>
      -- the branch in which the assertion fails is not taken
      have hu := unique_of_asserting h hw
      simp only [hw, hu, if_true, Option.some.injEq] at ht
      subst ht
      exact isolated_writer h (by simp [hw, Writer.refs]) (by simp)
        (fun _ => readersOf_data_of_unique h hu) (by simp)
  | writing key entry =>
      simp only [hw, Option.some.injEq] at ht
      subst ht
      exact isolated_assign h hw
  | aborted => simp [hw] at ht

theorem isolated_step (s : UserData) (a : Act) (t : UserData) (h : Isolated s)
    (ht : step s a = some t) : Isolated t := by
  cases a with
  | getData =>
      simp only [step] at ht
      split at ht
      · next hidle =>
          cases ht
          exact isolated_getData h hidle
      · cases ht
  | release r =>
      simp only [step] at ht
      split at ht
      · cases ht
      · next snap hr =>
          cases ht
          exact isolated_release h hr
  | lock key entry =>
      simp only [step] at ht
      split at ht
      · next hidle =>
          cases ht
          exact isolated_writer h (by simp [hidle, Writer.refs]) (by simp)
            (by simp [Writer.exclusive]) (by simp)
      · cases ht
  | update => exact isolated_updateStep h ht

theorem isolated_reaches {s : UserData} (h : Reaches step initial s) : Isolated s :=
  h.invariant isolated_step isolated_initial

/-- **Snapshot isolation.** In every state that any interleaving of readers and writers reaches,
each snapshot still held shows the contents it was obtained with and its map is alive, and the
assertion `data_.unique()` has not failed. -/
theorem snapshot_isolation {s : UserData} (h : Reaches step initial s) :
    (∀ snap ∈ s.readers,
      (s.heap snap.ptr).contents = snap.seen ∧ 0 < (s.heap snap.ptr).useCount) ∧
      s.writer ≠ .aborted := by
  have hi := isolated_reaches h
  refine ⟨fun snap hs => ⟨hi.seen snap hs, ?_⟩, hi.running⟩
  have hc := hi.counted snap.ptr
  have hpos : 0 < readersOf s snap.ptr := List.countP_pos_iff.2 ⟨snap, hs, by simp⟩
  simp only [refCount] at hc
  omega

/-- A reader takes a snapshot; the first update swaps the map away from it, the second writes in
place. -/
def heldSnapshot : List Act :=
  [.getData, .lock "temparature" 20, .update, .update, .update, .update, .update,
    .lock "temparature" 21, .update, .update, .update]

/-- Control: the snapshot of `heldSnapshot` is held throughout and keeps its contents. -/
theorem snapshot_isolation_heldSnapshot :
    ∃ s, run step initial heldSnapshot = some s ∧ s.readers.length = 1 ∧
      ∀ snap ∈ s.readers, (s.heap snap.ptr).contents = snap.seen := by
  have hlen : (run step initial heldSnapshot).map (fun s => s.readers.length) = some 1 := rfl
  obtain ⟨s, hs, hone⟩ := Option.map_eq_some_iff.1 hlen
  exact ⟨s, hs, hone, fun snap hm => ((snapshot_isolation ⟨heldSnapshot, hs⟩).1 snap hm).1⟩

end CppMisc.CopyOnUpdate
