import CppMisc.MemPool.Small

/-!
# Large blocks of `mempool/mem_pool.c`

`mp_alloc_large` makes an entry for its block and points the entry to the list, but it never makes the
entry the head of the list, so `mp->large` is a null pointer in every state. No block is found from it,
and a block that was handed out can be neither freed nor reused by the pool.

The blocks are tracked exactly in the runs without a large request, among the runs in which the
underlying allocations succeed and the entries fit.
-/

set_option autoImplicit false

namespace CppMisc.MemPool

open CppMisc.Library

/-- The large blocks handed out are those of the entries reachable from `mp->large`, each once. -/
def Tracked (s : State) : Prop :=
  ∃ entries, IsChain (fun a => (s.pool.entries a).next) s.pool.large entries ∧
    (entries.filterMap fun a => (s.pool.entries a).alloc).Perm s.handed ∧ s.handed.Nodup

/-- The allocation under a large request succeeds, and its entry fits in the current node. -/
def LargeGranted (A : Allocator) (s : State) (size : Nat) : Prop :=
  size > mpPageSize - sizeofNode →
    (A.answer s.log (.posixMemalign mpAlignment size)).isSome = true ∧ Fits s.pool sizeofLarge

instance (A : Allocator) (s : State) (size : Nat) : Decidable (LargeGranted A s size) :=
  inferInstanceAs (Decidable (_ → _ ∧ _))

/-- No function sets `mp->large`. -/
theorem large_mpAlloc {A : Allocator} {mp : MpPool} {log : Log} {size : Nat} {r : Ret}
    (h : mpAlloc A mp log size = some r) : r.pool.large = mp.large := by
  have hsmall : ∀ (log' : Log) (n : Nat), (mpAllocSmall mp log' n).pool.large = mp.large := by
    intro log' n
    simp only [mpAllocSmall]
    split
    · rfl
    · rfl
  simp only [mpAlloc] at h
  split at h
  · simp only [mpAllocLarge] at h
    split at h
    · cases h
      rfl
    · split at h
      · cases h
      · cases h
        rfl
      · split at h
        · cases h
          exact hsmall _ _
        · cases h
  · cases h
    exact hsmall _ _

/-- A large request that goes through hands out the block it obtained. -/
theorem handed_of_large {A : Allocator} {s t : State} {size : Nat}
    (hlarge : size > mpPageSize - sizeofNode)
    (hgranted : (A.answer s.log (.posixMemalign mpAlignment size)).isSome = true)
    (h : step A s size = some t) : ∃ m, t.handed = m :: s.handed := by
  obtain ⟨m, hm⟩ := Option.isSome_iff_exists.1 hgranted
  obtain ⟨r, hr, rfl⟩ := Option.map_eq_some_iff.1 h
  refine ⟨m, ?_⟩
  have hresult : r.result = .value (some m) := by
    simp only [mpAlloc, if_pos hlarge, mpAllocLarge, Allocator.request, hm] at hr
    split at hr
    · cases hr
    · cases hr
      rfl
    · split at hr
      · cases hr
        rfl
      · cases hr
  simp [hresult, hlarge]

/-- The list is empty, and so far no large block was handed out. -/
structure NoLarge (s : State) : Prop where
  large : s.pool.large = none
  handed : s.handed = []

theorem noLarge_create {A : Allocator} {junk : Nat → MpLarge} {size : Nat} {s : State}
    (h : mpCreate A junk [] size = some s) : NoLarge s := by
  obtain ⟨base, -, rfl⟩ := mpCreate_cases h
  exact ⟨rfl, rfl⟩

theorem large_step {A : Allocator} {s t : State} {size : Nat} (h : step A s size = some t) :
    t.pool.large = s.pool.large := by
  obtain ⟨r, hr, rfl⟩ := Option.map_eq_some_iff.1 h
  exact large_mpAlloc hr

theorem noLarge_step {A : Allocator} {s t : State} {size : Nat} (h : NoLarge s)
    (hsmall : size ≤ mpPageSize - sizeofNode) (hstep : step A s size = some t) : NoLarge t := by
  refine ⟨(large_step hstep).trans h.large, ?_⟩
  obtain ⟨r, -, rfl⟩ := Option.map_eq_some_iff.1 hstep
  simp only [if_neg (Nat.not_lt.2 hsmall)]
  exact h.handed

theorem NoLarge.tracked {s : State} (h : NoLarge s) : Tracked s := by
  refine ⟨[], ?_, ?_, ?_⟩
  · rw [h.large]
    exact .nil
  · rw [h.handed]
    exact .nil
  · rw [h.handed]
    exact .nil

/-- From an empty list no block is reachable. -/
theorem not_tracked {s : State} (hlarge : s.pool.large = none) (hhanded : s.handed ≠ []) :
    ¬ Tracked s := by
  rintro ⟨entries, hchain, hperm, -⟩
  rw [hlarge, isChain_none_iff] at hchain
  subst hchain
  exact hhanded (List.nil_perm.1 hperm)

/-- **Large blocks.** Take a pool of any size and any sequence of requests whose calls all return, in
which the allocations under the large requests succeed and their entries fit. After every call the large
blocks handed out are the blocks of the entries reachable from `mp->large`, each once, if and only if no
request is a large one. -/
theorem large_blocks_tracked_iff (A : AlignedAllocator) (junk : Nat → MpLarge) {size : Nat} {s t : State}
    (hcreate : mpCreate A.toAllocator junk [] size = some s) {reqs : List Nat}
    (hrun : run (step A.toAllocator) s reqs = some t)
    (hgranted : EveryStep (step A.toAllocator) (LargeGranted A.toAllocator) s reqs) :
    EveryState (step A.toAllocator) Tracked s reqs ↔ ∀ n ∈ reqs, n ≤ mpPageSize - sizeofNode := by
  rw [← everyStep_iff_forall hrun]
  have hkeep : ∀ (u : State) (n : Nat) (v : State), NoLarge u → LargeGranted A.toAllocator u n →
      n ≤ mpPageSize - sizeofNode → step A.toAllocator u n = some v → NoLarge v :=
    fun _ _ _ hu _ hsmall hstep => noLarge_step hu hsmall hstep
  have hfail : ∀ (u : State) (n : Nat) (v : State), NoLarge u → LargeGranted A.toAllocator u n →
      ¬ n ≤ mpPageSize - sizeofNode → step A.toAllocator u n = some v → ¬ Tracked v := by
    intro u n v hu hn hlarge hstep
    have hlarge := Nat.lt_of_not_le hlarge
    obtain ⟨hanswer, -⟩ := hn hlarge
    obtain ⟨m, hm⟩ := handed_of_large hlarge hanswer hstep
    apply not_tracked
    · rw [large_step hstep, hu.large]
    · rw [hm]
      exact List.cons_ne_nil _ _
  exact everyState_iff_of_everyStep hkeep (fun _ hu => hu.tracked) hfail reqs s
    (noLarge_create hcreate) hgranted

/-- Control: two small requests. -/
theorem large_blocks_tracked_fullPool :
    mpCreate bump.toAllocator clearEntries [] 100 = some (poolAt32 100) ∧
      EveryState (step bump.toAllocator) Tracked (poolAt32 100) [20, 16] := by
  have hcreate : mpCreate bump.toAllocator clearEntries [] 100 = some (poolAt32 100) := rfl
  exact ⟨hcreate, (large_blocks_tracked_iff bump clearEntries hcreate rfl (by decide)).2 (by decide)⟩

/-- A request of 5000 bytes is given a block and an entry for it, but the block is not tracked. -/
theorem large_block_untracked :
    mpCreate bump.toAllocator clearEntries [] 100 = some (poolAt32 100) ∧
      LargeGranted bump.toAllocator (poolAt32 100) 5000 ∧
      ∃ t, step bump.toAllocator (poolAt32 100) 5000 = some t ∧ t.handed = [192] ∧
        (t.pool.entries 96).alloc = some 192 ∧ t.pool.large = none ∧ ¬ Tracked t :=
  ⟨rfl, by decide, _, rfl, rfl, rfl, rfl, not_tracked rfl (List.cons_ne_nil _ _)⟩

end CppMisc.MemPool
