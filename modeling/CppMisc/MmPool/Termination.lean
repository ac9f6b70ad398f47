import CppMisc.MmPool.Chain

/-!
# Requests on a pool of `mempool/mmpool.c` return

A large request needs an `mp_large_s` for its block and asks `mp_alloc` for it. When the pool was created
with at least `sizeof(struct mp_large_s)` bytes, that is a small request, and what is left are walks over
the chain. When it was created with less, it is a large request again: `mp_alloc` and `mp_alloc_large`
call each other for an entry until `malloc` fails, and `mp_create_pool` accepts every size.

On the list of nodes the walks end with the list. On the chain in memory they end because the chain is
well formed, so there the runs considered are again those whose small requests fit (`PtrWalkFits`).
-/

set_option autoImplicit false

namespace CppMisc.MmPool

open CppMisc.Library

/-- The operations that ask for memory. -/
def Act.isRequest : Act → Bool
  | .alloc _ => true
  | .nalloc _ => true
  | .calloc _ => true
  | .memalign _ _ => true
  | .free _ => false
  | .reset => false

/-- Every request returns, given enough frames of the stack. -/
def RequestsReturn {σ : Type} (K : ChainOps σ) (A : Allocator) (s : State σ) : Prop :=
  ∀ a : Act, a.isRequest → ∃ frames, (step K A frames s a).isSome

section Requests

variable {σ : Type} {K : ChainOps σ} {A : Allocator}

theorem requestsReturn_of_chainReturns {s : State σ} (hmax : sizeofLarge ≤ s.pool.max)
    (h : ChainReturns K A s) : RequestsReturn K A s := by
  intro a _
  exact ⟨2, step_returns le_rfl hmax h a⟩

/-- Without entries and with a bound below the size of one, a request above the bound calls itself for
an entry, over and over, as long as `malloc` succeeds. -/
theorem mpAlloc_never_returns (hmalloc : ∀ log size, (A.answer log (.malloc size)).isSome)
    {pool : MpPool σ} (hlarge : pool.large = []) (hmax : pool.max < sizeofLarge) (frames : Nat) :
    ∀ (log : Log) {size : Nat}, pool.max < size → mpAlloc K A frames pool log size = none := by
  induction frames with
  | zero =>
      intro log size _
      rfl
  | succ frames ih =>
      intro log size hsize
      obtain ⟨p, hp⟩ := Option.isSome_iff_exists.1 (hmalloc log size)
      have hinner := ih (.obtained p size :: log) hmax
      simp only [mpAlloc, if_neg (Nat.not_le.2 hsize), mpAllocLarge, Allocator.request, hp, hlarge,
        reuseEntry, recordLarge, Request.size, hinner, Option.map_none]

/-- So the first request for 16 bytes on such a pool never returns. -/
theorem not_requestsReturn_create (hmalloc : ∀ log size, (A.answer log (.malloc size)).isSome)
    {size : Nat} {s : State σ} (hsize : size < sizeofLarge)
    (hcreate : mpCreatePool K A [] size = some s) :
    (∀ frames, step K A frames s (.alloc sizeofLarge) = none) ∧ ¬ RequestsReturn K A s := by
  have hnever : ∀ frames, step K A frames s (.alloc sizeofLarge) = none := by
    intro frames
    obtain ⟨p, -, rfl⟩ := mpCreatePool_cases hcreate
    have hlt : size < mpMaxAllocFromPool := hsize.trans (by decide)
    have hmax : (if size < mpMaxAllocFromPool then size else mpMaxAllocFromPool) < sizeofLarge := by
      rwa [if_pos hlt]
    simp only [step]
    rw [mpAlloc_never_returns hmalloc rfl hmax frames _ hmax]
    rfl
  refine ⟨hnever, fun h => ?_⟩
  obtain ⟨frames, hsome⟩ := h (.alloc sizeofLarge) rfl
  rw [hnever frames] at hsome
  cases hsome

end Requests

theorem malloc_bump (log : Log) (size : Nat) :
    (bump.toAllocator.answer log (.malloc size)).isSome := rfl

/-! ## The chain in memory -/

section Memory

variable {junk : Nat → NodeCell} {spill : PtrChain → Nat → Nat → PtrChain} {A : AlignedAllocator}
  {size : Nat}

/-- On a well-formed chain a small request returns. -/
theorem serve_isSome (hsize : size + sizeofNode < 2 ^ 64) {m : Mid PtrChain} (h : PtrInv size m)
    (aligned : Bool) (n : Nat) :
    ((ptrOps junk spill).serve A.toAllocator aligned n m.pool.chain m.log).isSome := by
  obtain ⟨ptr, c, log, hptr, -⟩ :=
    ptrServe_refines A.toAllocator aligned n h.ok (fresh_block hsize h)
  refine Option.isSome_iff_exists.2 ⟨(ptr, c, log), ?_⟩
  exact hptr

theorem chainReturns_ptrOps (hsize : size + sizeofNode < 2 ^ 64) {s : State PtrChain}
    (h : PtrInv size ⟨[], s.pool, s.log⟩) :
    ChainReturns (ptrOps junk spill) A.toAllocator s := by
  refine ⟨serve_isSome hsize h, fun r p hanswer => ?_, ?_⟩
  · -- the block just obtained is held on the side and disturbs nothing
    have hside := ptrInv_move junk spill hsize _ _ h (.obtain_ r hanswer)
    exact serve_isSome hsize hside true sizeofLarge
  · obtain ⟨cells, hptr, -⟩ := ptrReset_refines h.ok
    simp only [ptrOps, hptr, Option.map_some, Option.isSome_some]

/-- The chain is well formed, and an entry is a small request. -/
structure RoomForEntries (size : Nat) (s : State PtrChain) : Prop where
  inv : PtrInv size ⟨[], s.pool, s.log⟩
  max : sizeofLarge ≤ s.pool.max

theorem roomForEntries_step {frames : Nat} (hsize : size + sizeofNode < 2 ^ 64)
    (s : State PtrChain) (a : Act) (t : State PtrChain) (h : RoomForEntries size s)
    (hfits : PtrWalkFits A.toAllocator s a)
    (hstep : step (ptrOps junk spill) A.toAllocator frames s a = some t) : RoomForEntries size t :=
  ⟨ptrInv_step hsize s a t h.inv hfits hstep, max_of_step hstep ▸ h.max⟩

end Memory

/-- **Requests return.** Take pools of a given size. On the list of nodes, every request returns in every
state of every run, for every allocator, if and only if the size is at least that of an `mp_large_s`. For
a size that does not wrap the same holds on the chain in memory, with a null pointer at `head->next` after
creation and whatever else the memory contains, for the runs whose small requests fit. -/
theorem requests_return_iff (size : Nat) :
    ((∀ (A : Allocator) (frames : Nat) (s : State MpChain) (acts : List Act),
        mpCreatePool listOps A [] size = some s →
        EveryState (step listOps A frames) (RequestsReturn listOps A) s acts) ↔
      sizeofLarge ≤ size) ∧
    (size + sizeofPool + sizeofNode < 2 ^ 64 →
      ((∀ (A : AlignedAllocator) (junk : Nat → NodeCell) (spill : PtrChain → Nat → Nat → PtrChain)
          (frames : Nat) (s : State PtrChain) (acts : List Act),
          mpCreatePool (ptrOps junk spill) A.toAllocator [] size = some s →
          (junk (s.pool.base + sizeofPool)).next = none →
          EveryStep (step (ptrOps junk spill) A.toAllocator frames) (PtrWalkFits A.toAllocator)
            s acts →
          EveryState (step (ptrOps junk spill) A.toAllocator frames)
            (RequestsReturn (ptrOps junk spill) A.toAllocator) s acts) ↔
        sizeofLarge ≤ size)) := by
  refine ⟨⟨fun h => ?_, fun hle => ?_⟩, fun hsize => ⟨fun h => ?_, fun hle => ?_⟩⟩
  · by_contra hlt
    obtain ⟨s, hcreate⟩ : ∃ s, mpCreatePool listOps bump.toAllocator [] size = some s := ⟨_, rfl⟩
    exact (not_requestsReturn_create malloc_bump (Nat.not_le.1 hlt) hcreate).2
      (h bump.toAllocator 0 s [] hcreate)
  · intro A frames s acts hcreate
    have hkeep : ∀ (t : State MpChain) (a : Act) (u : State MpChain), sizeofLarge ≤ t.pool.max →
        step listOps A frames t a = some u → sizeofLarge ≤ u.pool.max := by
      intro t a u ht hstep
      exact max_of_step hstep ▸ ht
    refine everyState_of_step hkeep ?_ acts s (sizeofLarge_le_max hle hcreate)
    intro t ht
    exact requestsReturn_of_chainReturns ht (chainReturns_listOps A t)
  · by_contra hlt
    obtain ⟨s, hcreate⟩ : ∃ s, mpCreatePool (ptrOps clearMemory fun c _ _ => c) bump.toAllocator []
      size = some s := ⟨_, rfl⟩
    exact (not_requestsReturn_create malloc_bump (Nat.not_le.1 hlt) hcreate).2
      (h bump clearMemory (fun c _ _ => c) 0 s [] hcreate rfl trivial)
  · intro A junk spill frames s acts hcreate hnull hfits
    have hnode := node_size_lt hsize
    refine everyState_of_everyStep (roomForEntries_step hnode) ?_ acts s
      ⟨ptrInv_create hsize hcreate hnull, sizeofLarge_le_max hle hcreate⟩ hfits
    intro t ht
    exact requestsReturn_of_chainReturns ht.max (chainReturns_ptrOps hnode ht.inv)

/-- Control: on a pool of 4096 bytes in clear memory every request returns throughout the requests
`fittingRequests`. -/
theorem requests_return_fittingRequests :
    mpCreatePool (ptrOps clearMemory fun c _ _ => c) bump.toAllocator [] 4096 =
        some (ptrPool4096 clearMemory) ∧
      EveryState (step (ptrOps clearMemory fun c _ _ => c) bump.toAllocator 2)
        (RequestsReturn (ptrOps clearMemory fun c _ _ => c) bump.toAllocator)
        (ptrPool4096 clearMemory) fittingRequests := by
  have hcreate : mpCreatePool (ptrOps clearMemory fun c _ _ => c) bump.toAllocator [] 4096 =
      some (ptrPool4096 clearMemory) := rfl
  have hsize : 4096 + sizeofPool + sizeofNode < 2 ^ 64 := by decide
  have hle : sizeofLarge ≤ 4096 := by decide
  refine ⟨hcreate, ?_⟩
  exact ((requests_return_iff 4096).2 hsize).2 hle bump clearMemory (fun c _ _ => c) 2
    (ptrPool4096 clearMemory) fittingRequests hcreate rfl (by decide +kernel)

/-- A pool of 8 bytes is created without complaint, and the first `mp_alloc` of 16 bytes on it never
returns: `malloc` succeeds every time, and every block needs an entry of 16 bytes. -/
theorem eightBytes_request_never_returns :
    ∃ s, mpCreatePool listOps bump.toAllocator [] 8 = some s ∧ s.pool.max = 8 ∧
      (∀ frames, step listOps bump.toAllocator frames s (.alloc 16) = none) ∧
      ¬ EveryState (step listOps bump.toAllocator 2) (RequestsReturn listOps bump.toAllocator) s
        [] := by
  have hcreate : mpCreatePool listOps bump.toAllocator [] 8 =
      some ⟨⟨32, 8, ⟨[headNode 32 8], 0⟩, [], []⟩, [.obtained 32 64]⟩ := rfl
  obtain ⟨hnever, hnot⟩ := not_requestsReturn_create malloc_bump (by decide) hcreate
  exact ⟨_, hcreate, rfl, hnever, hnot⟩

end CppMisc.MmPool
