import CppMisc.MemPool.Model
import CppMisc.MmPool.Soundness

/-!
# Small requests of `mempool/mem_pool.c`

`mp_alloc` serves a small request from the head node if its test passes and otherwise ends without a
result: the call of `mp_alloc_block` is missing. The test compares a converted difference, so it also
passes when `last` lies behind `end`, as in a pool of fewer than 64 bytes, where the headers alone reach
beyond `end`.

`CallOk` is what is asked of a call, whatever `posix_memalign` answers in it. All calls of a run meet it
exactly when the two headers and all sizes together fit into the size of the pool. Calling
`mp_alloc_block` as it is would not be enough, since it returns the header of the new node
(`mpAllocBlock_returns_header`).
-/

set_option autoImplicit false

namespace CppMisc.MemPool

open CppMisc.Library
open CppMisc.MmPool (sizeT)

/-- The bytes of `b` lie in the block of the node `p`, behind its header. -/
def BehindHeader (log : Log) (p : MpNode) (b : Block) : Prop :=
  ∃ block ∈ live log, block.addr ≤ p.addr ∧ p.addr + sizeofNode ≤ b.addr ∧
    b.addr + b.size ≤ block.addr + block.size

/-- A request fits in the current node. -/
def Fits (mp : MpPool) (size : Nat) : Prop := mp.head.last + size ≤ mp.head.end_

instance (mp : MpPool) (size : Nat) : Decidable (Fits mp size) :=
  inferInstanceAs (Decidable (_ ≤ _))

/-- A call returns a null pointer, or a range in a node of the chain, behind its header and apart from
all ranges returned before. A request that does not fit in the current node is served from a node that
the call adds, if `posix_memalign` succeeds. -/
structure CallOk (A : Allocator) (s : State) (size : Nat) (r : Ret) : Prop where
  returns : r.result = .value none ∨ ∃ p, r.result = .value (some p) ∧
    (∃ node ∈ r.pool.chain, BehindHeader r.log node ⟨p, size⟩) ∧ ∀ b ∈ s.served, Apart b ⟨p, size⟩
  addsNode : ¬ Fits s.pool size → ∀ m, A.answer s.log (.posixMemalign mpAlignment mpPageSize) = some m →
    ∃ node p, r.pool.chain = s.pool.chain ++ [node] ∧ node.addr = m ∧
      r.result = .value (some p) ∧ BehindHeader r.log node ⟨p, size⟩

/-- A call does so whatever `posix_memalign` answers in it. -/
def AlwaysOk (s : State) (size : Nat) : Prop :=
  ∀ A : AlignedAllocator, ∃ r, mpAlloc A.toAllocator s.pool s.log size = some r ∧
    CallOk A.toAllocator s size r

/-- The pointer that `mp_alloc_block` returns is the address of the new node's header. -/
theorem mpAllocBlock_returns_header {A : Allocator} {mp mp' : MpPool} {log log' : Log} {p : Nat}
    (h : mpAllocBlock A mp log = (some p, mp', log')) {n : Nat} (hn : 0 < n) :
    ∃ node, mp'.chain = mp.chain ++ [node] ∧ ¬ Apart ⟨node.addr, sizeofNode⟩ ⟨p, n⟩ := by
  simp only [mpAllocBlock] at h
  split at h
  · cases h
  · cases h
    refine ⟨_, rfl, ?_⟩
    simp only [Apart, sizeofNode]
    omega

/-! ## The invariant -/

/-- The pool of `size` bytes at `base`, with `used` bytes of the head handed out. -/
structure Used (base size used : Nat) (s : State) : Prop where
  head : s.pool.head = ⟨base + sizeofPool, base + sizeofPool + sizeofNode + used, base + size⟩
  behind : s.pool.behind = []
  log : s.log = [.obtained base (sizeT (sizeofPool + size))]
  served : Packed (base + sizeofPool + sizeofNode) (base + sizeofPool + sizeofNode + used) s.served

/-- What `mp_create` leaves behind. -/
theorem mpCreate_cases {A : Allocator} {junk : Nat → MpLarge} {size : Nat} {s : State}
    (h : mpCreate A junk [] size = some s) :
    ∃ base, A.answer [] (.posixMemalign mpAlignment (sizeT (sizeofPool + size))) = some base ∧
      s = ⟨⟨⟨base + sizeofPool, base + sizeofPool + sizeofNode, base + size⟩, [], none, junk⟩,
        [.obtained base (sizeT (sizeofPool + size))], [], []⟩ := by
  simp only [mpCreate, Allocator.request] at h
  cases hanswer : A.answer [] (.posixMemalign mpAlignment (sizeT (sizeofPool + size))) with
  | none =>
      simp only [hanswer] at h
      cases h
  | some base =>
      simp only [hanswer, Option.some.injEq] at h
      exact ⟨base, rfl, h.symm⟩

/-- A small request does not depend on the allocator. -/
theorem step_small (A : Allocator) (s : State) {n : Nat} (hn : n ≤ mpPageSize - sizeofNode) :
    mpAlloc A s.pool s.log n = some (mpAllocSmall s.pool s.log n) := by
  simp only [mpAlloc, if_neg (Nat.not_lt.2 hn)]

variable {base size used : Nat} {s : State}

/-- The room that the test computes. -/
theorem Used.room (h : Used base size used s) (hsize : size < 2 ^ 64)
    (hle : sizeofPool + sizeofNode + used ≤ size) :
    sizeT (s.pool.head.end_ - s.pool.head.last) = size - (sizeofPool + sizeofNode + used) := by
  rw [h.head]
  simp only [sizeT]
  omega

theorem Used.fits_iff (h : Used base size used s) (n : Nat) :
    Fits s.pool n ↔ sizeofPool + sizeofNode + used + n ≤ size := by
  rw [Fits, h.head]
  simp only
  omega

/-- A request that fits passes the test. -/
theorem Used.served_small (h : Used base size used s) (hsize : size < 2 ^ 64) {n : Nat}
    (hfits : sizeofPool + sizeofNode + used + n ≤ size) :
    mpAllocSmall s.pool s.log n =
      { result := .value (some (base + sizeofPool + sizeofNode + used))
        pool := { s.pool with head :=
          ⟨base + sizeofPool, base + sizeofPool + sizeofNode + used + n, base + size⟩ }
        log := s.log } := by
  have hroom := h.room hsize (Nat.le_of_add_right_le hfits)
  have htest : sizeT (s.pool.head.end_ - s.pool.head.last) ≥ n := by omega
  rw [mpAllocSmall, if_pos htest, h.head]

/-- The step of a request that fits. -/
theorem Used.step (A : Allocator) (h : Used base size used s) (hsize : size < 2 ^ 64) {n : Nat}
    (hn : n ≤ mpPageSize - sizeofNode) (hfits : sizeofPool + sizeofNode + used + n ≤ size) :
    ∃ t, MemPool.step A s n = some t ∧ Used base size (used + n) t := by
  refine ⟨{
    pool := { s.pool with head :=
      ⟨base + sizeofPool, base + sizeofPool + sizeofNode + used + n, base + size⟩ }
    log := s.log
    served := ⟨base + sizeofPool + sizeofNode + used, n⟩ :: s.served
    handed := s.handed }, ?_, ?_⟩
  · rw [MemPool.step, step_small A s hn, h.served_small hsize hfits]
    simp only [if_neg (Nat.not_lt.2 hn), Option.map_some]
    rfl
  · have hserved := h.served.cut le_rfl n
    rw [Nat.add_assoc (base + sizeofPool + sizeofNode) used n] at hserved
    refine ⟨?_, h.behind, h.log, hserved⟩
    simp only [Nat.add_assoc]

/-- A call is as it should be exactly when the request fits and the block is as long as it was meant to
be. -/
theorem Used.alwaysOk_iff (h : Used base size used s) (hsize : size < 2 ^ 64) {n : Nat}
    (hn : n ≤ mpPageSize - sizeofNode) :
    AlwaysOk s n ↔ sizeofPool + size < 2 ^ 64 ∧ sizeofPool + sizeofNode + used + n ≤ size := by
  constructor
  · intro hok
    obtain ⟨r, hr, hcall⟩ := hok bump
    obtain rfl := Option.some.inj ((step_small _ s hn).symm.trans hr)
    -- the call adds no node, so the request fits
    have hfits : Fits s.pool n := by
      by_contra hnot
      obtain ⟨node, p, hchain, -⟩ := hcall.addsNode hnot _ rfl
      have hlength := congrArg List.length hchain
      simp only [mpAllocSmall] at hlength
      split at hlength
      · simp [MpPool.chain] at hlength
      · simp at hlength
    rw [h.fits_iff] at hfits
    refine ⟨?_, hfits⟩
    rw [h.served_small hsize hfits] at hcall
    rcases hcall.returns with hnull | ⟨p, hp, ⟨node, hnode, block, hblock, -, -, hend⟩, -⟩
    · cases hnull
    · cases hp
      -- the only block is that of the pool
      rw [h.log, live, live, List.mem_singleton] at hblock
      subst hblock
      simp only [sizeT, sizeofPool, sizeofNode] at hend hfits ⊢
      omega
  · rintro ⟨hwrap, hfits⟩ A
    refine ⟨_, step_small _ s hn, ?_⟩
    rw [h.served_small hsize hfits]
    refine ⟨.inr ⟨_, rfl, ⟨_, List.mem_cons_self, ⟨base, sizeT (sizeofPool + size)⟩, ?_, ?_, ?_, ?_⟩, ?_⟩,
      fun hnot => absurd ((h.fits_iff n).2 hfits) hnot⟩
    · rw [h.log]
      exact List.mem_singleton.2 rfl
    · exact Nat.le_add_right _ _
    · exact Nat.le_add_right _ _
    · simp only [sizeT, sizeofPool, sizeofNode] at hwrap hfits ⊢
      omega
    · intro b hb
      exact .inl (h.served.within b hb).2

/-! ## Runs -/

/-- All calls are as they should be exactly when there are none, or the sizes fit together. -/
theorem Used.run_iff (A : Allocator) (hsize : size < 2 ^ 64) (reqs : List Nat) :
    ∀ {used : Nat} {s : State}, Used base size used s → (∀ n ∈ reqs, n ≤ mpPageSize - sizeofNode) →
      (EveryStep (MemPool.step A) AlwaysOk s reqs ↔ reqs = [] ∨ sizeofPool + size < 2 ^ 64 ∧
        sizeofPool + sizeofNode + used + reqs.sum ≤ size) := by
  induction reqs with
  | nil =>
      intro used s _ _
      exact iff_of_true trivial (.inl rfl)
  | cons n reqs ih =>
      intro used s h hsmall
      have hn := hsmall n List.mem_cons_self
      have hrest := fun k hk => hsmall k (List.mem_cons_of_mem n hk)
      have hcall := h.alwaysOk_iff hsize hn
      constructor
      · intro hall
        obtain ⟨hok, -⟩ := hall _ (by rw [MemPool.step, step_small A s hn]; rfl)
        obtain ⟨hwrap, hfits⟩ := hcall.1 hok
        obtain ⟨t, ht, hused⟩ := h.step A hsize hn hfits
        refine .inr ⟨hwrap, ?_⟩
        rcases (ih hused hrest).1 (hall t ht).2 with rfl | ⟨-, hsum⟩
        · simpa using hfits
        · rw [List.sum_cons]
          omega
      · rintro (hnil | ⟨hwrap, hsum⟩)
        · cases hnil
        · rw [List.sum_cons] at hsum
          have hfits : sizeofPool + sizeofNode + used + n ≤ size := by omega
          obtain ⟨t, ht, hused⟩ := h.step A hsize hn hfits
          intro u hu
          obtain rfl := Option.some.inj (ht.symm.trans hu)
          exact ⟨hcall.2 ⟨hwrap, hfits⟩, (ih hused hrest).2 (.inr ⟨hwrap, by omega⟩)⟩

theorem used_create {A : Allocator} {junk : Nat → MpLarge} (h : mpCreate A junk [] size = some s) :
    ∃ base, Used base size 0 s := by
  obtain ⟨base, -, rfl⟩ := mpCreate_cases h
  exact ⟨base, rfl, rfl, rfl, packed_nil le_rfl⟩

/-- **Small requests.** Take a pool of any size and any sequence of requests of at most a page less a
header. Every call returns a null pointer or a range in a node, behind its header and apart from the
earlier ones, and serves a request that does not fit from a new node, if and only if there are no
requests, or the two headers and all sizes together are at most the size of the pool and the length of
its block does not wrap. -/
theorem small_requests_served_iff (A : AlignedAllocator) (junk : Nat → MpLarge) (hsize : size < 2 ^ 64)
    (hcreate : mpCreate A.toAllocator junk [] size = some s) {reqs : List Nat}
    (hsmall : ∀ n ∈ reqs, n ≤ mpPageSize - sizeofNode) :
    EveryStep (MemPool.step A.toAllocator) AlwaysOk s reqs ↔
      reqs = [] ∨ sizeofPool + size < 2 ^ 64 ∧ sizeofPool + sizeofNode + reqs.sum ≤ size := by
  obtain ⟨base, hused⟩ := used_create hcreate
  have hiff := hused.run_iff A.toAllocator hsize reqs hsmall
  rwa [Nat.add_zero] at hiff

/-- Memory that reads as null pointers. -/
def clearEntries : Nat → MpLarge := fun _ => ⟨none, none⟩

/-- A pool of `size` bytes at the address 32. -/
def poolAt32 (size : Nat) : State where
  pool := {
    head := ⟨64, 96, 32 + size⟩
    behind := []
    large := none
    entries := clearEntries }
  log := [.obtained 32 (sizeT (sizeofPool + size))]
  served := []
  handed := []

/-- Control: two requests that fill a pool of 100 bytes. -/
theorem small_requests_served_fullPool :
    mpCreate bump.toAllocator clearEntries [] 100 = some (poolAt32 100) ∧
      EveryStep (MemPool.step bump.toAllocator) AlwaysOk (poolAt32 100) [20, 16] := by
  have hcreate : mpCreate bump.toAllocator clearEntries [] 100 = some (poolAt32 100) := rfl
  have hsmall : ∀ n ∈ [20, 16], n ≤ mpPageSize - sizeofNode := by decide
  exact ⟨hcreate, (small_requests_served_iff bump clearEntries (by decide) hcreate hsmall).2
    (.inr (by decide))⟩

/-- With one byte more the second call ends without a result and adds no node. In a pool of 0 bytes a
range is returned that lies behind the pool's block. -/
theorem small_requests_not_served :
    mpCreate bump.toAllocator clearEntries [] 100 = some (poolAt32 100) ∧
      (∃ t, MemPool.step bump.toAllocator (poolAt32 100) 20 = some t ∧
        mpAlloc bump.toAllocator t.pool t.log 17 = some ⟨.noValue, t.pool, t.log⟩) ∧
      ¬ EveryStep (MemPool.step bump.toAllocator) AlwaysOk (poolAt32 100) [20, 17] ∧
      mpCreate bump.toAllocator clearEntries [] 0 = some (poolAt32 0) ∧
      live (poolAt32 0).log = [⟨32, 32⟩] ∧
      (mpAlloc bump.toAllocator (poolAt32 0).pool (poolAt32 0).log 1).map Ret.result =
        some (.value (some 96)) := by
  have hcreate : mpCreate bump.toAllocator clearEntries [] 100 = some (poolAt32 100) := rfl
  refine ⟨hcreate, ⟨_, rfl, rfl⟩, fun hall => ?_, rfl, rfl, rfl⟩
  obtain ⟨base, hused⟩ := used_create hcreate
  have hiff := hused.run_iff bump.toAllocator (by decide) [20, 17] (by decide)
  rcases hiff.1 hall with hnil | ⟨-, hsum⟩
  · cases hnil
  · exact absurd hsum (by decide)

end CppMisc.MemPool
