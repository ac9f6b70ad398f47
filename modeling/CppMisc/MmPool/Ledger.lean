import CppMisc.MmPool.Moves

/-!
# No leak and no double free in `mempool/mmpool.c`

A pool holds its own block, the blocks of its further nodes and the blocks of its large entries
(`held`). Every operation that returns keeps a ledger between these and the live blocks of the heap. In
the middle of a large request the pool has obtained a block that no entry records yet, so the lemmas
about requests carry a list of further blocks that are held on the side.

For a pool of at least 16 bytes an `mp_large_s` is a small request, so the recursion of `mp_alloc`
through `mp_alloc_large` ends after one more call and every operation returns.
-/

set_option autoImplicit false

namespace CppMisc.MmPool

open CppMisc.Library

/-- The blocks of the nodes behind the head. -/
def nodeBlocks (c : MpChain) : List Nat := c.nodes.tail.map MpNode.addr

/-- The blocks a pool holds. -/
def held (pool : MpPool MpChain) : List Nat :=
  pool.base :: (nodeBlocks pool.chain ++ largeBlocks pool.large)

/-! ## The chain -/

theorem map_addr_serveFrom {aligned : Bool} {size : Nat} :
    ∀ {nodes nodes' : List MpNode} {m : Nat}, serveFrom aligned size nodes = some (m, nodes') →
      nodes'.map MpNode.addr = nodes.map MpNode.addr := by
  intro nodes
  induction nodes with
  | nil =>
      intro nodes' m h
      cases h
  | cons p rest ih =>
      intro nodes' m h
      simp only [serveFrom] at h
      split at h
      · cases h
        rfl
      · obtain ⟨⟨m', rest'⟩, hrest, heq⟩ := Option.map_eq_some_iff.1 h
        cases heq
        rw [List.map_cons, List.map_cons, ih hrest]

/-- Being passed over changes only the count of a node. -/
theorem map_passOver {β : Type} {f : MpNode → β} (hf : ∀ p n, f { p with failed := n } = f p) :
    ∀ (nodes : List MpNode) (position current : Nat),
      (passOver nodes position current).1.map f = nodes.map f
  | [], _, _ => rfl
  | [_], _, _ => rfl
  | p :: q :: rest, position, current => by
      simp only [passOver, List.map_cons, hf]
      rw [map_passOver hf (q :: rest), List.map_cons]

theorem map_addNode {β : Type} {f : MpNode → β} (hf : ∀ p n, f { p with failed := n } = f p)
    (c : MpChain) (p : MpNode) : (addNode c p).nodes.map f = c.nodes.map f ++ [f p] := by
  simp only [addNode, List.map_append, map_passOver hf]
  rw [← List.map_append, List.take_append_drop]
  rfl

/-- The ways a small request can end: served by a node, refused, or served by a new block. -/
inductive Served (A : Allocator) (aligned : Bool) (size : Nat) (c : MpChain) (log : Log) :
    Option Nat × MpChain × Log → Prop
  | node (m : Nat) (rest : List MpNode) :
      serveFrom aligned size (c.nodes.drop c.current) = some (m, rest) →
      Served A aligned size c log (some m, { c with nodes := c.nodes.take c.current ++ rest }, log)
  | noChain : c.nodes = [] → Served A aligned size c log (none, c, log)
  | refused (h : MpNode) (tail : List MpNode) : c.nodes = h :: tail →
      serveFrom aligned size (c.nodes.drop c.current) = none →
      A.answer log (.posixMemalign mpAlignment (sizeT (h.end_ - h.addr))) = none →
      Served A aligned size c log (none, c, .refused :: log)
  | block (h : MpNode) (tail : List MpNode) (m : Nat) : c.nodes = h :: tail →
      serveFrom aligned size (c.nodes.drop c.current) = none →
      A.answer log (.posixMemalign mpAlignment (sizeT (h.end_ - h.addr))) = some m →
      Served A aligned size c log
        (some (mpAlignPtr (m + sizeofNode) mpAlignment),
          addNode c (newNode m (sizeT (h.end_ - h.addr)) size),
          .obtained m (sizeT (h.end_ - h.addr)) :: log)

theorem served_serve (A : Allocator) (aligned : Bool) (size : Nat) (c : MpChain) (log : Log) :
    Served A aligned size c log (serve A aligned size c log) := by
  unfold serve
  cases hserve : serveFrom aligned size (c.nodes.drop c.current) with
  | some r => exact .node r.1 r.2 hserve
  | none =>
      simp only [mpAllocBlock]
      cases hnodes : c.nodes with
      | nil => exact .noChain hnodes
      | cons h tail =>
          simp only [Allocator.request]
          cases hanswer : A.answer log (.posixMemalign mpAlignment (sizeT (h.end_ - h.addr))) with
          | none => exact .refused h tail hnodes hserve hanswer
          | some m => exact .block h tail m hnodes hserve hanswer

/-- A chain that keeps its addresses keeps its blocks. -/
theorem nodeBlocks_of_map_addr {c c' : MpChain}
    (h : c'.nodes.map MpNode.addr = c.nodes.map MpNode.addr) : nodeBlocks c' = nodeBlocks c := by
  simp only [nodeBlocks, List.map_tail, h]

/-- A new node adds its block. -/
theorem nodeBlocks_addNode {c : MpChain} {g : MpNode} {tail : List MpNode}
    (hnodes : c.nodes = g :: tail) (p : MpNode) :
    nodeBlocks (addNode c p) = nodeBlocks c ++ [p.addr] := by
  rw [nodeBlocks, List.map_tail, map_addNode (fun _ _ => rfl), nodeBlocks, List.map_tail, hnodes]
  rfl

/-- A small request keeps the ledger of the pool, with `side` held on the side. -/
theorem ledger_serve {A : Allocator} {aligned : Bool} {size : Nat} {c c' : MpChain} {log log' : Log}
    {ptr : Option Nat} (hserve : serve A aligned size c log = (ptr, c', log')) {side : List Nat}
    (h : Ledger log (nodeBlocks c ++ side)) : Ledger log' (nodeBlocks c' ++ side) := by
  have hcases := served_serve A aligned size c log
  rw [hserve] at hcases
  cases hcases with
  | node m rest hrest =>
      rw [nodeBlocks_of_map_addr (c := c)]
      · exact h
      · rw [List.map_append, map_addr_serveFrom hrest, ← List.map_append, List.take_append_drop]
  | noChain _ => exact h
  | refused g tail _ _ _ => exact ledger_refused h
  | block g tail m hnodes _ hanswer =>
      rw [nodeBlocks_addNode hnodes]
      refine (ledger_obtained h _ (A.fresh _ _ _ hanswer)).of_perm ?_
      rw [List.append_assoc]
      exact List.perm_middle.symm

/-! ## The entries -/

theorem perm_reuseEntry {p : Nat} : ∀ {large large' : List MpLarge} {n addr : Nat},
    reuseEntry p n large = some (addr, large') →
      (largeBlocks large').Perm (p :: largeBlocks large) := by
  intro large
  induction large with
  | nil =>
      intro large' n addr h
      cases h
  | cons e rest ih =>
      intro large' n addr h
      simp only [reuseEntry] at h
      cases he : e.alloc with
      | none =>
          simp only [he] at h
          cases h
          simp [largeBlocks, he]
      | some a =>
          simp only [he] at h
          split at h
          · cases h
          · obtain ⟨⟨addr', rest'⟩, hrest, heq⟩ := Option.map_eq_some_iff.1 h
            cases heq
            simp only [largeBlocks, List.filterMap_cons, he]
            exact ((ih hrest).cons a).trans (.swap p a _)

theorem perm_freeEntry {p : Option Nat} : ∀ {large large' : List MpLarge} {addr : Nat},
    freeEntry p large = some (addr, large') →
      (largeBlocks large).Perm (p.toList ++ largeBlocks large') := by
  intro large
  induction large with
  | nil =>
      intro large' addr h
      cases h
  | cons e rest ih =>
      intro large' addr h
      simp only [freeEntry] at h
      split at h
      · next hp =>
          cases h
          rw [hp]
          cases he : e.alloc with
          | none => simp [largeBlocks, he]
          | some a => simp [largeBlocks, he]
      · obtain ⟨⟨addr', rest'⟩, hrest, heq⟩ := Option.map_eq_some_iff.1 h
        cases heq
        cases he : e.alloc with
        | none => simpa [largeBlocks, he] using ih hrest
        | some a =>
            simp only [largeBlocks, List.filterMap_cons, he]
            exact ((ih hrest).cons a).trans List.perm_middle.symm

/-! ## The ledger -/

/-- The blocks on the side and those of the pool are exactly the live ones. -/
def LedgerOk (m : Mid MpChain) : Prop := Ledger m.log (m.side ++ held m.pool)

/-- The blocks of the nodes can be put first. -/
theorem perm_held (side : List Nat) (pool : MpPool MpChain) :
    (side ++ held pool).Perm
      (nodeBlocks pool.chain ++ (side ++ pool.base :: largeBlocks pool.large)) := by
  refine List.perm_iff_count.2 fun a => ?_
  simp only [held, List.count_append, List.count_cons]
  omega

theorem ledgerOk_move {A : Allocator} {ok : MpChain → Bool → Nat → Prop} (m m' : Mid MpChain)
    (h : LedgerOk m) (hmove : Move listOps A ok m m') : LedgerOk m' := by
  cases hmove with
  | @small side pool log log' chain ptr aligned size _ _ hserve =>
      have hledger := ledger_serve (Option.some.inj hserve) (h.of_perm (perm_held side pool))
      exact hledger.of_perm (perm_held side { pool with
        chain := chain
        served := ptr.toList.map (fun start => ⟨start, size⟩) ++ pool.served }).symm
  | @obtain_ side pool log p r hanswer => exact ledger_obtained h r.size (A.fresh _ _ _ hanswer)
  | refuse => exact ledger_refused h
  | giveBack => exact ledger_released h
  | @reuse side pool log p addr large hreuse =>
      -- the block moves from the side into an entry
      refine h.of_perm (List.perm_iff_count.2 fun a => ?_)
      have hcount := (perm_reuseEntry hreuse).count_eq a
      simp only [held, listOps, List.count_append, List.count_cons] at hcount ⊢
      omega
  | @record side pool log p e _ _ =>
      -- the same with a new entry
      refine h.of_perm (List.perm_iff_count.2 fun a => ?_)
      simp only [held, listOps, largeBlocks, List.count_append, List.count_cons,
        List.filterMap_cons]
      omega
  | clear _ => exact h
  | @free side pool log p addr large hfree =>
      -- the block is taken out of its entry, or the entry had none and nothing is freed
      refine ledger_releaseAll p.toList (h.of_perm (List.perm_iff_count.2 fun a => ?_))
      have hcount := (perm_freeEntry hfree).count_eq a
      simp only [held, listOps, List.count_append, List.count_cons] at hcount ⊢
      omega
  | @reset side pool log chain hchain =>
      cases hchain
      have hblocks : nodeBlocks { pool.chain with
          nodes := pool.chain.nodes.map fun p => { p with last := p.addr + sizeofNode } } =
            nodeBlocks pool.chain := by
        refine nodeBlocks_of_map_addr ?_
        rw [List.map_map]
        rfl
      -- the nodes stay, and what is freed is what the entries record
      refine ledger_releaseAll (largeBlocks pool.large)
        (h.of_perm (List.perm_iff_count.2 fun a => ?_))
      simp only [held, hblocks, largeBlocks, List.count_append, List.count_cons, List.filterMap_nil,
        List.count_nil]
      omega

/-- The ledger of a state between operations. -/
abbrev StateLedger (s : State MpChain) : Prop := Ledger s.log (held s.pool)

theorem stateLedger_step {A : Allocator} {frames : Nat} (s : State MpChain) (a : Act)
    (s' : State MpChain) (h : StateLedger s) (hstep : step listOps A frames s a = some s') :
    StateLedger s' := by
  have hany : Asked (fun _ _ _ => True) s.pool.chain (asks A s a) := fun _ _ _ => trivial
  exact (path_of_step hstep hany).2.invariant ledgerOk_move h

theorem stateLedger_create {A : Allocator} {size : Nat} {s : State MpChain}
    (h : mpCreatePool listOps A [] size = some s) : StateLedger s := by
  obtain ⟨p, hanswer, rfl⟩ := mpCreatePool_cases h
  exact ledger_obtained ledger_nil _ (A.fresh _ _ _ hanswer)

/-- After `mp_destory_pool` nothing is held. -/
theorem ledger_mpDestoryPool {s : State MpChain} (h : StateLedger s) :
    ∃ log, mpDestoryPool listOps s.pool s.log = some log ∧ Ledger log [] := by
  refine ⟨_, rfl, ?_⟩
  refine ledger_releaseAll [s.pool.base] (ledger_releaseAll (nodeBlocks s.pool.chain)
    (ledger_releaseAll (largeBlocks s.pool.large) (h.of_perm (List.perm_iff_count.2 fun a => ?_))))
  simp only [held, List.count_append, List.count_cons, List.count_nil]
  omega

/-! ## Every operation returns -/

section Returns

variable {σ : Type} {K : ChainOps σ} {A : Allocator} {frames : Nat} {pool : MpPool σ} {log : Log}

/-- The walks over the chain return: those of small requests, also right after a block was obtained
for a large request, and that of a reset. -/
structure ChainReturns (K : ChainOps σ) (A : Allocator) (s : State σ) : Prop where
  serve : ∀ aligned size, (K.serve A aligned size s.pool.chain s.log).isSome
  obtained : ∀ r p, A.answer s.log r = some p →
    (K.serve A true sizeofLarge s.pool.chain (.obtained p r.size :: s.log)).isSome
  reset : (K.reset s.pool.chain).isSome

/-- When an entry is a small request, recording a block takes one frame. -/
theorem recordLarge_returns {p : Nat} (hframes : 1 ≤ frames) (hmax : sizeofLarge ≤ pool.max)
    (hserve : (K.serve A true sizeofLarge pool.chain log).isSome) :
    (recordLarge K (mpAlloc K A frames) pool log p).isSome := by
  obtain ⟨f, rfl⟩ : ∃ f, frames = f + 1 := ⟨frames - 1, by omega⟩
  simp only [recordLarge, mpAlloc, if_pos hmax, mpSmall, Option.isSome_map]
  exact hserve

theorem mpAllocLarge_returns {size : Nat} (hframes : 1 ≤ frames) (hmax : sizeofLarge ≤ pool.max)
    (hserve : ∀ p, A.answer log (.malloc size) = some p →
      (K.serve A true sizeofLarge pool.chain (.obtained p size :: log)).isSome) :
    (mpAllocLarge K A (mpAlloc K A frames) pool log size).isSome := by
  simp only [mpAllocLarge, Allocator.request]
  cases hanswer : A.answer log (.malloc size) with
  | none => rfl
  | some p =>
      simp only
      split
      · rfl
      · exact recordLarge_returns hframes hmax (hserve p hanswer)

/-- Two frames are then enough for any request. -/
theorem mpAlloc_returns {s : State σ} (hframes : 2 ≤ frames) (hmax : sizeofLarge ≤ s.pool.max)
    (h : ChainReturns K A s) (size : Nat) : (mpAlloc K A frames s.pool s.log size).isSome := by
  obtain ⟨f, rfl⟩ : ∃ f, frames = f + 2 := ⟨frames - 2, by omega⟩
  rw [mpAlloc]
  split
  · simp only [mpSmall, Option.isSome_map]
    exact h.serve true size
  · refine mpAllocLarge_returns (Nat.succ_pos f) hmax fun p hanswer => ?_
    exact h.obtained (.malloc size) p hanswer

theorem step_returns {s : State σ} (hframes : 2 ≤ frames) (hmax : sizeofLarge ≤ s.pool.max)
    (h : ChainReturns K A s) (a : Act) : (step K A frames s a).isSome := by
  have hone : 1 ≤ frames := by omega
  cases a with
  | alloc size =>
      simp only [step, Option.isSome_map]
      exact mpAlloc_returns hframes hmax h size
  | nalloc size =>
      simp only [step, Option.isSome_map, mpNalloc]
      split
      · simp only [mpSmall, Option.isSome_map]
        exact h.serve false size
      · refine mpAllocLarge_returns hone hmax fun p hanswer => ?_
        exact h.obtained (.malloc size) p hanswer
  | calloc size =>
      simp only [step, Option.isSome_map, mpCalloc]
      exact mpAlloc_returns hframes hmax h size
  | memalign size alignment =>
      simp only [step, Option.isSome_map, mpMemalign, Allocator.request]
      cases hanswer : A.answer s.log (.posixMemalign alignment size) with
      | none => rfl
      | some p =>
          exact recordLarge_returns hone hmax (h.obtained (.posixMemalign alignment size) p hanswer)
  | free p => rfl
  | reset =>
      simp only [step, mpResetPool, Option.isSome_map]
      exact h.reset

/-- The bound on small requests is fixed at creation and at least an entry for a pool of at least 16
bytes. -/
theorem sizeofLarge_le_max {size : Nat} {s : State σ} (hsize : sizeofLarge ≤ size)
    (hcreate : mpCreatePool K A [] size = some s) : sizeofLarge ≤ s.pool.max := by
  obtain ⟨p, -, rfl⟩ := mpCreatePool_cases hcreate
  rcases lt_or_ge size mpMaxAllocFromPool with hlt | hge
  · simpa only [if_pos hlt] using hsize
  · simp only [if_neg (Nat.not_lt.2 hge)]
    decide

/-- An operation leaves the bound alone. -/
theorem max_of_step {s t : State σ} {a : Act} (h : step K A frames s a = some t) :
    t.pool.max = s.pool.max := by
  have hany : Asked (fun _ _ _ => True) s.pool.chain (asks A s a) := fun _ _ _ => trivial
  exact (path_of_step h hany).1

end Returns

/-- The walks over a list end with the list. -/
theorem chainReturns_listOps (A : Allocator) (s : State MpChain) : ChainReturns listOps A s :=
  ⟨fun _ _ => rfl, fun _ _ _ => rfl, rfl⟩

/-- Every sequence of operations runs to its end. -/
theorem run_returns {A : Allocator} {frames : Nat} (hframes : 2 ≤ frames) (acts : List Act) :
    ∀ {s : State MpChain}, sizeofLarge ≤ s.pool.max → StateLedger s →
      ∃ s', run (step listOps A frames) s acts = some s' ∧ StateLedger s' := by
  induction acts with
  | nil =>
      intro s _ hledger
      exact ⟨s, rfl, hledger⟩
  | cons a acts ih =>
      intro s hmax hledger
      obtain ⟨t, ht⟩ := Option.isSome_iff_exists.1
        (step_returns hframes hmax (chainReturns_listOps A s) a)
      have hmax' : sizeofLarge ≤ t.pool.max := max_of_step ht ▸ hmax
      obtain ⟨s', hrun, hledger'⟩ := ih hmax' (stateLedger_step s a t hledger ht)
      exact ⟨s', by simp [run, ht, hrun], hledger'⟩

/-- Each live block other than those of the pool and its nodes is recorded in exactly one entry, and
what an entry records is live. -/
def Recorded (s : State MpChain) : Prop :=
  (∀ a ∈ liveAddrs s.log, a ≠ s.pool.base → a ∉ nodeBlocks s.pool.chain →
      s.pool.large.countP (fun e => e.alloc = some a) = 1) ∧
    ∀ e ∈ s.pool.large, ∀ a, e.alloc = some a → a ∈ liveAddrs s.log

theorem count_largeBlocks (large : List MpLarge) (a : Nat) :
    (largeBlocks large).count a = large.countP fun e => e.alloc = some a := by
  induction large with
  | nil => rfl
  | cons e rest ih =>
      cases he : e.alloc with
      | none => simpa [largeBlocks, he] using ih
      | some b => simpa [largeBlocks, he, List.count_cons, List.countP_cons] using ih

theorem recorded_of_stateLedger {s : State MpChain} (h : StateLedger s) : Recorded s := by
  constructor
  · intro a hlive hbase hnode
    rw [← count_largeBlocks]
    -- a live block is held once, and not by the pool or a node
    have hmem : a ∈ held s.pool := h.perm.mem_iff.1 hlive
    have hle : (held s.pool).count a ≤ 1 := List.nodup_iff_count_le_one.1 h.nodup a
    have hpos := List.count_pos_iff.2 hmem
    have hnode' := List.count_eq_zero.2 hnode
    simp only [held, List.count_append, List.count_cons_of_ne (Ne.symm hbase)] at hle hpos
    omega
  · intro e he a ha
    have hmem : a ∈ largeBlocks s.pool.large := List.mem_filterMap.2 ⟨e, he, ha⟩
    exact h.perm.mem_iff.2 (List.mem_cons_of_mem _ (List.mem_append_right _ hmem))

/-- **No leak and no double free.** For a pool created with at least 16 bytes and every sequence of
operations on it: every operation returns, each live large block is then recorded in exactly one entry,
and when the pool is destroyed after them, over the whole run every address passed to `free` was that of
a live block, nothing is live any more, and every address was released exactly as often as it was
obtained. -/
theorem no_leak_no_double_free (A : Allocator) {size frames : Nat} {s : State MpChain}
    (hsize : sizeofLarge ≤ size) (hframes : 2 ≤ frames)
    (hcreate : mpCreatePool listOps A [] size = some s) (acts : List Act) :
    ∃ s' log, run (step listOps A frames) s acts = some s' ∧ Recorded s' ∧
      mpDestoryPool listOps s'.pool s'.log = some log ∧ Faultless log ∧ liveAddrs log = [] ∧
      ∀ a, obtainedNum a log = releasedNum a log := by
  have hmax := sizeofLarge_le_max hsize hcreate
  obtain ⟨s', hrun, hledger⟩ := run_returns (A := A) hframes acts hmax (stateLedger_create hcreate)
  obtain ⟨log, hdestroy, hempty⟩ := ledger_mpDestoryPool hledger
  exact ⟨s', log, hrun, recorded_of_stateLedger hledger, hdestroy, hempty.faultless,
    List.perm_nil.1 hempty.perm, hempty.obtainedNum_eq_releasedNum⟩

/-- Large and small requests on a pool of 4096 bytes: one large block is freed by hand and its entry
reused, the others are freed by a reset, and the requests after it need a second node. -/
def mixedRequests : List Act :=
  [.alloc 4096, .nalloc 10, .calloc 100, .memalign 64 64, .free (some 8320), .alloc 5000, .reset,
    .alloc 4096, .alloc 4000, .alloc 4000]

/-- Control: the run `mixedRequests` with an allocator that never fails. Six blocks are obtained. -/
theorem no_leak_no_double_free_mixedRequests :
    ∃ s s' log, mpCreatePool listOps bump.toAllocator [] 4096 = some s ∧
      run (step listOps bump.toAllocator 2) s mixedRequests = some s' ∧ Recorded s' ∧
      mpDestoryPool listOps s'.pool s'.log = some log ∧ Faultless log ∧ liveAddrs log = [] ∧
      log.length = 12 := by
  have hend : ((mpCreatePool listOps bump.toAllocator [] 4096).bind fun s =>
      (run (step listOps bump.toAllocator 2) s mixedRequests).bind fun s' =>
        mpDestoryPool listOps s'.pool s'.log).map List.length = some 12 := by
    decide +kernel
  obtain ⟨log, hbind, hlength⟩ := Option.map_eq_some_iff.1 hend
  obtain ⟨s, hcreate, hbind⟩ := Option.bind_eq_some_iff.1 hbind
  obtain ⟨s', hrun, hdestroy⟩ := Option.bind_eq_some_iff.1 hbind
  obtain ⟨t, log', hrun', hrecorded, hdestroy', hfaultless, hlive, -⟩ :=
    no_leak_no_double_free bump.toAllocator (by decide) (le_refl 2) hcreate mixedRequests
  obtain rfl : s' = t := Option.some.inj (hrun.symm.trans hrun')
  obtain rfl : log = log' := Option.some.inj (hdestroy.symm.trans hdestroy')
  exact ⟨s, s', log, hcreate, hrun, hrecorded, hdestroy, hfaultless, hlive, hlength⟩

end CppMisc.MmPool
