import CppMisc.MmPool.Overlap

/-!
# Retirement of full nodes in `mempool/mmpool.c`

The loop of `mp_alloc_block` counts in `failed` how often a node was passed over, and moves `current`
behind a node that reaches six. The loop changes `current` while it also counts the nodes behind, so it
has to be shown that `current` never moves over a node with a lower count.

The counts follow from the length of the chain alone: in a chain of `n` nodes the node at position `i`
has been passed over `min 6 (n - 2 - i)` times and `current` is at `n - 7` (`Retired`). Small requests
that a node serves and resets change neither, and a further node moves both along by one.

The field `failed` is compared with a count that is kept apart from it (`countedOps`): for every block
allocation this count is raised for the nodes that the loop walks over and leaves behind.
-/

set_option autoImplicit false

namespace CppMisc.MmPool

open CppMisc.Library

/-! ## Counting the block allocations -/

/-- A chain with, for each node, the number of block allocations that passed over it. -/
structure Counted where
  chain : MpChain
  passed : List Nat

/-- The counts after a block allocation. The loop starts at `current` and ends at the last node, which it
does not pass over; the new node has not been passed over yet. -/
def notePassed (c : MpChain) (passed : List Nat) : List Nat :=
  passed.mapIdx (fun i k => if c.current ≤ i ∧ i + 1 < c.nodes.length then k + 1 else k) ++ [0]

/-- A chain that counts. A small request obtains a block when no node has room and it is served. -/
def countedOps : ChainOps Counted where
  create base size := ⟨listOps.create base size, [0]⟩
  serve A aligned size t log :=
    (listOps.serve A aligned size t.chain log).map fun (ptr, c, log') =>
      (ptr, ⟨c, if ptr.isSome && (serveFrom aligned size (t.chain.nodes.drop t.chain.current)).isNone
        then notePassed t.chain t.passed else t.passed⟩, log')
  reset t := (listOps.reset t.chain).map fun c => ⟨c, t.passed⟩
  blocks t := listOps.blocks t.chain
  write t start size := ⟨listOps.write t.chain start size, t.passed⟩

/-- Counting changes nothing else. -/
theorem chainMap_counted : ChainMap countedOps listOps Counted.chain :=
  ⟨fun _ _ _ _ _ => rfl, fun _ => rfl, fun _ _ _ => rfl⟩

/-! ## The loop of `mp_alloc_block` -/

/-- The loop counts every node but the last. -/
theorem failed_passOver : ∀ (nodes : List MpNode) (position current : Nat),
    (passOver nodes position current).1.map MpNode.failed =
      (nodes.map MpNode.failed).mapIdx fun i k => if i + 1 < nodes.length then k + 1 else k
  | [], _, _ => rfl
  | [_], _, _ => rfl
  | p :: q :: rest, position, current => by
      have ih := failed_passOver (q :: rest) (position + 1)
        (if p.failed > 4 then position + 1 else current)
      simp only [passOver, List.map_cons, List.mapIdx_cons] at ih ⊢
      rw [ih]
      simp

/-- Among nodes that were passed over at most four times `current` stays. -/
theorem current_passOver : ∀ (nodes : List MpNode) (position current : Nat),
    (∀ p ∈ nodes, p.failed ≤ 4) → (passOver nodes position current).2 = current
  | [], _, _, _ => rfl
  | [_], _, _, _ => rfl
  | p :: q :: rest, position, current, h => by
      have hp := h p List.mem_cons_self
      simp only [passOver, if_neg (Nat.not_lt.2 hp)]
      exact current_passOver (q :: rest) (position + 1) current
        fun x hx => h x (List.mem_cons_of_mem p hx)

theorem failed_addNode {c : MpChain} (h : c.current ≤ c.nodes.length) {p : MpNode}
    (hp : p.failed = 0) :
    (addNode c p).nodes.map MpNode.failed = notePassed c (c.nodes.map MpNode.failed) := by
  have htake : ((c.nodes.take c.current).map MpNode.failed).length = c.current := by
    rw [List.length_map, List.length_take]
    omega
  simp only [addNode, List.map_append, failed_passOver, notePassed, List.map_cons, List.map_nil, hp]
  apply congrArg (· ++ [0])
  apply List.ext_getElem?
  intro i
  rw [List.getElem?_mapIdx, List.getElem?_map]
  rcases Nat.lt_or_ge i c.current with hi | hi
  · rw [List.getElem?_append_left (by omega), List.getElem?_map, List.getElem?_take_of_lt hi]
    have hnot : ¬ (c.current ≤ i ∧ i + 1 < c.nodes.length) := by omega
    simp only [if_neg hnot, Option.map_map]
    rfl
  · rw [List.getElem?_append_right (by omega), htake, List.getElem?_mapIdx, List.getElem?_map,
      List.getElem?_drop, List.length_drop]
    have hshift : c.current + (i - c.current) = i := by omega
    have hlast : i - c.current + 1 < c.nodes.length - c.current ↔
        c.current ≤ i ∧ i + 1 < c.nodes.length := by omega
    simp only [hshift, hlast]

/-! ## The invariant -/

/-- In a chain of `n` nodes `current` is at `n - 7`, and the node at `i` was passed over
`min 6 (n - 2 - i)` times. -/
structure Retired (c : MpChain) : Prop where
  nonempty : 0 < c.nodes.length
  current : c.current = c.nodes.length - 7
  failed : ∀ i p, c.nodes[i]? = some p → p.failed = min 6 (c.nodes.length - 2 - i)

theorem retired_create (base size : Nat) : Retired ⟨[headNode base size], 0⟩ := by
  refine ⟨Nat.zero_lt_one, rfl, fun i p hp => ?_⟩
  have hmem := List.mem_of_getElem? hp
  rw [List.mem_singleton] at hmem
  subst hmem
  simp [headNode]

/-- Only the length of the chain, `current` and the counts matter. -/
theorem Retired.of_failed {c c' : MpChain} (h : Retired c) (hcurrent : c'.current = c.current)
    (hfailed : c'.nodes.map MpNode.failed = c.nodes.map MpNode.failed) : Retired c' := by
  have hlength : c'.nodes.length = c.nodes.length := by
    simpa using congrArg List.length hfailed
  refine ⟨hlength ▸ h.nonempty, ?_, fun i p hp => ?_⟩
  · rw [hcurrent, hlength]
    exact h.current
  · have hget := congrArg (fun l => l[i]?) hfailed
    simp only [List.getElem?_map, hp, Option.map_some] at hget
    obtain ⟨q, hq, hpq⟩ := Option.map_eq_some_iff.1 hget.symm
    rw [← hpq, hlength]
    exact h.failed i q hq

/-- A further node. Only the node at `n - 7` can have been passed over five times, so `current` moves by
one node or not at all. -/
theorem Retired.current_addNode {c : MpChain} (h : Retired c) (p : MpNode) :
    (addNode c p).current = c.nodes.length + 1 - 7 := by
  have hnonempty := h.nonempty
  have hcurrent := h.current
  -- the nodes behind the first of the walk were passed over at most four times
  have hget : c.nodes[c.current]? = some c.nodes[c.current] := List.getElem?_eq_getElem (by omega)
  have hfirst := h.failed _ _ hget
  have hrest : ∀ x ∈ c.nodes.drop (c.current + 1), x.failed ≤ 4 := by
    intro x hx
    obtain ⟨j, hj⟩ := List.mem_iff_getElem?.1 hx
    rw [List.getElem?_drop] at hj
    have hx := h.failed _ x hj
    omega
  simp only [addNode]
  rw [List.drop_eq_getElem_cons (show c.current < c.nodes.length by omega)]
  cases hdrop : c.nodes.drop (c.current + 1) with
  | nil =>
      have hlength := congrArg List.length hdrop
      rw [List.length_drop, List.length_nil] at hlength
      simp only [passOver]
      omega
  | cons q rest =>
      have hlength := congrArg List.length hdrop
      rw [List.length_drop, List.length_cons] at hlength
      rw [hdrop] at hrest
      simp only [passOver, current_passOver _ _ _ hrest]
      split
      · omega
      · omega

theorem retired_addNode {c : MpChain} (h : Retired c) {p : MpNode} (hp : p.failed = 0) :
    Retired (addNode c p) := by
  have hnonempty := h.nonempty
  have hcurrent := h.current
  refine ⟨?_, ?_, fun i q hq => ?_⟩
  · rw [length_addNode]
    exact Nat.succ_pos _
  · rw [length_addNode]
    exact h.current_addNode p
  · have hcounts := congrArg (fun l => l[i]?) (failed_addNode (c := c) (by omega) hp)
    simp only [notePassed, List.getElem?_map, hq, Option.map_some] at hcounts
    rw [length_addNode]
    rcases Nat.lt_or_ge i c.nodes.length with hlt | hge
    · have hget : c.nodes[i]? = some c.nodes[i] := List.getElem?_eq_getElem hlt
      have hold := h.failed i _ hget
      rw [List.getElem?_append_left (by simpa using hlt)] at hcounts
      simp only [List.getElem?_mapIdx, List.getElem?_map, hget, Option.map_some,
        Option.some.injEq] at hcounts
      rw [hcounts]
      split
      · omega
      · omega
    · obtain ⟨hi, -⟩ := List.getElem?_eq_some_iff.1 hq
      rw [length_addNode] at hi
      obtain rfl : i = c.nodes.length := by omega
      rw [List.getElem?_append_right (by simp)] at hcounts
      simp only [List.length_mapIdx, List.length_map, Nat.sub_self, List.getElem?_cons_zero,
        Option.some.injEq] at hcounts
      rw [hcounts]
      omega

/-- A node that serves changes only its `last`. -/
theorem map_node_of_last {β : Type} {f : MpNode → β} (hf : ∀ p n, f { p with last := n } = f p)
    {aligned : Bool} {size m : Nat} {c : MpChain} {rest : List MpNode}
    (h : serveFrom aligned size (c.nodes.drop c.current) = some (m, rest)) :
    (c.nodes.take c.current ++ rest).map f = c.nodes.map f := by
  obtain ⟨p, hp, -, hset⟩ := served_node h
  obtain ⟨hlt, rfl⟩ := List.getElem?_eq_some_iff.1 hp
  rw [hset, List.map_set, hf, ← List.getElem_map f (h := by simpa using hlt)]
  exact List.set_getElem_self _

/-- What a small request does to the invariant. -/
theorem retired_serve {A : Allocator} {aligned : Bool} {size : Nat} {c c' : MpChain} {log log' : Log}
    {ptr : Option Nat} (h : Retired c) (hserve : serve A aligned size c log = (ptr, c', log')) :
    Retired c' := by
  have hcases := served_serve A aligned size c log
  rw [hserve] at hcases
  cases hcases with
  | node m rest hrest => exact h.of_failed rfl (map_node_of_last (fun _ _ => rfl) hrest)
  | noChain _ => exact h
  | refused g tail _ _ _ => exact h
  | block g tail m _ _ _ => exact retired_addNode h rfl

/-- A reset leaves the counts alone. -/
theorem failed_reset {c c' : MpChain} (hreset : listOps.reset c = some c') :
    c'.nodes.map MpNode.failed = c.nodes.map MpNode.failed := by
  cases hreset
  rw [List.map_map]
  rfl

/-- And `current`. -/
theorem retired_reset {c c' : MpChain} (h : Retired c) (hreset : listOps.reset c = some c') :
    Retired c' := by
  have hcurrent : c'.current = c.current := by
    cases hreset
    rfl
  exact h.of_failed hcurrent (failed_reset hreset)

/-- The independent count is what the nodes record. -/
structure CountedOk (t : Counted) : Prop where
  retired : Retired t.chain
  passed : t.passed = t.chain.nodes.map MpNode.failed

theorem countedOk_create (base size : Nat) : CountedOk ⟨⟨[headNode base size], 0⟩, [0]⟩ :=
  ⟨retired_create base size, rfl⟩

theorem countedOk_serve {A : Allocator} {aligned : Bool} {size : Nat} {t t' : Counted} {log log' : Log}
    {ptr : Option Nat} (h : CountedOk t)
    (hserve : countedOps.serve A aligned size t log = some (ptr, t', log')) : CountedOk t' := by
  simp only [countedOps] at hserve
  obtain ⟨⟨ptr', c', log₁⟩, hlist, heq⟩ := Option.map_eq_some_iff.1 hserve
  cases heq
  have hplain := Option.some.inj hlist
  refine ⟨retired_serve h.retired hplain, ?_⟩
  have hcases := served_serve A aligned size t.chain log
  rw [hplain] at hcases
  cases hcases with
  | node m rest hrest =>
      simp only [hrest, Option.isNone_some, Bool.and_false, Bool.false_eq_true, if_false]
      rw [h.passed]
      exact (map_node_of_last (fun _ _ => rfl) hrest).symm
  | noChain _ => exact h.passed
  | refused g tail _ _ _ => exact h.passed
  | block g tail m _ hrest _ =>
      have hcurrent := h.retired.current
      simp only [hrest, Option.isNone_none, Option.isSome_some, Bool.and_self, if_true]
      rw [failed_addNode (by omega) rfl, h.passed]

theorem countedOk_reset {t t' : Counted} (h : CountedOk t) (hreset : countedOps.reset t = some t') :
    CountedOk t' := by
  simp only [countedOps] at hreset
  obtain ⟨c', hlist, rfl⟩ := Option.map_eq_some_iff.1 hreset
  refine ⟨retired_reset h.retired hlist, ?_⟩
  rw [failed_reset hlist]
  exact h.passed

theorem countedOk_move {A : Allocator} {ok : Counted → Bool → Nat → Prop} (m m' : Mid Counted)
    (h : CountedOk m.pool.chain) (hmove : Move countedOps A ok m m') : CountedOk m'.pool.chain := by
  cases hmove with
  | small aligned size _ _ hserve => exact countedOk_serve h hserve
  | obtain_ _ _ => exact h
  | refuse => exact h
  | giveBack => exact h
  | reuse _ => exact h
  | record _ _ => exact h
  | clear _ => exact h
  | free _ => exact h
  | reset hreset => exact countedOk_reset h hreset

/-! ## Retirement over runs -/

/-- A small request leaves a node alone, and its walk starts behind the node afterwards too. -/
def LeftAlone (c : MpChain) (i : Nat) : Prop :=
  ∀ (A : Allocator) (aligned : Bool) (size : Nat) (log : Log),
    (serve A aligned size c log).2.1.nodes[i]? = c.nodes[i]? ∧
      i < (serve A aligned size c log).2.1.current

/-- The nodes before `current` have `failed` equal to six, the others at most five, and `failed` does not
rise along the chain. It counts the block allocations that passed over the node; the nodes before
`current` are those with six of them, and these are left alone from then on. -/
structure NodesRetire (c : MpChain) (passed : List Nat) : Prop where
  current : c.current < c.nodes.length
  before : ∀ i p, c.nodes[i]? = some p → i < c.current → p.failed = 6
  behind : ∀ i p, c.nodes[i]? = some p → c.current ≤ i → p.failed ≤ 5
  sorted : c.nodes.Pairwise fun p q => q.failed ≤ p.failed
  counted : passed = c.nodes.map MpNode.failed
  skipped : ∀ i < c.nodes.length, i < c.current ↔ passed[i]? = some 6
  leftAlone : ∀ i < c.current, LeftAlone c i

theorem leftAlone_of_retired {c : MpChain} (h : Retired c) {i : Nat} (hi : i < c.current) :
    LeftAlone c i := by
  intro A aligned size log
  have hcurrent := h.current
  have htake : i < (c.nodes.take c.current).length := by
    rw [List.length_take]
    omega
  have hcases := served_serve A aligned size c log
  generalize serve A aligned size c log = r at hcases
  cases hcases with
  | node m rest _ =>
      refine ⟨?_, hi⟩
      simp only
      rw [List.getElem?_append_left htake, List.getElem?_take_of_lt hi]
  | noChain _ => exact ⟨rfl, hi⟩
  | refused g tail _ _ _ => exact ⟨rfl, hi⟩
  | block g tail m _ _ _ =>
      constructor
      · simp only [addNode]
        rw [List.append_assoc, List.getElem?_append_left htake, List.getElem?_take_of_lt hi]
      · have hnext := (retired_addNode h (p := newNode m (sizeT (g.end_ - g.addr)) size) rfl).current
        rw [length_addNode] at hnext
        simp only
        omega

theorem nodesRetire_of_countedOk {t : Counted} (h : CountedOk t) : NodesRetire t.chain t.passed := by
  obtain ⟨hnonempty, hcurrent, hfailed⟩ := h.retired
  refine ⟨by omega, fun i p hp hi => ?_, fun i p hp hi => ?_, ?_, h.passed, fun i hi => ?_,
    fun i hi => leftAlone_of_retired h.retired hi⟩
  · have hcount := hfailed i p hp
    omega
  · have hcount := hfailed i p hp
    omega
  · rw [List.pairwise_iff_getElem]
    intro i j hi hj hij
    have hleft := hfailed i _ (List.getElem?_eq_getElem hi)
    have hright := hfailed j _ (List.getElem?_eq_getElem hj)
    omega
  · have hcount := hfailed i _ (List.getElem?_eq_getElem hi)
    rw [h.passed, List.getElem?_map, List.getElem?_eq_getElem hi, Option.map_some,
      Option.some.injEq]
    omega

/-- **Retirement of nodes.** Take a pool of any size and any allocator. In every state of every run, the
nodes before `current` have `failed` equal to six, `current` and the nodes behind it at most five, and
`failed` does not rise along the chain; it is the number of block allocations that passed over the node,
so a node is skipped by later requests exactly when there were six. The run that counts them is the run
of the pool. -/
theorem nodes_retire (A : Allocator) {size frames : Nat} {s : State Counted}
    (hcreate : mpCreatePool countedOps A [] size = some s) (acts : List Act) :
    EveryState (step countedOps A frames)
        (fun t => NodesRetire t.pool.chain.chain t.pool.chain.passed) s acts ∧
      mpCreatePool listOps A [] size = some (s.mapChain Counted.chain) ∧
      run (step listOps A frames) (s.mapChain Counted.chain) acts =
        (run (step countedOps A frames) s acts).map (State.mapChain Counted.chain) := by
  refine ⟨?_, ?_, run_mapChain chainMap_counted frames acts s⟩
  · have hkeep : ∀ (t : State Counted) (a : Act) (u : State Counted), CountedOk t.pool.chain →
        step countedOps A frames t a = some u → CountedOk u.pool.chain := by
      intro t a u ht hstep
      have hany : Asked (fun _ _ _ => True) t.pool.chain (asks A t a) := fun _ _ _ => trivial
      exact (path_of_step hstep hany).2.invariant (P := fun m => CountedOk m.pool.chain)
        countedOk_move ht
    refine everyState_of_step hkeep (fun _ => nodesRetire_of_countedOk) acts s ?_
    obtain ⟨p, -, rfl⟩ := mpCreatePool_cases hcreate
    exact countedOk_create p size
  · obtain ⟨p, hanswer, rfl⟩ := mpCreatePool_cases hcreate
    simp only [mpCreatePool, Allocator.request, hanswer]
    rfl

/-- Requests that each fill a node of a pool of 64 bytes, then a reset and one more request. -/
def fillingRequests : List Act := List.replicate 9 (.nalloc 64) ++ [.reset, .alloc 64]

/-- Control: the run `fillingRequests` builds nine nodes. Two of them are retired, and stay so after the
reset. -/
theorem nodes_retire_fillingRequests :
    ∃ s t, mpCreatePool countedOps bump.toAllocator [] 64 = some s ∧
      run (step countedOps bump.toAllocator 2) s fillingRequests = some t ∧
      (t.pool.chain.chain.current, t.pool.chain.passed) = (2, [6, 6, 5, 4, 3, 2, 1, 0, 0]) ∧
      NodesRetire t.pool.chain.chain t.pool.chain.passed := by
  have hend : ((mpCreatePool countedOps bump.toAllocator [] 64).bind fun s =>
      run (step countedOps bump.toAllocator 2) s fillingRequests).map
        (fun t => (t.pool.chain.chain.current, t.pool.chain.passed)) =
          some (2, [6, 6, 5, 4, 3, 2, 1, 0, 0]) := by
    decide +kernel
  obtain ⟨t, hbind, hcounts⟩ := Option.map_eq_some_iff.1 hend
  obtain ⟨s, hcreate, hrun⟩ := Option.bind_eq_some_iff.1 hbind
  obtain ⟨hevery, -⟩ := nodes_retire bump.toAllocator hcreate fillingRequests
  exact ⟨s, t, hcreate, hrun, hcounts, hevery.last hrun⟩

/-! ## The chain in memory -/

/-- The chain in memory is well formed, and its counts follow from its length. -/
structure PtrRetired (size : Nat) (m : Mid PtrChain) : Prop where
  inv : PtrInv size m
  retired : Retired (chainOf m.pool.chain)

section PtrRuns

variable {junk : Nat → NodeCell} {spill : PtrChain → Nat → Nat → PtrChain} {A : AlignedAllocator}
  {size : Nat}

theorem ptrRetired_move (hsize : size + sizeofNode < 2 ^ 64) (m m' : Mid PtrChain)
    (h : PtrRetired size m) (hmove : Move (ptrOps junk spill) A.toAllocator PtrFits m m') :
    PtrRetired size m' := by
  have hinv := h.inv
  refine ⟨ptrInv_move junk spill hsize _ _ hinv hmove, ?_⟩
  cases hmove with
  | @small side pool log log' chain ptr aligned n _ _ hserve =>
      obtain ⟨ptr', c', log₁, hptr, hlist, -, -⟩ :=
        ptrServe_refines A.toAllocator aligned n hinv.ok (fresh_block hsize hinv)
      have heq : some (ptr, chain, log') = some (ptr', c', log₁) := hserve.symm.trans hptr
      cases heq
      exact retired_serve h.retired hlist
  | obtain_ _ _ => exact h.retired
  | refuse => exact h.retired
  | giveBack => exact h.retired
  | @reuse side pool log p addr large hreuse =>
      obtain ⟨⟨e, he, rfl⟩, -⟩ := reuseEntry_addr hreuse
      rw [write_entry junk spill hinv he]
      exact h.retired
  | @record side pool log p e hserved hlarge =>
      by_cases hmax : sizeofLarge ≤ pool.max
      · have hwrite := write_served junk spill hinv (hserved hmax) le_rfl le_rfl
        simp only [hwrite]
        exact h.retired
      · exact absurd (hinv.noEntries hmax) (hlarge hmax)
  | @clear side pool log p n hserved =>
      have hwrite := write_served junk spill hinv hserved le_rfl le_rfl
      simp only [hwrite]
      exact h.retired
  | @free side pool log p addr large hfree =>
      obtain ⟨⟨e, he, rfl⟩, -⟩ := freeEntry_addr hfree
      rw [write_entry junk spill hinv he]
      exact h.retired
  | @reset side pool log chain hreset =>
      obtain ⟨hlist, -, -⟩ := reset_refines hinv.ok hreset
      exact retired_reset h.retired hlist

/-- On the chain in memory the same holds for a pool of a size that does not wrap, with a null pointer
at `head->next` after creation, in every state of every run whose small requests fit. -/
theorem ptr_nodes_retire {frames : Nat} {s : State PtrChain}
    (hsize : size + sizeofPool + sizeofNode < 2 ^ 64)
    (hcreate : mpCreatePool (ptrOps junk spill) A.toAllocator [] size = some s)
    (hnull : (junk (s.pool.base + sizeofPool)).next = none) (acts : List Act)
    (hfits : EveryStep (step (ptrOps junk spill) A.toAllocator frames) (PtrWalkFits A.toAllocator)
      s acts) :
    EveryState (step (ptrOps junk spill) A.toAllocator frames)
      (fun t => NodesRetire (chainOf t.pool.chain) ((chainOf t.pool.chain).nodes.map MpNode.failed))
      s acts := by
  have hkeep : ∀ (t : State PtrChain) (a : Act) (u : State PtrChain),
      PtrRetired size ⟨[], t.pool, t.log⟩ → PtrWalkFits A.toAllocator t a →
        step (ptrOps junk spill) A.toAllocator frames t a = some u →
          PtrRetired size ⟨[], u.pool, u.log⟩ := by
    intro t a u ht hfits hstep
    exact (path_of_step hstep hfits).2.invariant (ptrRetired_move (node_size_lt hsize)) ht
  have hsound : ∀ t : State PtrChain, PtrRetired size ⟨[], t.pool, t.log⟩ →
      NodesRetire (chainOf t.pool.chain) ((chainOf t.pool.chain).nodes.map MpNode.failed) :=
    fun t ht => nodesRetire_of_countedOk (t := ⟨chainOf t.pool.chain, _⟩) ⟨ht.retired, rfl⟩
  refine everyState_of_everyStep hkeep hsound acts s ⟨ptrInv_create hsize hcreate hnull, ?_⟩ hfits
  obtain ⟨p, -, rfl⟩ := mpCreatePool_cases hcreate
  show Retired (chainOf (ptrCreate junk p size))
  rw [chainOf_ptrCreate]
  exact retired_create p size

end PtrRuns

end CppMisc.MmPool
