import CppMisc.MmPool.Pointers
import CppMisc.MmPool.Soundness

/-!
# The node chain of `mempool/mmpool.c` is well formed

`mp_create_pool` does not write `head->next`. When the memory it was given holds a null pointer there,
the chain is well formed after creation, and the operations keep it so: `mp_alloc_block` writes every
field of a new node and links it behind the last one, and the other walks change no `next` field. When
the memory holds anything else, the chain is ill formed from the start.

The proof is a refinement. On a well-formed chain each operation on the chain in memory is the operation
on the list of its nodes, so the layout of the list describes the memory, and a write to a range that
was handed out stays clear of the headers. That needs the ranges to lie inside the nodes, so the runs
considered are those whose walks fit (`PtrWalkFits`).
-/

set_option autoImplicit false

namespace CppMisc.MmPool

open CppMisc.Library

/-! ## Refinement of the walks -/

/-- A well-formed chain cut at `current`. -/
theorem ChainOk.split {c : PtrChain} (h : ChainOk c) :
    ∃ pre a post, c.owned = pre ++ a :: post ∧ c.current = some a ∧
      (chainOf c).current = pre.length ∧
      (chainOf c).nodes.take (chainOf c).current = pre.map (nodeAt c.cells) ∧
      (chainOf c).nodes.drop (chainOf c).current = (a :: post).map (nodeAt c.cells) ∧
      IsChain (fun x => (c.cells x).next) (some a) (a :: post) := by
  obtain ⟨a, ha, hcurrent⟩ := h.current
  obtain ⟨pre, post, howned⟩ := List.append_of_mem ha
  have hnodup := h.chain.nodup
  rw [howned] at hnodup
  have hnot : a ∉ pre := by
    intro hmem
    exact (List.disjoint_of_nodup_append hnodup) hmem List.mem_cons_self
  have hposition : (chainOf c).current = pre.length := by
    simp only [chainOf, hcurrent, howned, Option.map_some, Option.getD_some]
    rw [List.idxOf_append_of_notMem hnot, List.idxOf_cons_self, Nat.add_zero]
  refine ⟨pre, a, post, howned, hcurrent, hposition, ?_, ?_, ?_⟩
  · rw [hposition]
    simp [chainOf, howned]
  · rw [hposition]
    simp [chainOf, howned]
  · have hchain := h.chain
    rw [howned] at hchain
    exact hchain.suffix

/-- The position of a node found at `k`. -/
theorem idxOf_of_getElem? {l : List Nat} (hl : l.Nodup) {k x : Nat} (h : l[k]? = some x) :
    l.idxOf x = k := by
  obtain ⟨hlt, rfl⟩ := List.getElem?_eq_some_iff.1 h
  exact hl.idxOf_getElem k hlt

/-- A node that serves a request changes its `last` field and no `next` field. -/
theorem chainOk_update {c : PtrChain} (h : ChainOk c) {cells : Nat → NodeCell}
    (hnext : ∀ a, (cells a).next = (c.cells a).next) : ChainOk { c with cells := cells } :=
  ⟨h.chain.congr fun a _ => hnext a, h.current⟩

/-- A list of nodes does not show the `next` fields. -/
theorem nodeAt_update_next (cells : Nat → NodeCell) (p : Nat) (next : Option Nat) :
    nodeAt (Function.update cells p { cells p with next := next }) = nodeAt cells := by
  funext a
  rcases eq_or_ne a p with rfl | hne
  · simp [nodeAt]
  · simp [nodeAt, hne]

/-- Linking the node `m` behind the last node `p` makes the chain one longer. -/
theorem isChain_linkNode {c : PtrChain} (h : ChainOk c) {m p : Nat} {init : List Nat}
    {cells : Nat → NodeCell} {x : NodeCell} (hm : m ∉ c.owned) (howned : c.owned = init ++ [p])
    (hnext : ∀ y, (cells y).next = (Function.update c.cells m x y).next) (hx : x.next = none) :
    IsChain (fun y => (Function.update cells p { cells p with next := some m } y).next)
      (some c.head) (c.owned ++ [m]) := by
  have hpm : m ≠ p := fun he => hm (howned ▸ he ▸ List.mem_append_right _ List.mem_cons_self)
  have hold := h.chain
  rw [howned] at hold ⊢
  refine hold.snoc (fun y hy => ?_) (by simp) ?_
  · have hyp : y ≠ p := by
      intro he
      exact (List.disjoint_of_nodup_append hold.nodup) hy (he ▸ List.mem_cons_self)
    have hym : y ≠ m := fun he => hm (howned ▸ he ▸ List.mem_append_left _ hy)
    simp only [Function.update_of_ne hyp, hnext y, Function.update_of_ne hym]
  · simp only [Function.update_of_ne hpm, hnext m, Function.update_self, hx]

/-- The chain after the loop of `mp_alloc_block`, with the new node at `m`, which is not on it yet. -/
theorem linkNode_refines {c : PtrChain} (h : ChainOk c) {m : Nat} (hm : m ∉ c.owned)
    (x : NodeCell) (hx : x.next = none) :
    ∃ a cells p current, c.current = some a ∧
      ptrPassOver c.owned c.owned.length (Function.update c.cells m x) a (some a) =
        some (cells, p, current) ∧
      chainOf { c with
        cells := Function.update cells p { cells p with next := some m }
        current := some (current.getD m)
        owned := c.owned ++ [m] } = addNode (chainOf c) ⟨m, x.last, x.end_, x.failed⟩ ∧
      ChainOk { c with
        cells := Function.update cells p { cells p with next := some m }
        current := some (current.getD m)
        owned := c.owned ++ [m] } := by
  obtain ⟨pre, a, post, howned, hcurrent, hposition, htake, hdrop, hchain⟩ := h.split
  have hmem : ∀ y ∈ a :: post, y ∈ c.owned := fun y hy => howned ▸ List.mem_append_right pre hy
  have hmpre : m ∉ pre := fun hy => hm (howned ▸ List.mem_append_left _ hy)
  have hmpost : m ∉ a :: post := fun hy => hm (hmem m hy)
  have hnodup : (c.owned ++ [m]).Nodup := by
    refine List.nodup_append.2 ⟨h.chain.nodup, List.nodup_singleton m, ?_⟩
    rintro y hy z hz rfl
    exact hm (List.mem_singleton.1 hz ▸ hy)
  have hchain' : IsChain (fun y => (Function.update c.cells m x y).next) (some a) (a :: post) := by
    refine hchain.congr fun y hy => ?_
    have hne : y ≠ m := fun he => hmpost (he ▸ hy)
    rw [Function.update_of_ne hne]
  have hlength : (a :: post).length ≤ c.owned.length := by
    rw [howned, List.length_append]
    omega
  have hget : c.owned[pre.length]? = some a := by
    rw [howned]
    simp
  -- the walk over the memory with the new header already written
  obtain ⟨cells, p, current, hptr, hnext, hother, hmap, hpos, hsome, hlast⟩ :=
    ptrPassOver_eq (a :: post) pre howned hchain' hlength hget
  obtain ⟨b, rfl⟩ := Option.isSome_iff_exists.1 (hsome rfl)
  rw [map_nodeAt_update hmpost, ← hdrop, ← hposition] at hmap hpos
  have hbpos : (c.owned ++ [m])[(passOver ((chainOf c).nodes.drop (chainOf c).current)
      (chainOf c).current (chainOf c).current).2]? = some b := by
    obtain ⟨hlt, -⟩ := List.getElem?_eq_some_iff.1 hpos
    rw [List.getElem?_append_left hlt]
    exact hpos
  refine ⟨a, cells, p, some b, hcurrent, hptr, ?_, ?_, ?_⟩
  · -- the same nodes with the same fields, and `current` at the same position
    have hpre : pre.map (nodeAt cells) = pre.map (nodeAt c.cells) := by
      refine List.map_congr_left fun y hy => ?_
      have hne : y ≠ m := fun he => hmpre (he ▸ hy)
      have hnot : y ∉ a :: post := by
        have hdis := h.chain.nodup
        rw [howned] at hdis
        exact (List.disjoint_of_nodup_append hdis) hy
      simp [nodeAt, hother y hnot, hne]
    have hnew : nodeAt cells m = ⟨m, x.last, x.end_, x.failed⟩ := by
      simp [nodeAt, hother m hmpost]
    have hnodes : (c.owned ++ [m]).map (nodeAt cells) =
        (addNode (chainOf c) ⟨m, x.last, x.end_, x.failed⟩).nodes := by
      simp only [addNode, ← hmap, htake]
      rw [howned, List.map_append, List.map_append, hpre, List.map_singleton, hnew]
    simp only [chainOf, nodeAt_update_next, Option.map_some, Option.getD_some] at hnodes ⊢
    rw [hnodes, idxOf_of_getElem? hnodup hbpos]
    rfl
  · -- the new node is linked behind the last one
    obtain ⟨init, hinit⟩ := List.getLast?_eq_some_iff.1 hlast
    have howned' : c.owned = (pre ++ init) ++ [p] := by
      rw [howned, hinit, List.append_assoc]
    exact isChain_linkNode h hm howned' hnext hx
  · -- `current` is a node that was on the chain before
    obtain ⟨hlt, hb⟩ := List.getElem?_eq_some_iff.1 hpos
    exact ⟨b, List.mem_append_left _ (hb ▸ List.getElem_mem hlt), rfl⟩

/-- The node added by `mp_alloc_block`. -/
theorem ptrAllocBlock_refines {A : Allocator} {size : Nat} {c : PtrChain} {log : Log}
    (h : ChainOk c)
    (hfresh : ∀ m, A.answer log (.posixMemalign mpAlignment
      (sizeT ((c.cells c.head).end_ - c.head))) = some m → m ∉ c.owned) :
    ∃ ptr c' log', ptrAllocBlock A size c log = some (ptr, c', log') ∧
      mpAllocBlock A size (chainOf c) log = (ptr, chainOf c', log') ∧ ChainOk c' ∧
      c'.base = c.base := by
  obtain ⟨pre, a, post, howned, hcurrent, hposition, htake, hdrop, hchain⟩ := h.split
  -- the size of the new block is read off the head node, which is first on the list too
  obtain ⟨rest, hhead, -⟩ := isChain_some_iff.1 h.chain
  have hnodes : (chainOf c).nodes = nodeAt c.cells c.head :: rest.map (nodeAt c.cells) := by
    simp only [chainOf]
    rw [hhead, List.map_cons]
  simp only [ptrAllocBlock, mpAllocBlock, hnodes, Allocator.request]
  cases hanswer : A.answer log (.posixMemalign mpAlignment
      (sizeT ((c.cells c.head).end_ - c.head))) with
  | none =>
      refine ⟨none, c, .refused :: log, rfl, ?_, h, rfl⟩
      have hanswer' : A.answer log (.posixMemalign mpAlignment
          (sizeT ((nodeAt c.cells c.head).end_ - (nodeAt c.cells c.head).addr))) = none := hanswer
      simp only [hanswer']
  | some m =>
      have hanswer' : A.answer log (.posixMemalign mpAlignment
          (sizeT ((nodeAt c.cells c.head).end_ - (nodeAt c.cells c.head).addr))) = some m := hanswer
      obtain ⟨b, cells, p, current, hb, hptr, hchainOf, hok⟩ := linkNode_refines h (hfresh m hanswer)
        { last := mpAlignPtr (m + sizeofNode) mpAlignment + size
          end_ := m + sizeT ((c.cells c.head).end_ - c.head)
          next := none
          failed := 0 } rfl
      refine ⟨some (mpAlignPtr (m + sizeofNode) mpAlignment), _,
        .obtained m (sizeT ((c.cells c.head).end_ - c.head)) :: log, ?_, ?_, hok, rfl⟩
      · simp only [hb, hptr]
        rfl
      · simp only [hanswer', hchainOf]
        rfl

/-- A small request on the chain in memory is the one on the list of its nodes. -/
theorem ptrServe_refines (A : Allocator) (aligned : Bool) (size : Nat) {c : PtrChain} {log : Log}
    (h : ChainOk c)
    (hfresh : ∀ m, A.answer log (.posixMemalign mpAlignment
      (sizeT ((c.cells c.head).end_ - c.head))) = some m → m ∉ c.owned) :
    ∃ ptr c' log', ptrServe A aligned size c log = some (ptr, c', log') ∧
      serve A aligned size (chainOf c) log = (ptr, chainOf c', log') ∧ ChainOk c' ∧
      c'.base = c.base := by
  obtain ⟨pre, a, post, howned, hcurrent, hposition, htake, hdrop, hchain⟩ := h.split
  have hmem : ∀ y ∈ a :: post, y ∈ c.owned := fun y hy => howned ▸ List.mem_append_right pre hy
  have hfuel : (a :: post).length < c.owned.length + 1 := by
    rw [howned, List.length_append]
    omega
  simp only [ptrServe, hcurrent, serve, hdrop]
  rcases ptrServeFrom_eq aligned size hchain hfuel hmem with ⟨hlist, hptr⟩ | ⟨b, hb, m, hlist, hptr⟩
  · simp only [hlist, hptr]
    exact ptrAllocBlock_refines h hfresh
  · refine ⟨some m, { c with
      cells := Function.update c.cells b { c.cells b with last := m + size } }, log, ?_, ?_, ?_, rfl⟩
    · simp only [hptr, hcurrent]
    · -- the nodes before `current` are elsewhere in memory
      have hnot : b ∉ pre := by
        have hdis := h.chain.nodup
        rw [howned] at hdis
        intro hy
        exact (List.disjoint_of_nodup_append hdis) hy hb
      simp only [hlist, htake]
      rw [← map_nodeAt_update hnot { c.cells b with last := m + size }, ← List.map_append, ← howned]
      rfl
    · exact chainOk_update h (next_update rfl)

/-- A reset of the chain in memory is the one of the list of its nodes. -/
theorem ptrReset_refines {c : PtrChain} (h : ChainOk c) :
    ∃ cells, ptrResetFrom c.owned (c.owned.length + 1) c.cells (some c.head) = some cells ∧
      listOps.reset (chainOf c) = some (chainOf { c with cells := cells }) ∧
      ChainOk { c with cells := cells } := by
  obtain ⟨cells, hptr, hnext, -, hmap⟩ :=
    ptrResetFrom_eq h.chain (Nat.lt_succ_self _) fun _ ha => ha
  refine ⟨cells, hptr, ?_, chainOk_update h hnext⟩
  simp only [listOps, chainOf, hmap, List.map_map]
  rfl

/-- The same for the operation of the chain. -/
theorem reset_refines {junk : Nat → NodeCell} {spill : PtrChain → Nat → Nat → PtrChain}
    {c c' : PtrChain} (h : ChainOk c) (hreset : (ptrOps junk spill).reset c = some c') :
    listOps.reset (chainOf c) = some (chainOf c') ∧ ChainOk c' ∧ c'.base = c.base := by
  obtain ⟨cells, hptr, hlist, hok⟩ := ptrReset_refines h
  obtain rfl : { c with cells := cells } = c' := by
    simpa only [ptrOps, hptr, Option.map_some, Option.some.injEq] using hreset
  exact ⟨hlist, hok, rfl⟩

/-! ## Walks return -/

/-- Every walk of the pool stays on the pool's nodes and ends. -/
structure WalksReturn (c : PtrChain) : Prop where
  alloc : ∀ aligned size,
    (ptrServeFrom c.owned c.cells aligned size (c.owned.length + 1) c.current).isSome
  block : ∀ p, c.current = some p →
    (ptrPassOver c.owned c.owned.length c.cells p (some p)).isSome
  reset : (ptrResetFrom c.owned (c.owned.length + 1) c.cells (some c.head)).isSome
  destory : (ptrBlocksFrom c.owned c.cells (c.owned.length + 1) (c.cells c.head).next).isSome

theorem walksReturn_of_chainOk {c : PtrChain} (h : ChainOk c) : WalksReturn c := by
  obtain ⟨pre, a, post, howned, hcurrent, -, -, -, hchain⟩ := h.split
  have hmem : ∀ y ∈ a :: post, y ∈ c.owned := fun y hy => howned ▸ List.mem_append_right pre hy
  have hlength : (a :: post).length ≤ c.owned.length := by
    rw [howned, List.length_append]
    omega
  refine ⟨fun aligned size => ?_, fun p hp => ?_, ?_, ?_⟩
  · rw [hcurrent]
    rcases ptrServeFrom_eq aligned size hchain (Nat.lt_succ_of_le hlength) hmem with
      ⟨-, hptr⟩ | ⟨b, -, m, -, hptr⟩
    · rw [hptr]
      rfl
    · rw [hptr]
      rfl
  · obtain rfl : a = p := Option.some.inj (hcurrent.symm.trans hp)
    have hget : c.owned[pre.length]? = some a := by
      rw [howned]
      simp
    obtain ⟨cells, p', current, hptr, -⟩ := ptrPassOver_eq (a :: post) pre howned hchain hlength hget
    rw [hptr]
    rfl
  · obtain ⟨cells, hptr, -⟩ := ptrReset_refines h
    rw [hptr]
    rfl
  · obtain ⟨rest, hhead, hrest⟩ := isChain_some_iff.1 h.chain
    have hrestmem : ∀ y ∈ rest, y ∈ c.owned := fun y hy => hhead ▸ List.mem_cons_of_mem _ hy
    have hrestlength : rest.length < c.owned.length + 1 := by
      rw [hhead, List.length_cons]
      omega
    rw [ptrBlocksFrom_eq hrest hrestlength hrestmem]
    rfl

/-! ## Writes stay clear of the headers -/

/-- The state inside an operation, with the list of nodes in place of the memory. -/
def midOf (m : Mid PtrChain) : Mid MpChain where
  side := m.side
  pool := {
    base := m.pool.base
    max := m.pool.max
    chain := chainOf m.pool.chain
    large := m.pool.large
    served := m.pool.served }
  log := m.log

/-- Two nodes lie in the same place or in blocks that do not overlap. -/
theorem node_cases {size : Nat} {m : Mid MpChain} (h : Layout size m) {p q : MpNode}
    (hp : p ∈ m.pool.chain.nodes) (hq : q ∈ m.pool.chain.nodes) :
    q.addr = p.addr ∨ ∃ b c, mpAlignment ∣ b ∧ mpAlignment ∣ c ∧ b ≤ p.addr ∧ c ≤ q.addr ∧
      (p.end_ ≤ c ∨ q.end_ ≤ b) := by
  obtain ⟨b, hb, -, hbdvd, hble, hbend⟩ := h.blocks (p.addr, p.end_) (List.mem_map.2 ⟨p, hp, rfl⟩)
  obtain ⟨c, hc, -, hcdvd, hcle, hcend⟩ := h.blocks (q.addr, q.end_) (List.mem_map.2 ⟨q, hq, rfl⟩)
  have hpend := (h.nodes p hp).end_eq
  have hqend := (h.nodes q hq).end_eq
  simp only at hbend hcend
  rcases eq_or_ne b c with rfl | hne
  · exact .inl (by omega)
  · refine .inr ⟨b.addr, c.addr, hbdvd, hcdvd, hble, hcle, ?_⟩
    rcases h.separate.apart hb hc hne with hapart | hapart
    · exact .inl (by omega)
    · exact .inr (by omega)

/-- A range in the data area of a node touches no header. -/
theorem not_hitsHeader {size : Nat} {m : Mid PtrChain} (h : Layout size (midOf m))
    (hbase : m.pool.chain.base = m.pool.base) {start n : Nat}
    (hinside : Inside (midOf m).pool.chain.nodes ⟨start, n⟩) :
    ¬ HitsHeader m.pool.chain start n := by
  obtain ⟨p, hp, hstart, hend⟩ := hinside
  have hpend := (h.nodes p hp).end_eq
  simp only [sizeofNode] at hstart hend hpend
  rintro (⟨hlow, hhigh⟩ | ⟨a, ha, hlow, hhigh⟩)
  · -- the `mp_pool_s` lies before the head node, in the same block
    rw [hbase] at hlow hhigh
    obtain ⟨hdvd, hhead⟩ := h.head
    obtain ⟨x, hx, hxaddr⟩ := Option.map_eq_some_iff.1 hhead
    obtain ⟨g, hg, rfl⟩ := List.mem_map.1 (List.mem_of_head? hx)
    have hgend := (h.nodes g hg).end_eq
    simp only [midOf, sizeofPool, sizeofNode] at hxaddr hdvd hlow hgend
    rcases node_cases h hp hg with heq | ⟨b, c, hbdvd, hcdvd, hb, hc, hapart⟩
    · omega
    · simp only [mpAlignment] at hdvd hcdvd
      omega
  · -- a header lies in front of its own data area, and outside the other blocks
    have hg : nodeAt m.pool.chain.cells a ∈ (midOf m).pool.chain.nodes := List.mem_map.2 ⟨a, ha, rfl⟩
    have hgend := (h.nodes _ hg).end_eq
    simp only [sizeofNode] at hlow hgend
    rcases node_cases h hp hg with heq | ⟨b, c, -, -, hb, hc, hapart⟩
    · simp only [nodeAt_addr] at heq
      omega
    · simp only [nodeAt_addr] at hb hc hgend
      omega

/-- A new block is not the address of a node. -/
theorem not_mem_owned {A : AlignedAllocator} {size : Nat} {m : Mid PtrChain}
    (h : Layout size (midOf m)) {r : Request} {a : Nat} (hanswer : A.answer m.log r = some a)
    (hpos : 0 < r.size) : a ∉ m.pool.chain.owned := by
  intro ha
  have hg : nodeAt m.pool.chain.cells a ∈ (midOf m).pool.chain.nodes := List.mem_map.2 ⟨a, ha, rfl⟩
  obtain ⟨b, hb, -, -, hle, hend⟩ := h.blocks _ (List.mem_map.2 ⟨_, hg, rfl⟩)
  have hgend := (h.nodes _ hg).end_eq
  simp only [nodeAt_addr, sizeofNode] at hle hgend hend
  rcases A.disjoint m.log r a hanswer b hb with hapart | hapart
  · omega
  · omega

/-! ## The invariant -/

/-- The chain is well formed, its nodes are laid out as on the list, and the entries are ranges that
were served. -/
structure PtrInv (size : Nat) (m : Mid PtrChain) : Prop where
  ok : ChainOk m.pool.chain
  base : m.pool.chain.base = m.pool.base
  layout : Layout size (midOf m)
  entries : sizeofLarge ≤ m.pool.max → ∀ e ∈ m.pool.large, ⟨e.addr, sizeofLarge⟩ ∈ m.pool.served
  noEntries : ¬ sizeofLarge ≤ m.pool.max → m.pool.large = []

/-- The condition on a small request, read off the list of nodes. -/
def PtrFits (c : PtrChain) (aligned : Bool) (size : Nat) : Prop := Fits (chainOf c) aligned size

instance (c : PtrChain) (aligned : Bool) (size : Nat) : Decidable (PtrFits c aligned size) :=
  inferInstanceAs (Decidable (Fits (chainOf c) aligned size))

section Refinement

variable (junk : Nat → NodeCell) (spill : PtrChain → Nat → Nat → PtrChain)

/-- A write inside a range that was served leaves the chain alone. -/
theorem write_served {size : Nat} {m : Mid PtrChain} (h : PtrInv size m) {r : Range}
    (hr : r ∈ m.pool.served) {start n : Nat} (hstart : r.start ≤ start)
    (hend : start + n ≤ r.start + r.size) :
    (ptrOps junk spill).write m.pool.chain start n = m.pool.chain := by
  obtain ⟨p, hp, hlow, hhigh⟩ := h.layout.served r hr
  have hinside : Inside (midOf m).pool.chain.nodes ⟨start, n⟩ :=
    ⟨p, hp, hlow.trans hstart, hend.trans hhigh⟩
  exact if_neg (not_hitsHeader h.layout h.base hinside)

/-- A write to a field of an entry leaves the chain alone. -/
theorem write_entry {size : Nat} {m : Mid PtrChain} (h : PtrInv size m) {e : MpLarge}
    (he : e ∈ m.pool.large) :
    (ptrOps junk spill).write m.pool.chain (e.addr + 8) 8 = m.pool.chain := by
  by_cases hmax : sizeofLarge ≤ m.pool.max
  · refine write_served junk spill h (h.entries hmax e he) ?_ ?_
    · show e.addr ≤ e.addr + 8
      omega
    · show e.addr + 8 + 8 ≤ e.addr + sizeofLarge
      simp only [sizeofLarge]
      omega
  · rw [h.noEntries hmax] at he
    cases he

theorem reuseEntry_addr {p : Nat} : ∀ {large large' : List MpLarge} {n addr : Nat},
    reuseEntry p n large = some (addr, large') →
      (∃ e ∈ large, e.addr = addr) ∧ large'.map MpLarge.addr = large.map MpLarge.addr := by
  intro large
  induction large with
  | nil =>
      intro large' n addr h
      cases h
  | cons e rest ih =>
      intro large' n addr h
      simp only [reuseEntry] at h
      split at h
      · cases h
        exact ⟨⟨e, List.mem_cons_self, rfl⟩, rfl⟩
      · split at h
        · cases h
        · obtain ⟨⟨addr', rest'⟩, hrest, heq⟩ := Option.map_eq_some_iff.1 h
          cases heq
          obtain ⟨⟨e', he', haddr⟩, hmap⟩ := ih hrest
          exact ⟨⟨e', List.mem_cons_of_mem e he', haddr⟩, by rw [List.map_cons, hmap, List.map_cons]⟩

theorem freeEntry_addr {p : Option Nat} : ∀ {large large' : List MpLarge} {addr : Nat},
    freeEntry p large = some (addr, large') →
      (∃ e ∈ large, e.addr = addr) ∧ large'.map MpLarge.addr = large.map MpLarge.addr := by
  intro large
  induction large with
  | nil =>
      intro large' addr h
      cases h
  | cons e rest ih =>
      intro large' addr h
      simp only [freeEntry] at h
      split at h
      · cases h
        exact ⟨⟨e, List.mem_cons_self, rfl⟩, rfl⟩
      · obtain ⟨⟨addr', rest'⟩, hrest, heq⟩ := Option.map_eq_some_iff.1 h
        cases heq
        obtain ⟨⟨e', he', haddr⟩, hmap⟩ := ih hrest
        exact ⟨⟨e', List.mem_cons_of_mem e he', haddr⟩, by rw [List.map_cons, hmap, List.map_cons]⟩

/-- The entries of a list with the same addresses. -/
theorem mem_served_of_map_addr {large large' : List MpLarge} {served : List Range}
    (hmap : large'.map MpLarge.addr = large.map MpLarge.addr)
    (h : ∀ e ∈ large, ⟨e.addr, sizeofLarge⟩ ∈ served) :
    ∀ e ∈ large', ⟨e.addr, sizeofLarge⟩ ∈ served := by
  intro e he
  have haddr : e.addr ∈ large.map MpLarge.addr := hmap ▸ List.mem_map.2 ⟨e, he, rfl⟩
  obtain ⟨e', he', heq⟩ := List.mem_map.1 haddr
  exact heq ▸ h e' he'

/-- The block that `mp_alloc_block` may obtain is new to the chain. -/
theorem fresh_block {A : AlignedAllocator} {size : Nat} (hsize : size + sizeofNode < 2 ^ 64)
    {m : Mid PtrChain} (h : PtrInv size m) (a : Nat)
    (hanswer : A.answer m.log (.posixMemalign mpAlignment
      (sizeT ((m.pool.chain.cells m.pool.chain.head).end_ - m.pool.chain.head))) = some a) :
    a ∉ m.pool.chain.owned := by
  refine not_mem_owned h.layout hanswer ?_
  obtain ⟨rest, hhead, -⟩ := isChain_some_iff.1 h.ok.chain
  have hmem : m.pool.chain.head ∈ m.pool.chain.owned := hhead ▸ List.mem_cons_self
  have hend := (h.layout.nodes _ (List.mem_map.2 ⟨_, hmem, rfl⟩)).end_eq
  simp only [nodeAt] at hend
  show 0 < sizeT ((m.pool.chain.cells m.pool.chain.head).end_ - m.pool.chain.head)
  simp only [sizeofNode] at hend hsize
  rw [sizeT_of_le (by omega) (by omega)]
  omega

/-- A move that changes the list of large blocks and writes to one of its entries. -/
theorem ptrInv_entry {A : AlignedAllocator} {size : Nat} (hsize : size + sizeofNode < 2 ^ 64)
    {m : Mid PtrChain} (h : PtrInv size m) {side : List Nat} {log : Log} {addr : Nat}
    {large : List MpLarge} (haddr : ∃ e ∈ m.pool.large, e.addr = addr)
    (hmap : large.map MpLarge.addr = m.pool.large.map MpLarge.addr)
    (hmove : Move listOps A.toAllocator Fits (midOf m)
      (midOf ⟨side, { m.pool with large := large }, log⟩)) :
    PtrInv size ⟨side, { m.pool with
      chain := (ptrOps junk spill).write m.pool.chain (addr + 8) 8
      large := large }, log⟩ := by
  obtain ⟨e, he, rfl⟩ := haddr
  rw [write_entry junk spill h he]
  refine ⟨h.ok, h.base, layout_move hsize _ _ h.layout hmove, ?_, ?_⟩
  · intro hmax
    exact mem_served_of_map_addr hmap (h.entries hmax)
  · intro hmax
    rw [h.noEntries hmax] at he
    cases he

theorem ptrInv_move {A : AlignedAllocator} {size : Nat} (hsize : size + sizeofNode < 2 ^ 64)
    (m m' : Mid PtrChain) (h : PtrInv size m)
    (hmove : Move (ptrOps junk spill) A.toAllocator PtrFits m m') : PtrInv size m' := by
  have hlayout := h.layout
  cases hmove with
  | @small side pool log log' chain ptr aligned n hn hfits hserve =>
      obtain ⟨ptr', c', log₁, hptr, hlist, hok, hbase⟩ :=
        ptrServe_refines A.toAllocator aligned n h.ok (fresh_block hsize h)
      have heq : some (ptr, chain, log') = some (ptr', c', log₁) := hserve.symm.trans hptr
      cases heq
      -- the request is the one on the list
      have hlistMove : Move listOps A.toAllocator Fits (midOf ⟨side, pool, log⟩)
          (midOf ⟨side, { pool with
            chain := chain
            served := ptr.toList.map (fun start => ⟨start, n⟩) ++ pool.served }, log'⟩) :=
        .small aligned n hn hfits (congrArg some hlist)
      refine ⟨hok, hbase.trans h.base, layout_move hsize _ _ hlayout hlistMove, ?_, h.noEntries⟩
      intro hmax e he
      exact List.mem_append_right _ (h.entries hmax e he)
  | obtain_ r hanswer =>
      exact ⟨h.ok, h.base, layout_move hsize _ _ hlayout (.obtain_ r hanswer), h.entries, h.noEntries⟩
  | refuse =>
      exact ⟨h.ok, h.base, layout_move (A := A) hsize _ _ hlayout .refuse, h.entries, h.noEntries⟩
  | giveBack =>
      exact ⟨h.ok, h.base, layout_move (A := A) hsize _ _ hlayout .giveBack, h.entries, h.noEntries⟩
  | @reuse side pool log p addr large hreuse =>
      obtain ⟨haddr, hmap⟩ := reuseEntry_addr hreuse
      exact ptrInv_entry junk spill (A := A) hsize h haddr hmap (.reuse hreuse)
  | @record side pool log p e hserved hlarge =>
      by_cases hmax : sizeofLarge ≤ pool.max
      · have hlistMove : Move listOps A.toAllocator Fits (midOf ⟨p :: side, pool, log⟩)
            (midOf ⟨side, { pool with large := ⟨e, some p⟩ :: pool.large }, log⟩) :=
          .record hserved hlarge
        have hwrite := write_served junk spill h (hserved hmax) le_rfl le_rfl
        simp only [hwrite]
        refine ⟨h.ok, h.base, layout_move hsize _ _ hlayout hlistMove, fun _ e' he' => ?_,
          fun hnot => absurd hmax hnot⟩
        rcases List.mem_cons.1 he' with rfl | he'
        · exact hserved hmax
        · exact h.entries hmax e' he'
      · -- a pool too small for entries has none, and a first one cannot be made
        exact absurd (h.noEntries hmax) (hlarge hmax)
  | @clear side pool log p n hserved =>
      have hwrite := write_served junk spill h hserved le_rfl le_rfl
      simp only [hwrite]
      exact h
  | @free side pool log p addr large hfree =>
      obtain ⟨haddr, hmap⟩ := freeEntry_addr hfree
      exact ptrInv_entry junk spill (A := A) hsize h haddr hmap (.free hfree)
  | @reset side pool log chain hreset =>
      obtain ⟨hlist, hok, hbase⟩ := reset_refines h.ok hreset
      have hlistMove : Move listOps A.toAllocator Fits (midOf ⟨side, pool, log⟩)
          (midOf ⟨side, { pool with chain := chain, large := [], served := [] },
            releaseAll (largeBlocks pool.large) log⟩) := .reset hlist
      refine ⟨hok, hbase.trans h.base, layout_move hsize _ _ hlayout hlistMove, ?_, fun _ => rfl⟩
      intro _ e he
      cases he

end Refinement

/-! ## Well-formedness over runs -/

/-- The chain is well formed, and so every walk stays on the pool's nodes and ends. -/
def ChainWellFormed (s : State PtrChain) : Prop :=
  ChainOk s.pool.chain ∧ WalksReturn s.pool.chain

/-- The small request that the operation makes, if any, fits where its walk leads. -/
def PtrWalkFits (A : Allocator) (s : State PtrChain) (a : Act) : Prop :=
  Asked PtrFits s.pool.chain (asks A s a)

instance (A : Allocator) (s : State PtrChain) (a : Act) : Decidable (PtrWalkFits A s a) :=
  inferInstanceAs (Decidable (Asked PtrFits s.pool.chain (asks A s a)))

/-- A new pool has a well-formed chain exactly when the memory held a null pointer at `head->next`. -/
theorem chainOk_ptrCreate (junk : Nat → NodeCell) (base size : Nat) :
    ChainOk (ptrCreate junk base size) ↔ (junk (base + sizeofPool)).next = none := by
  have hnext : ((ptrCreate junk base size).cells (base + sizeofPool)).next =
      (junk (base + sizeofPool)).next := by
    simp [ptrCreate]
  constructor
  · intro h
    obtain ⟨rest, hl, hrest⟩ := isChain_some_iff.1 h.chain
    obtain ⟨-, rfl⟩ := List.cons.inj hl
    exact hnext.symm.trans (isChain_nil_iff.1 hrest)
  · intro h
    refine ⟨.cons ?_, ⟨base + sizeofPool, List.mem_cons_self, rfl⟩⟩
    exact isChain_nil_iff.2 (hnext.trans h)

theorem chainOf_ptrCreate (junk : Nat → NodeCell) (base size : Nat) :
    chainOf (ptrCreate junk base size) = ⟨[headNode base size], 0⟩ := by
  simp [chainOf, ptrCreate, nodeAt, headNode]

section Runs

variable {junk : Nat → NodeCell} {spill : PtrChain → Nat → Nat → PtrChain}

theorem ptrInv_create {A : AlignedAllocator} {size : Nat} {s : State PtrChain}
    (hsize : size + sizeofPool + sizeofNode < 2 ^ 64)
    (hcreate : mpCreatePool (ptrOps junk spill) A.toAllocator [] size = some s)
    (hnull : (junk (s.pool.base + sizeofPool)).next = none) :
    PtrInv size ⟨[], s.pool, s.log⟩ := by
  obtain ⟨p, hanswer, rfl⟩ := mpCreatePool_cases hcreate
  refine ⟨(chainOk_ptrCreate junk p size).2 hnull, rfl, ?_, ?_, fun _ => rfl⟩
  · -- on the list of nodes this is the new pool of the list
    have hlist : mpCreatePool listOps A.toAllocator [] size = some
        ⟨⟨p, if size < mpMaxAllocFromPool then size else mpMaxAllocFromPool,
          ⟨[headNode p size], 0⟩, [], []⟩, [.obtained p (sizeT (size + sizeofPool + sizeofNode))]⟩ := by
      simp only [mpCreatePool, Allocator.request, hanswer]
      rfl
    have hlayout := stateLayout_create hsize hlist
    rw [← chainOf_ptrCreate junk p size] at hlayout
    exact hlayout
  · intro _ e he
    cases he

theorem ptrInv_step {A : AlignedAllocator} {size frames : Nat} (hsize : size + sizeofNode < 2 ^ 64)
    (s : State PtrChain) (a : Act) (s' : State PtrChain) (h : PtrInv size ⟨[], s.pool, s.log⟩)
    (hfits : PtrWalkFits A.toAllocator s a)
    (hstep : step (ptrOps junk spill) A.toAllocator frames s a = some s') :
    PtrInv size ⟨[], s'.pool, s'.log⟩ :=
  (path_of_step hstep hfits).2.invariant (ptrInv_move junk spill hsize) h

/-- **The node chain.** Take a pool of any size that does not wrap, any content `junk` of the memory
it was created in, and any effect `spill` of writes over headers. In every state of every run whose
small requests fit, `next` leads from the head through exactly the nodes of the pool in the order of
creation to a null pointer, `current` is one of them, and the walks of the pool stay on them and end,
if and only if the memory held a null pointer where `head->next` is. -/
theorem chain_wellFormed_iff (A : AlignedAllocator) (junk : Nat → NodeCell)
    (spill : PtrChain → Nat → Nat → PtrChain) {size frames : Nat} {s : State PtrChain}
    (hsize : size + sizeofPool + sizeofNode < 2 ^ 64)
    (hcreate : mpCreatePool (ptrOps junk spill) A.toAllocator [] size = some s) :
    (∀ acts, EveryStep (step (ptrOps junk spill) A.toAllocator frames) (PtrWalkFits A.toAllocator)
        s acts →
      EveryState (step (ptrOps junk spill) A.toAllocator frames) ChainWellFormed s acts) ↔
      (junk (s.pool.base + sizeofPool)).next = none := by
  constructor
  · intro h
    have hstart : ChainWellFormed s := h [] trivial
    obtain ⟨p, -, rfl⟩ := mpCreatePool_cases hcreate
    exact (chainOk_ptrCreate junk p size).1 hstart.1
  · intro hnull acts hfits
    have hsound : ∀ t : State PtrChain, PtrInv size ⟨[], t.pool, t.log⟩ → ChainWellFormed t :=
      fun _ ht => ⟨ht.ok, walksReturn_of_chainOk ht.ok⟩
    exact everyState_of_everyStep (ptrInv_step (node_size_lt hsize)) hsound acts s
      (ptrInv_create hsize hcreate hnull) hfits

end Runs

/-- A pool of 4096 bytes at the address 32, in memory with the content `junk`. -/
def ptrPool4096 (junk : Nat → NodeCell) : State PtrChain where
  pool := {
    base := 32
    max := 4095
    chain := ptrCreate junk 32 4096
    large := []
    served := [] }
  log := [.obtained 32 4152]

/-- Memory that reads as null pointers. -/
def clearMemory : Nat → NodeCell := fun _ => ⟨0, 0, none, 0⟩

/-- Memory that was used before and holds an address everywhere. -/
def usedMemory : Nat → NodeCell := fun _ => ⟨0, 0, some 1024, 0⟩

/-- Control: in clear memory the chain is well formed throughout the requests `fittingRequests`, which
add a second node. -/
theorem chain_wellFormed_fittingRequests :
    mpCreatePool (ptrOps clearMemory fun c _ _ => c) bump.toAllocator [] 4096 =
        some (ptrPool4096 clearMemory) ∧
      (run (step (ptrOps clearMemory fun c _ _ => c) bump.toAllocator 2) (ptrPool4096 clearMemory)
        fittingRequests).map (fun s => s.pool.chain.owned.length) = some 2 ∧
      EveryState (step (ptrOps clearMemory fun c _ _ => c) bump.toAllocator 2) ChainWellFormed
        (ptrPool4096 clearMemory) fittingRequests := by
  have hcreate : mpCreatePool (ptrOps clearMemory fun c _ _ => c) bump.toAllocator [] 4096 =
      some (ptrPool4096 clearMemory) := rfl
  have hsize : 4096 + sizeofPool + sizeofNode < 2 ^ 64 := by decide
  refine ⟨hcreate, by decide +kernel, ?_⟩
  exact (chain_wellFormed_iff bump clearMemory (fun c _ _ => c) hsize hcreate).2 rfl
    fittingRequests (by decide +kernel)

/-- In used memory the chain of a new pool goes from the head to an address that is no node, and
resetting or destroying the pool walks off its nodes. -/
theorem usedMemory_illFormed :
    mpCreatePool (ptrOps usedMemory fun c _ _ => c) bump.toAllocator [] 4096 =
        some (ptrPool4096 usedMemory) ∧
      ¬ ChainWellFormed (ptrPool4096 usedMemory) ∧
      step (ptrOps usedMemory fun c _ _ => c) bump.toAllocator 2 (ptrPool4096 usedMemory) .reset =
        none ∧
      mpDestoryPool (ptrOps usedMemory fun c _ _ => c) (ptrPool4096 usedMemory).pool
        (ptrPool4096 usedMemory).log = none := by
  refine ⟨rfl, fun h => ?_, rfl, rfl⟩
  have hnull := (chainOk_ptrCreate usedMemory 32 4096).1 h.1
  cases hnull

end CppMisc.MmPool
