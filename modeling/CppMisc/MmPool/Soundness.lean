import CppMisc.MmPool.Ledger

/-!
# Soundness of the small requests of `mempool/mmpool.c`

A small request should be served inside the data area of a node. The test that decides this is
`(size_t)(p->end - m) >= size`, with `m` the place of the request. `mp_alloc` rounds `last` up to get
`m`, and when that passes `end` the difference is negative and the conversion makes it a huge number:
the test succeeds and the range lies behind the node. `AlignedFits` says that the walk of an aligned
request meets no such node before one with room.

`Layout` is the invariant of the operations whose walks are of this kind. The node areas lie in live
blocks that do not overlap, so a range behind a node is in no other node's data area either, and a
single walk of the other kind breaks soundness at once.
-/

set_option autoImplicit false

namespace CppMisc.MmPool

open CppMisc.Library

/-! ## Arithmetic -/

theorem mpAlignPtr_spec (p : Nat) :
    p ≤ mpAlignPtr p mpAlignment ∧ mpAlignPtr p mpAlignment < p + mpAlignment ∧
      mpAlignment ∣ mpAlignPtr p mpAlignment := by
  simp only [mpAlignPtr, mpAlignment]
  omega

/-- The rounded address is the least multiple above. -/
theorem mpAlignPtr_le {p b : Nat} (hp : p ≤ b) (hb : mpAlignment ∣ b) :
    mpAlignPtr p mpAlignment ≤ b := by
  simp only [mpAlignPtr, mpAlignment] at hb ⊢
  omega

theorem mpAlignPtr_of_dvd {p : Nat} (h : mpAlignment ∣ p) : mpAlignPtr p mpAlignment = p :=
  le_antisymm (mpAlignPtr_le le_rfl h) (mpAlignPtr_spec p).1

theorem sizeT_of_le {m e : Nat} (hle : m ≤ e) (hlt : e - m < 2 ^ 64) : sizeT (e - m) = e - m := by
  simp only [sizeT]
  omega

/-- A small negative difference becomes a huge size. -/
theorem sizeT_of_lt {m e : Nat} (hlt : e < m) (hle : m ≤ e + mpAlignment) :
    mpMaxAllocFromPool < sizeT (e - m) := by
  simp only [sizeT, mpAlignment, mpMaxAllocFromPool] at hle ⊢
  omega

/-! ## Walks -/

/-- The walk of an aligned request meets no node whose rounded `last` passes `end` before one with
room. -/
def AlignedFits (size : Nat) : List MpNode → Prop
  | [] => True
  | p :: rest => mpAlignPtr p.last mpAlignment ≤ p.end_ ∧
      (p.end_ - mpAlignPtr p.last mpAlignment < size → AlignedFits size rest)

instance decidableAlignedFits (size : Nat) : ∀ nodes, Decidable (AlignedFits size nodes)
  | [] => isTrue trivial
  | p :: rest =>
      have := decidableAlignedFits size rest
      inferInstanceAs (Decidable (mpAlignPtr p.last mpAlignment ≤ p.end_ ∧
        (p.end_ - mpAlignPtr p.last mpAlignment < size → AlignedFits size rest)))

/-- The condition on a small request: an aligned one fits. -/
def Fits (c : MpChain) (aligned : Bool) (size : Nat) : Prop :=
  aligned = true → AlignedFits size (c.nodes.drop c.current)

instance (c : MpChain) (aligned : Bool) (size : Nat) : Decidable (Fits c aligned size) :=
  inferInstanceAs (Decidable (aligned = true → AlignedFits size (c.nodes.drop c.current)))

/-- A node with `size` bytes of data and its `last` inside. -/
structure NodeOk (size : Nat) (p : MpNode) : Prop where
  start : p.addr + sizeofNode ≤ p.last
  stop : p.last ≤ p.end_
  end_eq : p.end_ = p.addr + sizeofNode + size

/-- The data area of a node contains the range. -/
def MpNode.Contains (p : MpNode) (r : Range) : Prop :=
  p.addr + sizeofNode ≤ r.start ∧ r.start + r.size ≤ p.end_

/-- The places of the nodes, without the fields that requests change. -/
def areas (nodes : List MpNode) : List (Nat × Nat) := nodes.map fun p => (p.addr, p.end_)

/-- Some node of the chain contains the range. -/
def Inside (nodes : List MpNode) (r : Range) : Prop := ∃ p ∈ nodes, p.Contains r

theorem inside_of_areas {nodes nodes' : List MpNode} {r : Range} (h : Inside nodes r)
    (hareas : ∀ x ∈ areas nodes, x ∈ areas nodes') : Inside nodes' r := by
  obtain ⟨p, hp, hcontains⟩ := h
  obtain ⟨q, hq, heq⟩ := List.mem_map.1 (hareas _ (List.mem_map.2 ⟨p, hp, rfl⟩))
  obtain ⟨haddr, hend⟩ := Prod.mk.inj heq
  refine ⟨q, hq, ?_⟩
  simp only [MpNode.Contains, haddr, hend]
  exact hcontains

/-- A request is placed at or behind `last`, and an aligned one at a multiple of 32. -/
theorem place_le (aligned : Bool) (p : MpNode) :
    p.last ≤ place aligned p ∧ (aligned = true → mpAlignment ∣ place aligned p) := by
  cases aligned with
  | true => exact ⟨(mpAlignPtr_spec p.last).1, fun _ => (mpAlignPtr_spec p.last).2.2⟩
  | false => exact ⟨le_rfl, fun h => nomatch h⟩

theorem place_spec {size : Nat} {p : MpNode} (hp : NodeOk size p) (hsize : size < 2 ^ 64)
    (aligned : Bool) : p.last ≤ place aligned p ∧ p.end_ - place aligned p < 2 ^ 64 := by
  have hle := (place_le aligned p).1
  obtain ⟨hstart, -, hend⟩ := hp
  exact ⟨hle, by omega⟩

/-- A node that is asked and passes the test, with its place inside. -/
theorem contains_of_test {size n : Nat} {aligned : Bool} {p : MpNode} (hp : NodeOk size p)
    (hsize : size < 2 ^ 64) (hplace : place aligned p ≤ p.end_)
    (htest : sizeT (p.end_ - place aligned p) ≥ n) :
    NodeOk size { p with last := place aligned p + n } ∧
      p.Contains ⟨place aligned p, n⟩ := by
  obtain ⟨hle, hroom⟩ := place_spec hp hsize aligned
  obtain ⟨hstart, -, hend⟩ := hp
  rw [sizeT_of_le hplace hroom] at htest
  refine ⟨⟨?_, ?_, hend⟩, ?_, ?_⟩
  · show p.addr + sizeofNode ≤ place aligned p + n
    omega
  · show place aligned p + n ≤ p.end_
    omega
  · show p.addr + sizeofNode ≤ place aligned p
    omega
  · show place aligned p + n ≤ p.end_
    omega

theorem serveFrom_sound {size n : Nat} {aligned : Bool} (hsize : size < 2 ^ 64) :
    ∀ {nodes nodes' : List MpNode} {m : Nat}, (∀ p ∈ nodes, NodeOk size p) →
      (aligned = true → AlignedFits n nodes) → serveFrom aligned n nodes = some (m, nodes') →
      (∀ p ∈ nodes', NodeOk size p) ∧ areas nodes' = areas nodes ∧ Inside nodes ⟨m, n⟩ := by
  intro nodes
  induction nodes with
  | nil =>
      intro nodes' m _ _ h
      cases h
  | cons p rest ih =>
      intro nodes' m hnodes hfits h
      have hp := hnodes p List.mem_cons_self
      have hrest : ∀ q ∈ rest, NodeOk size q := fun q hq => hnodes q (List.mem_cons_of_mem p hq)
      -- the place of the request is inside the node, by the condition or because `last` is
      have hplace : place aligned p ≤ p.end_ := by
        cases aligned with
        | true => exact (hfits rfl).1
        | false => exact hp.stop
      simp only [serveFrom] at h
      split at h
      · next htest =>
          cases h
          obtain ⟨hnode, hcontains⟩ := contains_of_test hp hsize hplace htest
          -- only `last` of this node has moved
          refine ⟨fun q hq => ?_, rfl, p, List.mem_cons_self, hcontains⟩
          rcases List.mem_cons.1 hq with rfl | hq
          · exact hnode
          · exact hrest q hq
      · next htest =>
          obtain ⟨⟨m', rest'⟩, hserve, heq⟩ := Option.map_eq_some_iff.1 h
          cases heq
          rw [sizeT_of_le hplace (place_spec hp hsize aligned).2] at htest
          -- the walk goes on because the node is too full, so the condition speaks of the rest
          have hfits' : aligned = true → AlignedFits n rest := by
            rintro rfl
            exact (hfits rfl).2 (Nat.not_le.1 htest)
          obtain ⟨hnodes', hareas, q, hq, hcontains⟩ := ih hrest hfits' hserve
          refine ⟨fun q' hq' => ?_, ?_, q, List.mem_cons_of_mem p hq, hcontains⟩
          · rcases List.mem_cons.1 hq' with rfl | hq'
            · exact hp
            · exact hnodes' q' hq'
          · simp only [areas, List.map_cons] at hareas ⊢
            rw [hareas]

/-- A chain with a new node, which is in order as the others are. -/
theorem nodeOk_addNode {size : Nat} {c : MpChain} {p : MpNode} (h : ∀ q ∈ c.nodes, NodeOk size q)
    (hp : NodeOk size p) : ∀ q ∈ (addNode c p).nodes, NodeOk size q := by
  intro q hq
  -- the counts of the nodes change and nothing else
  have hmap := map_addNode (f := fun x => (x.addr, x.last, x.end_)) (fun _ _ => rfl) c p
  have hmem : (q.addr, q.last, q.end_) ∈ (c.nodes ++ [p]).map fun x => (x.addr, x.last, x.end_) := by
    rw [List.map_append, List.map_singleton, ← hmap]
    exact List.mem_map.2 ⟨q, hq, rfl⟩
  obtain ⟨x, hx, heq⟩ := List.mem_map.1 hmem
  simp only [Prod.mk.injEq] at heq
  obtain ⟨haddr, hlast, hend⟩ := heq
  have hok : NodeOk size x := by
    rcases List.mem_append.1 hx with hx | hx
    · exact h x hx
    · rw [List.mem_singleton.1 hx]
      exact hp
  exact ⟨haddr ▸ hlast ▸ hok.start, hlast ▸ hend ▸ hok.stop, haddr ▸ hend ▸ hok.end_eq⟩

/-! ## The invariant -/

/-- The node lies in a live block of the pool that ends where the node ends. -/
def InBlock (m : Mid MpChain) (x : Nat × Nat) : Prop :=
  ∃ b ∈ live m.log, b.addr ∈ m.pool.base :: nodeBlocks m.pool.chain ∧ mpAlignment ∣ b.addr ∧
    b.addr ≤ x.1 ∧ b.addr + b.size = x.2

/-- Where everything is, in a pool created with `size` bytes. -/
structure Layout (size : Nat) (m : Mid MpChain) : Prop where
  ledger : LedgerOk m
  separate : Separate m.log
  max_le : m.pool.max ≤ size ∧ m.pool.max ≤ mpMaxAllocFromPool
  nodes : ∀ p ∈ m.pool.chain.nodes, NodeOk size p
  blocks : ∀ x ∈ areas m.pool.chain.nodes, InBlock m x
  head : mpAlignment ∣ m.pool.base ∧
    (areas m.pool.chain.nodes).head?.map Prod.fst = some (m.pool.base + sizeofPool)
  served : ∀ r ∈ m.pool.served, Inside m.pool.chain.nodes r

/-- Releasing blocks that are not the pool's or its nodes' keeps the nodes in live blocks. -/
theorem inBlock_releaseAll {m : Mid MpChain} {x : Nat × Nat} (h : InBlock m x) {as : List Nat}
    (has : ∀ a ∈ m.pool.base :: nodeBlocks m.pool.chain, a ∉ as) {m' : Mid MpChain}
    (hlog : m'.log = releaseAll as m.log) (hbase : m'.pool.base = m.pool.base)
    (hblocks : nodeBlocks m'.pool.chain = nodeBlocks m.pool.chain) : InBlock m' x := by
  obtain ⟨b, hb, hmem, hrest⟩ := h
  refine ⟨b, ?_, ?_, hrest⟩
  · rw [hlog]
    exact mem_live_releaseAll as hb (has b.addr hmem)
  · rw [hbase, hblocks]
    exact hmem

/-- A move that obtains nothing and keeps the chain. -/
theorem layout_of_release {size : Nat} {m m' : Mid MpChain} (h : Layout size m) {as : List Nat}
    (hledger : LedgerOk m') (hlog : m'.log = releaseAll as m.log)
    (has : ∀ a ∈ m.pool.base :: nodeBlocks m.pool.chain, a ∉ as)
    (hbase : m'.pool.base = m.pool.base) (hmax : m'.pool.max = m.pool.max)
    (hchain : m'.pool.chain = m.pool.chain) (hserved : m'.pool.served = m.pool.served) :
    Layout size m' where
  ledger := hledger
  separate := by
    rw [hlog]
    exact separate_releaseAll as h.separate
  max_le := by
    rw [hmax]
    exact h.max_le
  nodes := by
    rw [hchain]
    exact h.nodes
  blocks := by
    intro x hx
    rw [hchain] at hx
    exact inBlock_releaseAll (h.blocks x hx) has hlog hbase (by rw [hchain])
  head := by
    rw [hbase, hchain]
    exact h.head
  served := by
    rw [hserved, hchain]
    exact h.served

/-- What is held beside the pool's own block and its nodes' is held apart from them. -/
theorem not_mem_of_ledgerOk {m : Mid MpChain} (h : LedgerOk m) {a : Nat}
    (ha : a ∈ m.pool.base :: nodeBlocks m.pool.chain) :
    a ∉ m.side ∧ a ∉ largeBlocks m.pool.large := by
  have hle := List.nodup_iff_count_le_one.1 h.nodup a
  have hpos := List.count_pos_iff.2 ha
  simp only [held, List.count_append, List.count_cons] at hle hpos
  constructor
  · intro hmem
    have hside := List.count_pos_iff.2 hmem
    omega
  · intro hmem
    have hlarge := List.count_pos_iff.2 hmem
    omega

theorem inBlock_mono {m m' : Mid MpChain} {x : Nat × Nat} (h : InBlock m x)
    (hlive : ∀ b ∈ live m.log, b ∈ live m'.log) (hbase : m'.pool.base = m.pool.base)
    (hblocks : ∀ a ∈ nodeBlocks m.pool.chain, a ∈ nodeBlocks m'.pool.chain) : InBlock m' x := by
  obtain ⟨b, hb, hmem, hrest⟩ := h
  refine ⟨b, hlive b hb, ?_, hrest⟩
  rw [hbase]
  rcases List.mem_cons.1 hmem with heq | hmem
  · exact List.mem_cons.2 (.inl heq)
  · exact List.mem_cons_of_mem _ (hblocks _ hmem)

theorem areas_append (nodes nodes' : List MpNode) :
    areas (nodes ++ nodes') = areas nodes ++ areas nodes' := List.map_append

theorem map_fst_areas (nodes : List MpNode) :
    (areas nodes).map Prod.fst = nodes.map MpNode.addr := by
  simp only [areas, List.map_map]
  rfl

/-- A request served by a node of the chain. -/
theorem layout_node {size n p : Nat} {aligned : Bool} {side : List Nat} {pool : MpPool MpChain}
    {log : Log} {rest : List MpNode} (h : Layout size ⟨side, pool, log⟩) (hsize : size < 2 ^ 64)
    (hfits : Fits pool.chain aligned n)
    (hserve : serveFrom aligned n (pool.chain.nodes.drop pool.chain.current) = some (p, rest))
    {m' : Mid MpChain} (hledger : LedgerOk m') (hm : m' = ⟨side, { pool with
      chain := { pool.chain with nodes := pool.chain.nodes.take pool.chain.current ++ rest }
      served := ⟨p, n⟩ :: pool.served }, log⟩) : Layout size m' := by
  obtain ⟨hnodes, hareas, hinside⟩ := serveFrom_sound hsize
    (fun q hq => h.nodes q (List.mem_of_mem_drop hq)) hfits hserve
  have hsame : areas (pool.chain.nodes.take pool.chain.current ++ rest) =
      areas pool.chain.nodes := by
    rw [areas_append, hareas, ← areas_append, List.take_append_drop]
  have hblocks : nodeBlocks { pool.chain with
      nodes := pool.chain.nodes.take pool.chain.current ++ rest } = nodeBlocks pool.chain := by
    refine nodeBlocks_of_map_addr ?_
    rw [← map_fst_areas, hsame, map_fst_areas]
  subst hm
  refine ⟨hledger, h.separate, h.max_le, fun q hq => ?_, fun x hx => ?_, ?_, fun r hr => ?_⟩
  · rcases List.mem_append.1 hq with hq | hq
    · exact h.nodes q (List.mem_of_mem_take hq)
    · exact hnodes q hq
  · refine inBlock_mono (h.blocks x (hsame ▸ hx)) (fun b hb => hb) rfl fun a ha => ?_
    rw [hblocks]
    exact ha
  · simp only [hsame]
    exact h.head
  · have hold : Inside pool.chain.nodes r := by
      rcases List.mem_cons.1 hr with rfl | hr
      · obtain ⟨q, hq, hcontains⟩ := hinside
        exact ⟨q, List.mem_of_mem_drop hq, hcontains⟩
      · exact h.served r hr
    exact inside_of_areas hold fun x hx => hsame ▸ hx

/-- The node of a new block, with the requested bytes at the start of its data area. -/
theorem newNode_ok {size psize n a : Nat} (hdvd : mpAlignment ∣ a) (hpsize : psize = sizeofNode + size)
    (hn : n ≤ size) : NodeOk size (newNode a psize n) := by
  have hround : mpAlignPtr (a + sizeofNode) mpAlignment = a + sizeofNode :=
    mpAlignPtr_of_dvd (Nat.dvd_add hdvd (by decide))
  refine ⟨?_, ?_, ?_⟩
  · simp only [newNode, hround]
    omega
  · simp only [newNode, hround, hpsize]
    omega
  · simp only [newNode, hpsize]
    omega

/-- A request served by a new block. -/
theorem layout_block {A : AlignedAllocator} {size n a : Nat} {side : List Nat}
    {pool : MpPool MpChain} {log : Log} {g : MpNode} {tail : List MpNode}
    (h : Layout size ⟨side, pool, log⟩) (hsize : size + sizeofNode < 2 ^ 64)
    (hn : n ≤ pool.max) (hnodes : pool.chain.nodes = g :: tail)
    (hanswer : A.answer log (.posixMemalign mpAlignment (sizeT (g.end_ - g.addr))) = some a)
    {m' : Mid MpChain} (hledger : LedgerOk m') (hm : m' = ⟨side, { pool with
      chain := addNode pool.chain (newNode a (sizeT (g.end_ - g.addr)) n)
      served := ⟨mpAlignPtr (a + sizeofNode) mpAlignment, n⟩ :: pool.served },
      .obtained a (sizeT (g.end_ - g.addr)) :: log⟩) : Layout size m' := by
  -- the block has the size of the head node, and its start is aligned already
  have hg := h.nodes g (by rw [hnodes]; exact List.mem_cons_self)
  have hpsize : sizeT (g.end_ - g.addr) = sizeofNode + size := by
    have hend := hg.end_eq
    rw [sizeT_of_le (by omega) (by omega)]
    omega
  have hdvd : mpAlignment ∣ a := A.aligned _ _ _ hanswer
  have hround : mpAlignPtr (a + sizeofNode) mpAlignment = a + sizeofNode :=
    mpAlignPtr_of_dvd (Nat.dvd_add hdvd (by decide))
  have hmax : pool.max ≤ size := h.max_le.1
  have hnew : NodeOk size (newNode a (sizeT (g.end_ - g.addr)) n) :=
    newNode_ok hdvd hpsize (hn.trans hmax)
  have hareas : areas (addNode pool.chain (newNode a (sizeT (g.end_ - g.addr)) n)).nodes =
      areas pool.chain.nodes ++ [(a, a + sizeT (g.end_ - g.addr))] :=
    map_addNode (fun _ _ => rfl) pool.chain _
  have hblocks : nodeBlocks (addNode pool.chain (newNode a (sizeT (g.end_ - g.addr)) n)) =
      nodeBlocks pool.chain ++ [a] := nodeBlocks_addNode hnodes _
  subst hm
  refine ⟨hledger, separate_obtained h.separate hanswer, h.max_le, nodeOk_addNode h.nodes hnew,
    fun x hx => ?_, ?_, fun r hr => ?_⟩
  · rw [hareas] at hx
    rcases List.mem_append.1 hx with hx | hx
    · refine inBlock_mono (h.blocks x hx) (fun b hb => List.mem_cons_of_mem _ hb) rfl fun c hc => ?_
      rw [hblocks]
      exact List.mem_append_left _ hc
    · rw [List.mem_singleton.1 hx]
      refine ⟨⟨a, sizeT (g.end_ - g.addr)⟩, List.mem_cons_self, List.mem_cons_of_mem _ ?_, hdvd,
        le_rfl, rfl⟩
      rw [hblocks]
      exact List.mem_append_right _ List.mem_cons_self
  · have hhead := h.head
    simp only [hnodes] at hhead
    simp only [hareas, hnodes]
    exact hhead
  · rcases List.mem_cons.1 hr with rfl | hr
    · refine ⟨newNode a (sizeT (g.end_ - g.addr)) n, ?_, ?_, ?_⟩
      · exact List.mem_append_right _ List.mem_cons_self
      · simp only [newNode, hround]
        exact le_rfl
      · simp only [newNode, hround, hpsize]
        omega
    · refine inside_of_areas (h.served r hr) fun x hx => ?_
      rw [hareas]
      exact List.mem_append_left _ hx

theorem layout_move {A : AlignedAllocator} {size : Nat} (hsize : size + sizeofNode < 2 ^ 64)
    (m m' : Mid MpChain) (h : Layout size m) (hmove : Move listOps A.toAllocator Fits m m') :
    Layout size m' := by
  have hledger := ledgerOk_move m m' h.ledger hmove
  cases hmove with
  | @small side pool log log' chain ptr aligned n hn hfits hserve =>
      have hcases := served_serve A.toAllocator aligned n pool.chain log
      rw [Option.some.inj hserve] at hcases
      cases hcases with
      | node p rest hrest => exact layout_node h (by omega) hfits hrest hledger rfl
      | noChain _ => exact ⟨hledger, h.separate, h.max_le, h.nodes, h.blocks, h.head, h.served⟩
      | refused g tail _ _ _ =>
          exact ⟨hledger, h.separate, h.max_le, h.nodes, h.blocks, h.head, h.served⟩
      | block g tail a hnodes _ hanswer =>
          exact layout_block h hsize hn hnodes hanswer hledger rfl
  | @obtain_ side pool log p r hanswer =>
      refine ⟨hledger, separate_obtained h.separate hanswer, h.max_le, h.nodes, fun x hx => ?_,
        h.head, h.served⟩
      exact inBlock_mono (h.blocks x hx) (fun b hb => List.mem_cons_of_mem _ hb) rfl fun a ha => ha
  | refuse => exact ⟨hledger, h.separate, h.max_le, h.nodes, h.blocks, h.head, h.served⟩
  | @giveBack side pool log p =>
      -- what is given back was held on the side, so no node lies in it
      have hnot : ∀ a ∈ pool.base :: nodeBlocks pool.chain, a ∉ [p] := by
        intro a ha hmem
        rw [List.mem_singleton.1 hmem] at ha
        exact (not_mem_of_ledgerOk h.ledger ha).1 List.mem_cons_self
      exact layout_of_release h hledger rfl hnot rfl rfl rfl rfl
  | reuse hreuse => exact ⟨hledger, h.separate, h.max_le, h.nodes, h.blocks, h.head, h.served⟩
  | record _ _ => exact ⟨hledger, h.separate, h.max_le, h.nodes, h.blocks, h.head, h.served⟩
  | clear _ => exact ⟨hledger, h.separate, h.max_le, h.nodes, h.blocks, h.head, h.served⟩
  | @free side pool log p addr large hfree =>
      refine layout_of_release h hledger rfl (fun a ha hmem => ?_) rfl rfl rfl rfl
      refine (not_mem_of_ledgerOk h.ledger ha).2 ?_
      exact (perm_freeEntry hfree).mem_iff.2 (List.mem_append_left _ hmem)
  | @reset side pool log chain hchain =>
      cases hchain
      have hareas : areas (pool.chain.nodes.map fun p => { p with last := p.addr + sizeofNode }) =
          areas pool.chain.nodes := by
        simp only [areas, List.map_map]
        rfl
      refine ⟨hledger, separate_releaseAll _ h.separate, h.max_le, fun q hq => ?_, fun x hx => ?_,
        ?_, by simp⟩
      · -- `last` goes back to the end of the header
        obtain ⟨p, hp, rfl⟩ := List.mem_map.1 hq
        have hok := h.nodes p hp
        refine ⟨le_rfl, ?_, hok.end_eq⟩
        have hend := hok.end_eq
        show p.addr + sizeofNode ≤ p.end_
        omega
      · refine inBlock_releaseAll (h.blocks x (hareas ▸ hx))
          (fun a ha => (not_mem_of_ledgerOk h.ledger ha).2) rfl rfl ?_
        refine nodeBlocks_of_map_addr ?_
        rw [List.map_map]
        rfl
      · simp only [hareas]
        exact h.head

/-! ## Walks that leave a node -/

/-- A walk that does not fit is served behind the end of a node. -/
theorem serveFrom_stray {size n : Nat} (hsize : size < 2 ^ 64) (hn : n ≤ mpMaxAllocFromPool) :
    ∀ {nodes : List MpNode}, (∀ p ∈ nodes, NodeOk size p) → ¬ AlignedFits n nodes →
      ∃ m nodes', serveFrom true n nodes = some (m, nodes') ∧ areas nodes' = areas nodes ∧
        ∃ p ∈ nodes, m = mpAlignPtr p.last mpAlignment ∧ p.end_ < m := by
  intro nodes
  induction nodes with
  | nil =>
      intro _ hnot
      exact absurd trivial hnot
  | cons p rest ih =>
      intro hnodes hnot
      have hp := hnodes p List.mem_cons_self
      simp only [serveFrom]
      rcases le_or_gt (mpAlignPtr p.last mpAlignment) p.end_ with hle | hlt
      · -- this node is too full, and the walk goes wrong further on
        have hstray : p.end_ - mpAlignPtr p.last mpAlignment < n ∧ ¬ AlignedFits n rest := by
          by_contra hno
          refine hnot ⟨hle, fun hlt => ?_⟩
          by_contra hrest
          exact hno ⟨hlt, hrest⟩
        have htest : ¬ sizeT (p.end_ - place true p) ≥ n := by
          have heq := sizeT_of_le (e := p.end_) (m := place true p) hle (place_spec hp hsize true).2
          rw [heq]
          exact Nat.not_le.2 hstray.1
        obtain ⟨m, rest', hserve, hareas, q, hq, hm, hend⟩ :=
          ih (fun q hq => hnodes q (List.mem_cons_of_mem p hq)) hstray.2
        refine ⟨m, p :: rest', ?_, ?_, q, List.mem_cons_of_mem p hq, hm, hend⟩
        · rw [if_neg htest, hserve]
          rfl
        · simp only [areas, List.map_cons] at hareas ⊢
          rw [hareas]
      · -- the negative difference is a huge `size_t`, and the node serves
        have hround := (mpAlignPtr_spec p.last).2.1
        have hstop := hp.stop
        have hhuge : sizeT (p.end_ - place true p) ≥ n :=
          hn.trans (sizeT_of_lt hlt (by show mpAlignPtr p.last mpAlignment ≤ _; omega)).le
        refine ⟨_, _, if_pos hhuge, rfl, p, List.mem_cons_self, rfl, hlt⟩

/-- A place behind the end of a node is in no node's data area. -/
theorem not_inside_of_stray {size n : Nat} {m : Mid MpChain} (h : Layout size m) {p : MpNode}
    (hp : p ∈ m.pool.chain.nodes) (hlt : p.end_ < mpAlignPtr p.last mpAlignment) :
    ¬ Inside m.pool.chain.nodes ⟨mpAlignPtr p.last mpAlignment, n⟩ := by
  rintro ⟨q, hq, hstart, hend⟩
  obtain ⟨b, hb, -, hdvd, hle, hbend⟩ := h.blocks (p.addr, p.end_) (List.mem_map.2 ⟨p, hp, rfl⟩)
  obtain ⟨c, hc, -, hcdvd, hcle, hcend⟩ := h.blocks (q.addr, q.end_) (List.mem_map.2 ⟨q, hq, rfl⟩)
  have hpstop := (h.nodes p hp).stop
  have hpend := (h.nodes p hp).end_eq
  simp only at hstart hend hle hbend hcle hcend
  rcases eq_or_ne b c with rfl | hne
  · -- in the same block both nodes end where the block ends
    omega
  · rcases h.separate.apart hb hc hne with hapart | hapart
    · -- the other block starts at a multiple of the alignment behind the node
      have hround := mpAlignPtr_le (b := c.addr) (p := p.last) (by omega) hcdvd
      simp only [sizeofNode] at hstart
      omega
    · omega

/-- The request ends in one small request on the chain, whose range is added to those served. -/
def EndsIn (A : Allocator) (pool : MpPool MpChain) (aligned : Bool) (n : Nat) (r : Ret MpChain) :
    Prop :=
  ∃ log ptr log', serve A aligned n pool.chain log = (ptr, r.pool.chain, log') ∧
    r.pool.served = ptr.toList.map (fun start => ⟨start, n⟩) ++ pool.served

theorem endsIn_mpSmall {A : Allocator} {pool : MpPool MpChain} {aligned : Bool} {n : Nat} {log : Log}
    {r : Ret MpChain} (h : mpSmall listOps A aligned pool log n = some r) :
    EndsIn A pool aligned n r := by
  obtain ⟨⟨ptr, chain, log'⟩, hserve, rfl⟩ := Option.map_eq_some_iff.1 h
  exact ⟨log, ptr, log', Option.some.inj hserve, rfl⟩

theorem endsIn_recordLarge {A : Allocator} {frames : Nat} {pool : MpPool MpChain} {log : Log}
    {p : Nat} {r : Ret MpChain}
    (h : recordLarge listOps (mpAlloc listOps A frames) pool log p = some r) {ask : Bool × Nat}
    (hask : askEntry pool = some ask) : EndsIn A pool ask.1 ask.2 r := by
  simp only [askEntry] at hask
  split at hask
  · next hle =>
      cases hask
      obtain ⟨inner, hinner, rfl⟩ := Option.map_eq_some_iff.1 h
      cases frames with
      | zero => cases hinner
      | succ frames =>
          simp only [mpAlloc, if_pos hle] at hinner
          obtain ⟨log₁, ptr, log₂, hserve, hserved⟩ := endsIn_mpSmall hinner
          cases hptr : inner.ptr with
          | none => exact ⟨log₁, ptr, log₂, hserve, hserved⟩
          | some e => exact ⟨log₁, ptr, log₂, hserve, hserved⟩
  · cases hask

theorem endsIn_mpAllocLarge {A : Allocator} {frames : Nat} {pool : MpPool MpChain} {log : Log}
    {size : Nat} {r : Ret MpChain}
    (h : mpAllocLarge listOps A (mpAlloc listOps A frames) pool log size = some r)
    {ask : Bool × Nat} (hask : askLarge A pool log size = some ask) :
    EndsIn A pool ask.1 ask.2 r := by
  simp only [mpAllocLarge, Allocator.request] at h
  simp only [askLarge] at hask
  cases hanswer : A.answer log (.malloc size) with
  | none =>
      simp only [hanswer] at hask
      cases hask
  | some p =>
      simp only [hanswer] at h hask
      cases hreuse : reuseEntry p 0 pool.large with
      | some e =>
          simp only [hreuse, Option.isSome_some, if_true] at hask
          cases hask
      | none =>
          simp only [hreuse, Option.isSome_none, Bool.false_eq_true, if_false] at h hask
          exact endsIn_recordLarge h hask

theorem endsIn_mpAlloc {A : Allocator} {frames : Nat} {pool : MpPool MpChain} {log : Log}
    {size : Nat} {r : Ret MpChain} (h : mpAlloc listOps A frames pool log size = some r)
    {ask : Bool × Nat} (hask : askAlloc A true pool log size = some ask) :
    EndsIn A pool ask.1 ask.2 r := by
  cases frames with
  | zero => cases h
  | succ frames =>
      simp only [mpAlloc] at h
      simp only [askAlloc] at hask
      split at h
      · next hle =>
          rw [if_pos hle] at hask
          cases hask
          exact endsIn_mpSmall h
      · next hlarge =>
          rw [if_neg hlarge] at hask
          exact endsIn_mpAllocLarge h hask

/-- The small request that an operation asks for is made, and its range is then among those served. -/
theorem endsIn_of_step {A : Allocator} {frames : Nat} {s s' : State MpChain} {a : Act}
    (h : step listOps A frames s a = some s') {ask : Bool × Nat} (hask : asks A s a = some ask) :
    ∃ r : Ret MpChain, r.state = s' ∧ EndsIn A s.pool ask.1 ask.2 r := by
  cases a with
  | alloc size =>
      obtain ⟨r, hr, rfl⟩ := Option.map_eq_some_iff.1 h
      exact ⟨r, rfl, endsIn_mpAlloc hr hask⟩
  | nalloc size =>
      obtain ⟨r, hr, rfl⟩ := Option.map_eq_some_iff.1 h
      refine ⟨r, rfl, ?_⟩
      simp only [mpNalloc] at hr
      simp only [asks, askAlloc] at hask
      split at hr
      · next hle =>
          rw [if_pos hle] at hask
          cases hask
          exact endsIn_mpSmall hr
      · next hlarge =>
          rw [if_neg hlarge] at hask
          exact endsIn_mpAllocLarge hr hask
  | calloc size =>
      obtain ⟨r, hr, rfl⟩ := Option.map_eq_some_iff.1 h
      refine ⟨r, rfl, ?_⟩
      obtain ⟨inner, hinner, rfl⟩ := Option.map_eq_some_iff.1 hr
      have hends := endsIn_mpAlloc hinner hask
      cases hptr : inner.ptr with
      | none => exact hends
      | some p =>
          simp only
          split
          · exact hends
          · exact hends
  | memalign size alignment =>
      obtain ⟨r, hr, rfl⟩ := Option.map_eq_some_iff.1 h
      refine ⟨r, rfl, ?_⟩
      simp only [mpMemalign, Allocator.request] at hr
      simp only [asks] at hask
      cases hanswer : A.answer s.log (.posixMemalign alignment size) with
      | none => simp [hanswer] at hask
      | some p =>
          simp only [hanswer, Option.isSome_some, if_true] at hr hask
          exact endsIn_recordLarge hr hask
  | free p => cases hask
  | reset => cases hask

/-- The size that an operation asks for is at most `max`. -/
theorem le_max_of_asks {A : Allocator} {s : State MpChain} {a : Act} {ask : Bool × Nat}
    (h : asks A s a = some ask) : ask.2 ≤ s.pool.max := by
  have hentry : askEntry s.pool = some ask → ask.2 ≤ s.pool.max := by
    intro he
    simp only [askEntry] at he
    split at he
    · next hle =>
        cases he
        exact hle
    · cases he
  have halloc : ∀ {aligned : Bool} {size : Nat}, askAlloc A aligned s.pool s.log size = some ask →
      ask.2 ≤ s.pool.max := by
    intro aligned size he
    simp only [askAlloc] at he
    split at he
    · next hle =>
        cases he
        exact hle
    · simp only [askLarge] at he
      split at he
      · cases he
      · split at he
        · cases he
        · exact hentry he
  cases a with
  | alloc size => exact halloc h
  | nalloc size => exact halloc h
  | calloc size => exact halloc h
  | memalign size alignment =>
      simp only [asks] at h
      split at h
      · exact hentry h
      · cases h
  | free p => cases h
  | reset => cases h

/-! ## Soundness -/

/-- Every range served since the last reset lies in the data area of a node of the chain. -/
def InDataAreas (s : State MpChain) : Prop := ∀ r ∈ s.pool.served, Inside s.pool.chain.nodes r

/-- The small request that the operation makes, if any, fits where its walk leads. -/
def WalkFits (A : Allocator) (s : State MpChain) (a : Act) : Prop :=
  Asked Fits s.pool.chain (asks A s a)

instance (A : Allocator) (s : State MpChain) (a : Act) : Decidable (WalkFits A s a) :=
  inferInstanceAs (Decidable (Asked Fits s.pool.chain (asks A s a)))

/-- The layout of a state between operations. -/
abbrev StateLayout (size : Nat) (s : State MpChain) : Prop := Layout size ⟨[], s.pool, s.log⟩

theorem stateLayout_create {A : AlignedAllocator} {size : Nat} {s : State MpChain}
    (hsize : size + sizeofPool + sizeofNode < 2 ^ 64)
    (h : mpCreatePool listOps A.toAllocator [] size = some s) : StateLayout size s := by
  have hledger := stateLedger_create h
  have hbytes : sizeT (size + sizeofPool + sizeofNode) = size + sizeofPool + sizeofNode := by
    have heq := sizeT_of_le (m := 0) (e := size + sizeofPool + sizeofNode) (Nat.zero_le _) hsize
    simpa using heq
  have hempty : Separate [] := List.Pairwise.nil
  obtain ⟨p, hanswer, rfl⟩ := mpCreatePool_cases h
  refine ⟨hledger, separate_obtained hempty hanswer, ?_, ?_, ?_, ⟨A.aligned _ _ _ hanswer, rfl⟩,
    by simp⟩
  · rcases lt_or_ge size mpMaxAllocFromPool with hlt | hge
    · simp only [if_pos hlt]
      exact ⟨le_rfl, hlt.le⟩
    · simp only [if_neg (Nat.not_lt.2 hge)]
      exact ⟨hge, le_rfl⟩
  · intro q hq
    obtain rfl := List.mem_singleton.1 hq
    exact ⟨le_rfl, Nat.le_add_right _ _, rfl⟩
  · intro x hx
    obtain rfl := List.mem_singleton.1 hx
    refine ⟨⟨p, sizeT (size + sizeofPool + sizeofNode)⟩, List.mem_cons_self, List.mem_cons_self,
      A.aligned _ _ _ hanswer, Nat.le_add_right _ _, ?_⟩
    simp only [hbytes, headNode]
    omega

theorem stateLayout_step {A : AlignedAllocator} {size frames : Nat}
    (hsize : size + sizeofNode < 2 ^ 64) (s : State MpChain) (a : Act) (s' : State MpChain)
    (h : StateLayout size s) (hfits : WalkFits A.toAllocator s a)
    (hstep : step listOps A.toAllocator frames s a = some s') : StateLayout size s' :=
  (path_of_step hstep hfits).2.invariant (layout_move hsize) h

/-- One walk that does not fit breaks soundness. -/
theorem not_inDataAreas_of_step {A : AlignedAllocator} {size frames : Nat}
    (hsize : size + sizeofNode < 2 ^ 64) (s : State MpChain) (a : Act) (s' : State MpChain)
    (h : StateLayout size s) (hnot : ¬ WalkFits A.toAllocator s a)
    (hstep : step listOps A.toAllocator frames s a = some s') : ¬ InDataAreas s' := by
  simp only [WalkFits, Asked, Fits, not_forall] at hnot
  obtain ⟨aligned, n, hask, rfl, hstray⟩ := hnot
  have hn : n ≤ mpMaxAllocFromPool := (le_max_of_asks hask).trans h.max_le.2
  -- the walk is served behind the end of some node `p`, and the range is recorded as served
  obtain ⟨m, rest, hserve, hareas, p, hp, rfl, hlt⟩ := serveFrom_stray (by omega) hn
    (fun q hq => h.nodes q (List.mem_of_mem_drop hq)) hstray
  obtain ⟨r, rfl, log, ptr, log', hends, hserved⟩ := endsIn_of_step hstep hask
  simp only [serve, hserve, Prod.mk.injEq] at hends
  obtain ⟨rfl, hchain, -⟩ := hends
  intro hsound
  have hinside : Inside r.pool.chain.nodes ⟨mpAlignPtr p.last mpAlignment, n⟩ := by
    refine hsound _ ?_
    simp only [Ret.state, hserved]
    exact List.mem_cons_self
  -- the walk has moved no node
  refine not_inside_of_stray h (List.mem_of_mem_drop hp) hlt (inside_of_areas hinside fun x hx => ?_)
  rw [← hchain] at hx
  simp only [areas_append, hareas] at hx
  rwa [← areas_append, List.take_append_drop] at hx

/-- A size that does not wrap for the first block does not wrap for the others. -/
theorem node_size_lt {size : Nat} (h : size + sizeofPool + sizeofNode < 2 ^ 64) :
    size + sizeofNode < 2 ^ 64 := by
  have hle : size + sizeofNode ≤ size + sizeofPool + sizeofNode := by omega
  exact lt_of_le_of_lt hle h

/-- **Soundness of small requests.** On a pool of any size that does not wrap, with an allocator whose
blocks are aligned and disjoint, the ranges served for small requests lie inside the data areas of the
nodes in every state of a run exactly when no aligned small request of the run, made by a caller or for
an entry, walks to a node whose `last`, rounded up, passes its `end`, before it finds a node with room. -/
theorem small_requests_sound_iff (A : AlignedAllocator) {size frames : Nat} {s : State MpChain}
    (hsize : size + sizeofPool + sizeofNode < 2 ^ 64)
    (hcreate : mpCreatePool listOps A.toAllocator [] size = some s) (acts : List Act) :
    EveryState (step listOps A.toAllocator frames) InDataAreas s acts ↔
      EveryStep (step listOps A.toAllocator frames) (WalkFits A.toAllocator) s acts := by
  have hsize' := node_size_lt hsize
  exact everyState_iff_everyStep (stateLayout_step hsize') (fun _ h => h.served)
    (not_inDataAreas_of_step hsize') acts s (stateLayout_create hsize hcreate)

/-- A pool of 4096 bytes at the address 32. -/
def pool4096 : State MpChain where
  pool := {
    base := 32
    max := 4095
    chain := ⟨[headNode 32 4096], 0⟩
    large := []
    served := [] }
  log := [.obtained 32 4152]

/-- Requests that fit: small ones of all kinds, a large one with its entry, and a second node. -/
def fittingRequests : List Act :=
  [.alloc 100, .nalloc 7, .calloc 3000, .alloc 5000, .memalign 64 64, .alloc 4000, .reset, .alloc 32]

/-- Control: the requests `fittingRequests` on `pool4096` all fit and are all served inside a node. -/
theorem small_requests_sound_fittingRequests :
    mpCreatePool listOps bump.toAllocator [] 4096 = some pool4096 ∧
      (run (step listOps bump.toAllocator 2) pool4096 fittingRequests).isSome ∧
      EveryState (step listOps bump.toAllocator 2) InDataAreas pool4096 fittingRequests := by
  have hcreate : mpCreatePool listOps bump.toAllocator [] 4096 = some pool4096 := rfl
  have hsize : 4096 + sizeofPool + sizeofNode < 2 ^ 64 := by decide
  refine ⟨hcreate, by decide +kernel, ?_⟩
  rw [small_requests_sound_iff bump hsize hcreate]
  decide +kernel

/-- A request that leaves eight bytes in the head node, and one more byte. -/
def roundedPastEnd : List Act := [.alloc 4080, .alloc 1]

/-- The second request of `roundedPastEnd` is served eight bytes behind the end of the head node, which
is the only node. -/
theorem roundedPastEnd_stray :
    mpCreatePool listOps bump.toAllocator [] 4096 = some pool4096 ∧
      ∃ s, run (step listOps bump.toAllocator 2) pool4096 roundedPastEnd = some s ∧
        areas s.pool.chain.nodes = [(56, 4184)] ∧ (⟨4192, 1⟩ : Range) ∈ s.pool.served ∧
        ¬ InDataAreas s := by
  refine ⟨rfl, _, rfl, rfl, List.mem_cons_self, fun h => ?_⟩
  obtain ⟨p, hp, -, hend⟩ := h ⟨4192, 1⟩ List.mem_cons_self
  obtain rfl := List.mem_singleton.1 hp
  exact absurd hend (by decide)

end CppMisc.MmPool
