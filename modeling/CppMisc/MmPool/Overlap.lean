import CppMisc.MmPool.Chain

/-!
# Ranges of one node of `mempool/mmpool.c` do not overlap

Every small request moves the `last` of one node and takes the bytes in between. The record `served` of
the model does not say from which node a range was taken, so the operations are run here on a chain that
also notes, for each range, the position of its node and whether the request was aligned (`tracedOps`).
Noting this changes nothing else: forgetting the notes gives back the run on the chain itself.

Node by node the ranges are packed between the end of the node's header and its `last`. A walk that
enters the chain in the middle, a new node and a reset all keep that, whatever the sizes are, so nothing
is asked of the requests. On the chain in memory the headers have to stay as they were written, and the
runs considered there are those whose small requests fit (`PtrWalkFits`).
-/

set_option autoImplicit false

namespace CppMisc.MmPool

open CppMisc.Library

/-! ## Chains seen through a map -/

section Views

variable {σ τ : Type}

/-- A pool with its chain replaced. -/
def MpPool.mapChain (f : σ → τ) (pool : MpPool σ) : MpPool τ where
  base := pool.base
  max := pool.max
  chain := f pool.chain
  large := pool.large
  served := pool.served

/-- The same for what a request returns. -/
def Ret.mapChain (f : σ → τ) (r : Ret σ) : Ret τ := ⟨r.ptr, r.pool.mapChain f, r.log⟩

/-- The same for a state. -/
def State.mapChain (f : σ → τ) (s : State σ) : State τ := ⟨s.pool.mapChain f, s.log⟩

/-- `f` takes what one chain does to what the other does. -/
structure ChainMap (K : ChainOps σ) (K' : ChainOps τ) (f : σ → τ) : Prop where
  serve : ∀ A aligned size c log, K'.serve A aligned size (f c) log =
    (K.serve A aligned size c log).map fun (ptr, c', log') => (ptr, f c', log')
  reset : ∀ c, K'.reset (f c) = (K.reset c).map f
  write : ∀ c start size, K'.write (f c) start size = f (K.write c start size)

variable {K : ChainOps σ} {K' : ChainOps τ} {f : σ → τ} {A : Allocator}

theorem mpSmall_mapChain (hf : ChainMap K K' f) (aligned : Bool) (pool : MpPool σ) (log : Log)
    (size : Nat) :
    mpSmall K' A aligned (pool.mapChain f) log size =
      (mpSmall K A aligned pool log size).map (Ret.mapChain f) := by
  simp only [mpSmall, MpPool.mapChain, hf.serve, Option.map_map]
  rfl

theorem recordLarge_mapChain (hf : ChainMap K K' f)
    {alloc : MpPool σ → Log → Nat → Option (Ret σ)} {alloc' : MpPool τ → Log → Nat → Option (Ret τ)}
    {pool : MpPool σ} {log : Log} (p : Nat)
    (halloc : alloc' (pool.mapChain f) log sizeofLarge =
      (alloc pool log sizeofLarge).map (Ret.mapChain f)) :
    recordLarge K' alloc' (pool.mapChain f) log p =
      (recordLarge K alloc pool log p).map (Ret.mapChain f) := by
  simp only [recordLarge, halloc, Option.map_map]
  refine congrArg (fun g => (alloc pool log sizeofLarge).map g) (funext fun r => ?_)
  cases hptr : r.ptr with
  | none => simp [Ret.mapChain, hptr]
  | some e => simp [Ret.mapChain, MpPool.mapChain, hptr, hf.write]

theorem mpAllocLarge_mapChain (hf : ChainMap K K' f)
    {alloc : MpPool σ → Log → Nat → Option (Ret σ)} {alloc' : MpPool τ → Log → Nat → Option (Ret τ)}
    {pool : MpPool σ} (log : Log) (size : Nat)
    (halloc : ∀ log, alloc' (pool.mapChain f) log sizeofLarge =
      (alloc pool log sizeofLarge).map (Ret.mapChain f)) :
    mpAllocLarge K' A alloc' (pool.mapChain f) log size =
      (mpAllocLarge K A alloc pool log size).map (Ret.mapChain f) := by
  simp only [mpAllocLarge, Allocator.request]
  cases A.answer log (.malloc size) with
  | none => rfl
  | some p =>
      have hlarge : (pool.mapChain f).large = pool.large := rfl
      simp only [hlarge]
      cases reuseEntry p 0 pool.large with
      | none => exact recordLarge_mapChain hf p (halloc _)
      | some e => simp [Ret.mapChain, MpPool.mapChain, hf.write]

theorem mpAlloc_mapChain (hf : ChainMap K K' f) (pool : MpPool σ) (frames : Nat) :
    ∀ (log : Log) (size : Nat), mpAlloc K' A frames (pool.mapChain f) log size =
      (mpAlloc K A frames pool log size).map (Ret.mapChain f) := by
  induction frames with
  | zero =>
      intro log size
      rfl
  | succ frames ih =>
      intro log size
      have hmax : (pool.mapChain f).max = pool.max := rfl
      simp only [mpAlloc, hmax]
      split
      · exact mpSmall_mapChain hf true pool log size
      · exact mpAllocLarge_mapChain hf log size fun log' => ih log' sizeofLarge

/-- An operation on the one chain is the operation on the other. -/
theorem step_mapChain (hf : ChainMap K K' f) (frames : Nat) (s : State σ) (a : Act) :
    step K' A frames (s.mapChain f) a = (step K A frames s a).map (State.mapChain f) := by
  have halloc := mpAlloc_mapChain (A := A) hf s.pool frames
  have hlarge : (s.pool.mapChain f).large = s.pool.large := rfl
  have hmax : (s.pool.mapChain f).max = s.pool.max := rfl
  cases a with
  | alloc size =>
      simp only [step, State.mapChain, halloc, Option.map_map]
      rfl
  | nalloc size =>
      simp only [step, State.mapChain, mpNalloc, hmax]
      split
      · rw [mpSmall_mapChain hf, Option.map_map, Option.map_map]
        rfl
      · rw [mpAllocLarge_mapChain hf s.log size fun log' => halloc log' sizeofLarge,
          Option.map_map, Option.map_map]
        rfl
  | calloc size =>
      simp only [step, State.mapChain, mpCalloc, halloc, hmax, Option.map_map]
      refine congrArg (fun g => (mpAlloc K A frames s.pool s.log size).map g) (funext fun r => ?_)
      cases hptr : r.ptr with
      | none => simp [Ret.mapChain, Ret.state, State.mapChain, hptr]
      | some p =>
          simp only [Function.comp_apply, Ret.mapChain, hptr]
          split
          · simp [Ret.state, State.mapChain, MpPool.mapChain, hf.write]
          · rfl
  | memalign size alignment =>
      simp only [step, State.mapChain, mpMemalign, Allocator.request]
      cases A.answer s.log (.posixMemalign alignment size) with
      | none => rfl
      | some p =>
          simp only
          rw [recordLarge_mapChain hf p (halloc _ sizeofLarge), Option.map_map, Option.map_map]
          rfl
  | free p =>
      simp only [step, State.mapChain, mpFree, hlarge, Option.map_some]
      cases freeEntry p s.pool.large with
      | none => rfl
      | some e => simp [MpPool.mapChain, hf.write]
  | reset =>
      simp only [step, State.mapChain, mpResetPool, MpPool.mapChain, hf.reset, Option.map_map]
      rfl

theorem run_mapChain (hf : ChainMap K K' f) (frames : Nat) (acts : List Act) :
    ∀ s : State σ, run (step K' A frames) (s.mapChain f) acts =
      (run (step K A frames) s acts).map (State.mapChain f) := by
  induction acts with
  | nil =>
      intro s
      rfl
  | cons a acts ih =>
      intro s
      simp only [run, step_mapChain hf]
      cases step K A frames s a with
      | none => rfl
      | some t => exact ih t

end Views

/-! ## Ranges with their nodes -/

/-- A range handed out for a small request, with the position of its node in the chain. -/
structure Piece where
  node : Nat
  start : Nat
  size : Nat
  aligned : Bool

/-- The bytes of a piece. -/
def Piece.block (x : Piece) : Block := ⟨x.start, x.size⟩

/-- The piece as the pool records it. -/
def Piece.range (x : Piece) : Range := ⟨x.start, x.size⟩

/-- The first node that passes the test of a small request, or the number of nodes. -/
def firstFit (aligned : Bool) (size : Nat) (nodes : List MpNode) : Nat :=
  nodes.findIdx fun p => sizeT (p.end_ - place aligned p) ≥ size

/-- The position of the node that serves a small request. When none from `current` on passes the test,
this is the position of the node that `mp_alloc_block` adds. -/
def servingNode (aligned : Bool) (size : Nat) (c : MpChain) : Nat :=
  c.current + firstFit aligned size (c.nodes.drop c.current)

/-- A chain with the pieces taken from it since the last reset. -/
structure Traced (σ : Type) where
  chain : σ
  pieces : List Piece

/-- The pieces after a small request that returned `ptr`. -/
def notePiece (aligned : Bool) (size : Nat) (c : MpChain) (ptr : Option Nat) (pieces : List Piece) :
    List Piece :=
  ptr.toList.map (fun start => ⟨servingNode aligned size c, start, size, aligned⟩) ++ pieces

/-- A chain that notes the pieces, where `view` gives its nodes as a list. -/
def tracedOps {σ : Type} (K : ChainOps σ) (view : σ → MpChain) : ChainOps (Traced σ) where
  create base size := ⟨K.create base size, []⟩
  serve A aligned size t log :=
    (K.serve A aligned size t.chain log).map fun (ptr, chain, log') =>
      (ptr, ⟨chain, notePiece aligned size (view t.chain) ptr t.pieces⟩, log')
  reset t := (K.reset t.chain).map fun chain => ⟨chain, []⟩
  blocks t := K.blocks t.chain
  write t start size := { t with chain := K.write t.chain start size }

/-- The notes do not change what the chain does. -/
theorem chainMap_traced {σ : Type} (K : ChainOps σ) (view : σ → MpChain) :
    ChainMap (tracedOps K view) K Traced.chain := by
  refine ⟨fun A aligned size t log => ?_, fun t => ?_, fun t start size => rfl⟩
  · simp only [tracedOps, Option.map_map]
    cases K.serve A aligned size t.chain log with
    | none => rfl
    | some r => rfl
  · simp only [tracedOps, Option.map_map]
    cases K.reset t.chain with
    | none => rfl
    | some c => rfl

/-- What a small request leaves on a chain with notes. -/
theorem traced_serve {σ : Type} {K : ChainOps σ} {view : σ → MpChain} {A : Allocator} {aligned : Bool}
    {size : Nat} {t t' : Traced σ} {log log' : Log} {ptr : Option Nat}
    (h : (tracedOps K view).serve A aligned size t log = some (ptr, t', log')) :
    K.serve A aligned size t.chain log = some (ptr, t'.chain, log') ∧
      t'.pieces = notePiece aligned size (view t.chain) ptr t.pieces := by
  simp only [tracedOps] at h
  obtain ⟨⟨ptr', c', log₁⟩, hserve, heq⟩ := Option.map_eq_some_iff.1 h
  cases heq
  exact ⟨hserve, rfl⟩

/-- And what a reset leaves. -/
theorem traced_reset {σ : Type} {K : ChainOps σ} {view : σ → MpChain} {t t' : Traced σ}
    (h : (tracedOps K view).reset t = some t') : K.reset t.chain = some t'.chain ∧ t'.pieces = [] := by
  simp only [tracedOps] at h
  obtain ⟨c', hreset, rfl⟩ := Option.map_eq_some_iff.1 h
  exact ⟨hreset, rfl⟩

/-- The bytes of the pieces taken from the node at a position. -/
def rangesOf (node : Nat) (pieces : List Piece) : List Block :=
  (pieces.filter fun x => x.node = node).map Piece.block

theorem rangesOf_cons_self (x : Piece) (pieces : List Piece) :
    rangesOf x.node (x :: pieces) = x.block :: rangesOf x.node pieces := by
  simp [rangesOf]

theorem rangesOf_cons_of_ne {node : Nat} {x : Piece} (h : x.node ≠ node) (pieces : List Piece) :
    rangesOf node (x :: pieces) = rangesOf node pieces := by
  simp [rangesOf, h]

theorem mem_rangesOf {x : Piece} {pieces : List Piece} (h : x ∈ pieces) :
    x.block ∈ rangesOf x.node pieces :=
  List.mem_map.2 ⟨x, List.mem_filter.2 ⟨h, by simp⟩, rfl⟩

/-- No piece is taken from a node that is not there yet. -/
theorem rangesOf_eq_nil {pieces : List Piece} {n : Nat} (h : ∀ x ∈ pieces, x.node < n) :
    rangesOf n pieces = [] := by
  have hnone : ∀ x ∈ pieces, ¬ decide (x.node = n) = true := by
    intro x hx
    have hlt := h x hx
    simp only [decide_eq_true_eq]
    omega
  rw [rangesOf, List.filter_eq_nil_iff.2 hnone, List.map_nil]

/-! ## The node that serves -/

/-- The walk finds the first node with room and moves its `last`. -/
theorem serveFrom_eq_set {aligned : Bool} {size : Nat} :
    ∀ {nodes nodes' : List MpNode} {m : Nat}, serveFrom aligned size nodes = some (m, nodes') →
      ∃ p, nodes[firstFit aligned size nodes]? = some p ∧ m = place aligned p ∧
        nodes' = nodes.set (firstFit aligned size nodes) { p with last := m + size } := by
  intro nodes
  induction nodes with
  | nil =>
      intro nodes' m h
      cases h
  | cons p rest ih =>
      intro nodes' m h
      simp only [serveFrom] at h
      split at h
      · next htest =>
          cases h
          have hfirst : firstFit aligned size (p :: rest) = 0 := by
            simp [firstFit, List.findIdx_cons, htest]
          exact ⟨p, by simp [hfirst], rfl, by simp [hfirst]⟩
      · next htest =>
          obtain ⟨⟨m', rest'⟩, hrest, heq⟩ := Option.map_eq_some_iff.1 h
          cases heq
          obtain ⟨q, hq, hm, hset⟩ := ih hrest
          have hnext : firstFit aligned size (p :: rest) = firstFit aligned size rest + 1 := by
            simp [firstFit, List.findIdx_cons, htest]
          exact ⟨q, by simpa [hnext] using hq, hm, by simp [hnext, hset]⟩

/-- A walk that finds no room has passed every node. -/
theorem firstFit_of_serveFrom {aligned : Bool} {size : Nat} : ∀ {nodes : List MpNode},
    serveFrom aligned size nodes = none → firstFit aligned size nodes = nodes.length := by
  intro nodes
  induction nodes with
  | nil =>
      intro _
      rfl
  | cons p rest ih =>
      intro h
      simp only [serveFrom] at h
      split at h
      · cases h
      · next htest =>
          have hnext : firstFit aligned size (p :: rest) = firstFit aligned size rest + 1 := by
            simp [firstFit, List.findIdx_cons, htest]
          rw [hnext, ih (Option.map_eq_none_iff.1 h), List.length_cons]

/-- The node served is a node of the whole chain. -/
theorem served_node {aligned : Bool} {size m : Nat} {c : MpChain} {rest : List MpNode}
    (h : serveFrom aligned size (c.nodes.drop c.current) = some (m, rest)) :
    ∃ p, c.nodes[servingNode aligned size c]? = some p ∧ m = place aligned p ∧
      c.nodes.take c.current ++ rest =
        c.nodes.set (servingNode aligned size c) { p with last := m + size } := by
  obtain ⟨p, hp, hm, rfl⟩ := serveFrom_eq_set h
  rw [List.getElem?_drop] at hp
  refine ⟨p, hp, hm, ?_⟩
  have hlength : (c.nodes.take c.current).length = c.current := by
    obtain ⟨hlt, -⟩ := List.getElem?_eq_some_iff.1 hp
    rw [List.length_take]
    omega
  conv_rhs => rw [← List.take_append_drop c.current c.nodes]
  rw [List.set_append_right _ _ (by rw [hlength, servingNode]; omega), hlength, servingNode,
    Nat.add_sub_cancel_left]

/-- `current` only moves to nodes that are passed over or come behind them. -/
theorem passOver_current_lt : ∀ (nodes : List MpNode) (position current : Nat),
    current < position + nodes.length → (passOver nodes position current).2 < position + nodes.length
  | [], _, _, h => h
  | [_], _, _, h => h
  | p :: q :: rest, position, current, h => by
      have hmoved : (if p.failed > 4 then position + 1 else current) <
          position + 1 + (q :: rest).length := by
        simp only [List.length_cons] at h ⊢
        split
        · omega
        · omega
      have hrest := passOver_current_lt (q :: rest) (position + 1) _ hmoved
      simp only [passOver, List.length_cons] at hrest ⊢
      omega

theorem length_addNode (c : MpChain) (p : MpNode) :
    (addNode c p).nodes.length = c.nodes.length + 1 := by
  have hmap := map_addNode (f := MpNode.addr) (fun _ _ => rfl) c p
  simpa using congrArg List.length hmap

theorem addNode_current_lt {c : MpChain} (h : c.current < c.nodes.length) (p : MpNode) :
    (addNode c p).current < (addNode c p).nodes.length := by
  have hdrop : c.current + (c.nodes.drop c.current).length = c.nodes.length := by
    rw [List.length_drop]
    omega
  have hlt := passOver_current_lt (c.nodes.drop c.current) c.current c.current (by omega)
  rw [hdrop] at hlt
  rw [length_addNode]
  exact hlt.trans (Nat.lt_succ_self _)

/-- A node of the longer chain is an old one, with its address and `last`, or the new one. -/
theorem node_addNode {c : MpChain} {p q : MpNode} {i : Nat} (hq : (addNode c p).nodes[i]? = some q) :
    (∃ old, c.nodes[i]? = some old ∧ old.addr = q.addr ∧ old.last = q.last) ∨
      i = c.nodes.length ∧ q.addr = p.addr ∧ q.last = p.last := by
  have hmap := map_addNode (f := fun x => (x.addr, x.last)) (fun _ _ => rfl) c p
  have hget := congrArg (fun l => l[i]?) hmap
  simp only [List.getElem?_map, hq, Option.map_some] at hget
  rcases Nat.lt_or_ge i c.nodes.length with hlt | hge
  · rw [List.getElem?_append_left (by simpa using hlt), List.getElem?_map] at hget
    obtain ⟨old, hold, heq⟩ := Option.map_eq_some_iff.1 hget.symm
    obtain ⟨haddr, hlast⟩ := Prod.mk.inj heq
    exact .inl ⟨old, hold, haddr, hlast⟩
  · obtain ⟨hi, -⟩ := List.getElem?_eq_some_iff.1 hq
    rw [length_addNode] at hi
    obtain rfl : i = c.nodes.length := by omega
    rw [List.getElem?_append_right (by simp)] at hget
    simp only [List.length_map, Nat.sub_self, List.getElem?_cons_zero, Option.some.injEq,
      Prod.mk.injEq] at hget
    exact .inr ⟨rfl, hget⟩

/-- The head stays where it is. -/
theorem head_addNode {c : MpChain} (h : c.current < c.nodes.length) (p : MpNode) :
    (addNode c p).nodes.head?.map MpNode.addr = c.nodes.head?.map MpNode.addr := by
  have hmap := map_addNode (f := MpNode.addr) (fun _ _ => rfl) c p
  rw [← List.head?_map, hmap, ← List.head?_map]
  cases hnodes : c.nodes with
  | nil =>
      rw [hnodes] at h
      cases h
  | cons g tail => rfl

/-! ## The invariant -/

/-- Node by node the pieces are packed between the end of the header and `last`. -/
structure PiecesOk (base : Nat) (c : MpChain) (pieces : List Piece) : Prop where
  current : c.current < c.nodes.length
  head : c.nodes.head?.map MpNode.addr = some (base + sizeofPool)
  packed : ∀ i p, c.nodes[i]? = some p →
    Packed (p.addr + sizeofNode) p.last (rangesOf i pieces)
  onChain : ∀ x ∈ pieces, x.node < c.nodes.length
  aligned : ∀ x ∈ pieces, x.aligned = true → mpAlignment ∣ x.start

theorem piecesOk_create (base size : Nat) : PiecesOk base ⟨[headNode base size], 0⟩ [] := by
  refine ⟨Nat.zero_lt_one, rfl, fun i p hp => ?_, fun x hx => ?_, fun x hx => ?_⟩
  · have hmem := List.mem_of_getElem? hp
    rw [List.mem_singleton] at hmem
    subst hmem
    exact packed_nil le_rfl
  · cases hx
  · cases hx

/-- A reset moves every `last` back behind the header, and nothing is handed out any more. -/
theorem piecesOk_reset {base : Nat} {c c' : MpChain} {pieces : List Piece}
    (h : PiecesOk base c pieces) (hreset : listOps.reset c = some c') : PiecesOk base c' [] := by
  cases hreset
  refine ⟨?_, ?_, fun i p hp => ?_, fun x hx => ?_, fun x hx => ?_⟩
  · rw [List.length_map]
    exact h.current
  · rw [List.head?_map, Option.map_map]
    exact h.head
  · obtain ⟨q, -, rfl⟩ := List.mem_map.1 (List.mem_of_getElem? hp)
    exact packed_nil le_rfl
  · cases hx
  · cases hx

/-- A request served by a node of the chain. -/
theorem piecesOk_node {base size m : Nat} {aligned : Bool} {c : MpChain} {pieces : List Piece}
    {rest : List MpNode} (h : PiecesOk base c pieces)
    (hserve : serveFrom aligned size (c.nodes.drop c.current) = some (m, rest)) :
    PiecesOk base { c with nodes := c.nodes.take c.current ++ rest }
      (⟨servingNode aligned size c, m, size, aligned⟩ :: pieces) := by
  obtain ⟨p, hp, rfl, hset⟩ := served_node hserve
  obtain ⟨hplace, hdvd⟩ := place_le aligned p
  obtain ⟨hlt, hget⟩ := List.getElem?_eq_some_iff.1 hp
  rw [hset]
  refine ⟨?_, ?_, fun i q hq => ?_, fun x hx => ?_, fun x hx => ?_⟩
  · rw [List.length_set]
    exact h.current
  · -- the head keeps its address, also when it is the node that serves
    have hhead := h.head
    rw [List.head?_eq_getElem?] at hhead ⊢
    rw [List.getElem?_set]
    split
    · next hzero =>
        rw [← hzero, hp] at hhead
        exact hhead
    · exact hhead
  · rw [List.getElem?_set] at hq
    split at hq
    · -- the piece starts at or behind the old `last` of its node and ends at the new one
      next hi =>
        subst hi
        rw [Option.some.injEq] at hq
        subst hq
        rw [rangesOf_cons_self ⟨servingNode aligned size c, place aligned p, size, aligned⟩]
        exact (h.packed _ p hp).cut hplace size
    · next hi =>
        rw [rangesOf_cons_of_ne hi]
        exact h.packed i q hq
  · rw [List.length_set]
    rcases List.mem_cons.1 hx with rfl | hx
    · exact hlt
    · exact h.onChain x hx
  · rcases List.mem_cons.1 hx with rfl | hx
    · exact hdvd
    · exact h.aligned x hx

/-- A request served by a new node, whose first bytes are handed out at once. -/
theorem piecesOk_block {base size m psize : Nat} {aligned : Bool} {c : MpChain}
    {pieces : List Piece} (h : PiecesOk base c pieces)
    (hserve : serveFrom aligned size (c.nodes.drop c.current) = none) :
    PiecesOk base (addNode c (newNode m psize size))
      (⟨servingNode aligned size c, mpAlignPtr (m + sizeofNode) mpAlignment, size, aligned⟩ ::
        pieces) := by
  obtain ⟨hround, -, hdvd⟩ := mpAlignPtr_spec (m + sizeofNode)
  have hcurrent := h.current
  -- no node passed the test, so the piece is noted for the position behind the last one
  have hnode : servingNode aligned size c = c.nodes.length := by
    rw [servingNode, firstFit_of_serveFrom hserve, List.length_drop]
    omega
  rw [hnode]
  refine ⟨addNode_current_lt hcurrent _, ?_, fun i q hq => ?_, fun x hx => ?_, fun x hx => ?_⟩
  · rw [head_addNode hcurrent]
    exact h.head
  · rcases node_addNode hq with ⟨old, hold, haddr, hlast⟩ | ⟨rfl, haddr, hlast⟩
    · -- a node that was there keeps its `last`, and its ranges
      obtain ⟨hi, -⟩ := List.getElem?_eq_some_iff.1 hold
      rw [rangesOf_cons_of_ne (show c.nodes.length ≠ i by omega), ← haddr, ← hlast]
      exact h.packed i old hold
    · -- the new node has this piece alone
      rw [rangesOf_cons_self ⟨c.nodes.length, mpAlignPtr (m + sizeofNode) mpAlignment, size, aligned⟩,
        rangesOf_eq_nil h.onChain, haddr, hlast]
      exact (packed_nil le_rfl).cut hround size
  · rw [length_addNode]
    rcases List.mem_cons.1 hx with rfl | hx
    · exact Nat.lt_succ_self _
    · exact (h.onChain x hx).trans (Nat.lt_succ_self _)
  · rcases List.mem_cons.1 hx with rfl | hx
    · exact fun _ => hdvd
    · exact h.aligned x hx

theorem piecesOk_serve {A : Allocator} {base size : Nat} {aligned : Bool} {c c' : MpChain}
    {log log' : Log} {ptr : Option Nat} {pieces : List Piece} (h : PiecesOk base c pieces)
    (hserve : serve A aligned size c log = (ptr, c', log')) :
    PiecesOk base c' (notePiece aligned size c ptr pieces) := by
  have hcases := served_serve A aligned size c log
  rw [hserve] at hcases
  cases hcases with
  | node m rest hrest => exact piecesOk_node h hrest
  | noChain _ => exact h
  | refused g tail _ _ _ => exact h
  | block g tail m _ hrest _ => exact piecesOk_block h hrest

/-! ## Ranges over runs -/

/-- Every range handed out since the last reset has a note. Those of one node do not overlap each other
or the node's header, those of the head do not overlap the `mp_pool_s`, and those of `mp_alloc` are
aligned. -/
structure SmallApart {σ : Type} (view : σ → MpChain) (s : State (Traced σ)) : Prop where
  noted : s.pool.served = s.pool.chain.pieces.map Piece.range
  apart : ∀ node, (rangesOf node s.pool.chain.pieces).Pairwise Apart
  header : ∀ x ∈ s.pool.chain.pieces, ∃ p, (view s.pool.chain.chain).nodes[x.node]? = some p ∧
    Apart ⟨p.addr, sizeofNode⟩ x.block
  pool : ∀ x ∈ s.pool.chain.pieces, x.node = 0 → Apart ⟨s.pool.base, sizeofPool⟩ x.block
  aligned : ∀ x ∈ s.pool.chain.pieces, x.aligned = true → mpAlignment ∣ x.start

/-- The notes of a state inside an operation are complete and in order. -/
structure NotesOk {σ : Type} (view : σ → MpChain) (m : Mid (Traced σ)) : Prop where
  noted : m.pool.served = m.pool.chain.pieces.map Piece.range
  pieces : PiecesOk m.pool.base (view m.pool.chain.chain) m.pool.chain.pieces

section Notes

variable {σ : Type} {view : σ → MpChain}

theorem smallApart_of_notesOk {s : State (Traced σ)} (h : NotesOk view ⟨[], s.pool, s.log⟩) :
    SmallApart view s := by
  obtain ⟨hnoted, hpieces⟩ := h
  -- the node of a piece, with the piece among its ranges
  have hnode : ∀ x ∈ s.pool.chain.pieces, ∃ p,
      (view s.pool.chain.chain).nodes[x.node]? = some p ∧
        Packed (p.addr + sizeofNode) p.last (rangesOf x.node s.pool.chain.pieces) := by
    intro x hx
    have hget := List.getElem?_eq_getElem (hpieces.onChain x hx)
    exact ⟨_, hget, hpieces.packed x.node _ hget⟩
  refine ⟨hnoted, fun node => ?_, fun x hx => ?_, fun x hx hzero => ?_, hpieces.aligned⟩
  · rcases Nat.lt_or_ge node (view s.pool.chain.chain).nodes.length with hlt | hge
    · exact (hpieces.packed node _ (List.getElem?_eq_getElem hlt)).apart
    · rw [rangesOf_eq_nil fun x hx => (hpieces.onChain x hx).trans_le hge]
      exact .nil
  · obtain ⟨p, hp, hpacked⟩ := hnode x hx
    exact ⟨p, hp, hpacked.apart_front (mem_rangesOf hx) le_rfl⟩
  · obtain ⟨p, hp, hpacked⟩ := hnode x hx
    -- the head node comes right behind the `mp_pool_s`
    have haddr : p.addr = s.pool.base + sizeofPool := by
      have hhead := hpieces.head
      rw [List.head?_eq_getElem?, ← hzero, hp] at hhead
      exact Option.some.inj hhead
    refine hpacked.apart_front (mem_rangesOf hx) ?_
    rw [haddr]
    exact Nat.le_add_right _ _

/-- A small request adds its range to the record and to the notes. -/
theorem map_range_notePiece (aligned : Bool) (size : Nat) (c : MpChain) (ptr : Option Nat)
    (pieces : List Piece) :
    (notePiece aligned size c ptr pieces).map Piece.range =
      ptr.toList.map (fun start => ⟨start, size⟩) ++ pieces.map Piece.range := by
  simp only [notePiece, List.map_append, List.map_map]
  rfl

end Notes

theorem notesOk_move {A : Allocator} {ok : Traced MpChain → Bool → Nat → Prop}
    (m m' : Mid (Traced MpChain)) (h : NotesOk id m)
    (hmove : Move (tracedOps listOps id) A ok m m') : NotesOk id m' := by
  cases hmove with
  | @small side pool log log' chain ptr aligned size _ _ hserve =>
      obtain ⟨hlist, hpieces⟩ := traced_serve hserve
      refine ⟨?_, ?_⟩
      · simp only [hpieces, map_range_notePiece, ← h.noted]
      · simp only [hpieces]
        exact piecesOk_serve h.pieces (Option.some.inj hlist)
  | obtain_ _ _ => exact ⟨h.noted, h.pieces⟩
  | refuse => exact ⟨h.noted, h.pieces⟩
  | giveBack => exact ⟨h.noted, h.pieces⟩
  | reuse _ => exact ⟨h.noted, h.pieces⟩
  | record _ _ => exact ⟨h.noted, h.pieces⟩
  | clear _ => exact ⟨h.noted, h.pieces⟩
  | free _ => exact ⟨h.noted, h.pieces⟩
  | @reset side pool log chain hreset =>
      obtain ⟨hlist, hpieces⟩ := traced_reset hreset
      refine ⟨?_, ?_⟩
      · simp only [hpieces, List.map_nil]
      · simp only [hpieces]
        exact piecesOk_reset h.pieces hlist

theorem notesOk_create {A : Allocator} {size : Nat} {s : State (Traced MpChain)}
    (h : mpCreatePool (tracedOps listOps id) A [] size = some s) :
    NotesOk id ⟨[], s.pool, s.log⟩ := by
  obtain ⟨p, -, rfl⟩ := mpCreatePool_cases h
  exact ⟨rfl, piecesOk_create p size⟩

/-- **Ranges of one node do not overlap.** Take a pool of any size and any allocator. In every state of
every run, the ranges handed out for small requests since the last reset, those for entries included, do
not overlap when they were taken from the same node, and overlap neither that node's header nor, in the
head node, the `mp_pool_s`; the ranges of `mp_alloc` are aligned. The run that notes the nodes is the run
of the pool. -/
theorem small_ranges_apart (A : Allocator) {size frames : Nat} {s : State (Traced MpChain)}
    (hcreate : mpCreatePool (tracedOps listOps id) A [] size = some s) (acts : List Act) :
    EveryState (step (tracedOps listOps id) A frames) (SmallApart id) s acts ∧
      mpCreatePool listOps A [] size = some (s.mapChain Traced.chain) ∧
      run (step listOps A frames) (s.mapChain Traced.chain) acts =
        (run (step (tracedOps listOps id) A frames) s acts).map (State.mapChain Traced.chain) := by
  refine ⟨?_, ?_, run_mapChain (chainMap_traced listOps id) frames acts s⟩
  · have hkeep : ∀ (t : State (Traced MpChain)) (a : Act) (u : State (Traced MpChain)),
        NotesOk id ⟨[], t.pool, t.log⟩ → step (tracedOps listOps id) A frames t a = some u →
          NotesOk id ⟨[], u.pool, u.log⟩ := by
      intro t a u ht hstep
      have hany : Asked (fun _ _ _ => True) t.pool.chain (asks A t a) := fun _ _ _ => trivial
      exact (path_of_step hstep hany).2.invariant notesOk_move ht
    exact everyState_of_step hkeep (fun _ => smallApart_of_notesOk) acts s (notesOk_create hcreate)
  · obtain ⟨p, hanswer, rfl⟩ := mpCreatePool_cases hcreate
    simp only [mpCreatePool, Allocator.request, hanswer]
    rfl

/-- Control: the run `mixedRequests` on a pool of 4096 bytes. After its reset an entry and a request are
served from the head and a request from a second node. -/
theorem small_ranges_apart_mixedRequests :
    ∃ s t, mpCreatePool (tracedOps listOps id) bump.toAllocator [] 4096 = some s ∧
      run (step (tracedOps listOps id) bump.toAllocator 2) s mixedRequests = some t ∧
      t.pool.chain.pieces.map Piece.node = [1, 0, 0] ∧ SmallApart id t := by
  have hend : ((mpCreatePool (tracedOps listOps id) bump.toAllocator [] 4096).bind fun s =>
      run (step (tracedOps listOps id) bump.toAllocator 2) s mixedRequests).map
        (fun t => t.pool.chain.pieces.map Piece.node) = some [1, 0, 0] := by
    decide +kernel
  obtain ⟨t, hbind, hnodes⟩ := Option.map_eq_some_iff.1 hend
  obtain ⟨s, hcreate, hrun⟩ := Option.bind_eq_some_iff.1 hbind
  obtain ⟨hevery, -⟩ := small_ranges_apart bump.toAllocator hcreate mixedRequests
  exact ⟨s, t, hcreate, hrun, hnodes, hevery.last hrun⟩

/-! ## The chain in memory -/

section Memory

variable {σ τ : Type} {K : ChainOps σ} {K' : ChainOps τ} {f : σ → τ} {A : Allocator}

/-- A state inside an operation with its chain replaced. -/
def Mid.mapChain (f : σ → τ) (m : Mid σ) : Mid τ := ⟨m.side, m.pool.mapChain f, m.log⟩

/-- A move on the one chain is a move on the other. -/
theorem move_mapChain (hf : ChainMap K K' f) {ok : τ → Bool → Nat → Prop} {m m' : Mid σ}
    (h : Move K A (fun c => ok (f c)) m m') : Move K' A ok (m.mapChain f) (m'.mapChain f) := by
  cases h with
  | small aligned size hle hok hserve =>
      refine .small aligned size hle hok ?_
      simp only [MpPool.mapChain, hf.serve, hserve, Option.map_some]
  | obtain_ r hanswer => exact .obtain_ r hanswer
  | refuse => exact .refuse
  | giveBack => exact .giveBack
  | reuse hreuse =>
      simp only [Mid.mapChain, MpPool.mapChain, ← hf.write]
      exact .reuse hreuse
  | record hserved hlarge =>
      simp only [Mid.mapChain, MpPool.mapChain, ← hf.write]
      exact .record hserved hlarge
  | clear hserved =>
      simp only [Mid.mapChain, MpPool.mapChain, ← hf.write]
      exact .clear hserved
  | free hfree =>
      simp only [Mid.mapChain, MpPool.mapChain, ← hf.write]
      exact .free hfree
  | reset hreset =>
      refine .reset ?_
      simp only [MpPool.mapChain, hf.reset, hreset, Option.map_some]

/-- What an operation asks of the chain does not depend on the chain. -/
theorem asks_mapChain (s : State σ) (a : Act) : asks A (s.mapChain f) a = asks A s a := by
  cases a with
  | alloc _ => rfl
  | nalloc _ => rfl
  | calloc _ => rfl
  | memalign _ _ => rfl
  | free _ => rfl
  | reset => rfl

end Memory

/-- A write that leaves the chain alone leaves the notes alone. -/
theorem notesOk_write {σ : Type} {K : ChainOps σ} {view : σ → MpChain} {side side' : List Nat}
    {pool : MpPool (Traced σ)} {log log' : Log} {large : List MpLarge} {start n : Nat}
    (h : NotesOk view ⟨side, pool, log⟩) (hwrite : K.write pool.chain.chain start n = pool.chain.chain) :
    NotesOk view ⟨side', { pool with
      chain := (tracedOps K view).write pool.chain start n
      large := large }, log'⟩ := by
  refine ⟨h.noted, ?_⟩
  simp only [tracedOps, hwrite]
  exact h.pieces

/-- The chain in memory is well formed, and its notes are in order. -/
structure PtrNotes (size : Nat) (m : Mid (Traced PtrChain)) : Prop where
  inv : PtrInv size (m.mapChain Traced.chain)
  notes : NotesOk chainOf m

section PtrRuns

variable {junk : Nat → NodeCell} {spill : PtrChain → Nat → Nat → PtrChain} {A : AlignedAllocator}
  {size : Nat}

theorem ptrNotes_move (hsize : size + sizeofNode < 2 ^ 64) (m m' : Mid (Traced PtrChain))
    (h : PtrNotes size m)
    (hmove : Move (tracedOps (ptrOps junk spill) chainOf) A.toAllocator (fun t => PtrFits t.chain)
      m m') : PtrNotes size m' := by
  have hinv := h.inv
  have hplain := move_mapChain (chainMap_traced (ptrOps junk spill) chainOf) hmove
  refine ⟨ptrInv_move junk spill hsize _ _ hinv hplain, ?_⟩
  cases hmove with
  | @small side pool log log' chain ptr aligned n _ _ hserve =>
      obtain ⟨hserve, hpieces⟩ := traced_serve hserve
      obtain ⟨ptr', c', log₁, hptr, hlist, -, -⟩ :=
        ptrServe_refines A.toAllocator aligned n hinv.ok (fresh_block hsize hinv)
      have heq : some (ptr, chain.chain, log') = some (ptr', c', log₁) := hserve.symm.trans hptr
      simp only [Option.some.injEq, Prod.mk.injEq] at heq
      obtain ⟨rfl, rfl, rfl⟩ := heq
      refine ⟨?_, ?_⟩
      · simp only [hpieces, map_range_notePiece, ← h.notes.noted]
      · simp only [hpieces]
        exact piecesOk_serve h.notes.pieces hlist
  | obtain_ _ _ => exact ⟨h.notes.noted, h.notes.pieces⟩
  | refuse => exact ⟨h.notes.noted, h.notes.pieces⟩
  | giveBack => exact ⟨h.notes.noted, h.notes.pieces⟩
  | @reuse side pool log p addr large hreuse =>
      obtain ⟨⟨e, he, rfl⟩, -⟩ := reuseEntry_addr hreuse
      exact notesOk_write h.notes (write_entry junk spill hinv he)
  | @record side pool log p e hserved hlarge =>
      by_cases hmax : sizeofLarge ≤ pool.max
      · exact notesOk_write h.notes (write_served junk spill hinv (hserved hmax) le_rfl le_rfl)
      · exact absurd (hinv.noEntries hmax) (hlarge hmax)
  | @clear side pool log p n hserved =>
      exact notesOk_write h.notes (write_served junk spill hinv hserved le_rfl le_rfl)
  | @free side pool log p addr large hfree =>
      obtain ⟨⟨e, he, rfl⟩, -⟩ := freeEntry_addr hfree
      exact notesOk_write h.notes (write_entry junk spill hinv he)
  | @reset side pool log chain hreset =>
      obtain ⟨hptr, hpieces⟩ := traced_reset hreset
      obtain ⟨hlist, -, -⟩ := reset_refines hinv.ok hptr
      refine ⟨?_, ?_⟩
      · simp only [hpieces, List.map_nil]
      · simp only [hpieces]
        exact piecesOk_reset h.notes.pieces hlist

theorem ptrNotes_step {frames : Nat} (hsize : size + sizeofNode < 2 ^ 64)
    (s : State (Traced PtrChain)) (a : Act) (t : State (Traced PtrChain))
    (h : PtrNotes size ⟨[], s.pool, s.log⟩)
    (hfits : PtrWalkFits A.toAllocator (s.mapChain Traced.chain) a)
    (hstep : step (tracedOps (ptrOps junk spill) chainOf) A.toAllocator frames s a = some t) :
    PtrNotes size ⟨[], t.pool, t.log⟩ := by
  rw [PtrWalkFits, asks_mapChain] at hfits
  exact (path_of_step hstep hfits).2.invariant (ptrNotes_move hsize) h

/-- On the chain in memory the same holds for a pool of a size that does not wrap, with a null pointer
at `head->next` after creation, in every state of every run whose small requests fit. -/
theorem ptr_ranges_apart {frames : Nat} {s : State (Traced PtrChain)}
    (hsize : size + sizeofPool + sizeofNode < 2 ^ 64)
    (hcreate : mpCreatePool (tracedOps (ptrOps junk spill) chainOf) A.toAllocator [] size = some s)
    (hnull : (junk (s.pool.base + sizeofPool)).next = none) (acts : List Act)
    (hfits : EveryStep (step (tracedOps (ptrOps junk spill) chainOf) A.toAllocator frames)
      (fun t a => PtrWalkFits A.toAllocator (t.mapChain Traced.chain) a) s acts) :
    EveryState (step (tracedOps (ptrOps junk spill) chainOf) A.toAllocator frames)
      (SmallApart chainOf) s acts := by
  refine everyState_of_everyStep (ptrNotes_step (node_size_lt hsize))
    (fun _ ht => smallApart_of_notesOk ht.notes) acts s ?_ hfits
  obtain ⟨p, hanswer, rfl⟩ := mpCreatePool_cases hcreate
  refine ⟨?_, rfl, ?_⟩
  · have hplain : mpCreatePool (ptrOps junk spill) A.toAllocator [] size = some
        ⟨⟨p, if size < mpMaxAllocFromPool then size else mpMaxAllocFromPool,
          ptrCreate junk p size, [], []⟩, [.obtained p (sizeT (size + sizeofPool + sizeofNode))]⟩ := by
      simp only [mpCreatePool, Allocator.request, hanswer]
      rfl
    exact ptrInv_create hsize hplain hnull
  · show PiecesOk p (chainOf (ptrCreate junk p size)) []
    rw [chainOf_ptrCreate]
    exact piecesOk_create p size

end PtrRuns

end CppMisc.MmPool
