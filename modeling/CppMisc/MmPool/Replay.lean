import CppMisc.MmPool.Failures
import CppMisc.MmPool.Retirement

/-!
# Replaying requests after a reset of `mempool/mmpool.c`

`mp_reset_pool` moves every `last` back, but it leaves `current` where the first run had moved it, so the
nodes before `current` are not given back. The module asks when the small requests of a first run fit
into its nodes a second time.

A walk places each request in the first node with room for it. Where `current` is still the head, the
replay goes through the same nodes as the first run, one request after the other, with those nodes still
empty that the first run was yet to add. Otherwise seven nodes are left, all empty and with the same
room, and the replay needs no further node exactly when the requests go into seven such nodes, wherever
these lie in memory (`firstFits`).
-/

set_option autoImplicit false

namespace CppMisc.MmPool

open CppMisc.Library

/-- A small request, by `mp_alloc` if it is aligned and by `mp_nalloc` otherwise. -/
structure SmallRequest where
  aligned : Bool
  size : Nat

/-- The operation of a small request. -/
def SmallRequest.act (q : SmallRequest) : Act := if q.aligned then .alloc q.size else .nalloc q.size

/-- The request of an operation returns memory. -/
def Granted (A : Allocator) (frames : Nat) (s : State MpChain) (a : Act) : Prop :=
  (request listOps A frames s a).map Ret.ptr ≠ some none

instance (A : Allocator) (frames : Nat) (s : State MpChain) (a : Act) :
    Decidable (Granted A frames s a) :=
  inferInstanceAs (Decidable (_ ≠ _))

/-- Whether the requests fit when each goes to the first node with room for it. -/
def firstFits : List SmallRequest → List MpNode → Bool
  | [], _ => true
  | q :: h, nodes =>
      match serveFrom q.aligned q.size nodes with
      | none => false
      | some (_, nodes') => firstFits h nodes'

/-- An empty node as `mp_alloc_block` makes it in a pool of `size` bytes, seen from its own address. -/
def emptyNode (size : Nat) : MpNode := ⟨0, sizeofNode, sizeT (sizeofNode + size), 0⟩

/-! ## First fit -/

theorem serveFrom_append (aligned : Bool) (size : Nat) (xs ys : List MpNode) :
    serveFrom aligned size (xs ++ ys) =
      match serveFrom aligned size xs with
      | some (m, xs') => some (m, xs' ++ ys)
      | none => (serveFrom aligned size ys).map fun (m, ys') => (m, xs ++ ys') := by
  induction xs with
  | nil => simp [serveFrom]
  | cons p rest ih =>
      simp only [List.cons_append, serveFrom]
      split
      · rfl
      · rw [ih]
        cases serveFrom aligned size rest with
        | some r => rfl
        | none => simp [Option.map_map, Function.comp_def]

/-- A node without its count. -/
def MpNode.bare (p : MpNode) : MpNode := { p with failed := 0 }

/-- A walk does not look at the counts. -/
theorem serveFrom_bare (aligned : Bool) (size : Nat) (nodes : List MpNode) :
    serveFrom aligned size (nodes.map MpNode.bare) =
      (serveFrom aligned size nodes).map fun (m, nodes') => (m, nodes'.map MpNode.bare) := by
  induction nodes with
  | nil => rfl
  | cons p rest ih =>
      have hplace : place aligned p.bare = place aligned p := rfl
      have hend : p.bare.end_ = p.end_ := rfl
      simp only [List.map_cons, serveFrom, hplace, hend]
      split
      · rfl
      · rw [ih]
        cases serveFrom aligned size rest with
        | some r => rfl
        | none => rfl

theorem firstFits_bare (h : List SmallRequest) : ∀ nodes : List MpNode,
    firstFits h (nodes.map MpNode.bare) = firstFits h nodes := by
  induction h with
  | nil =>
      intro nodes
      rfl
  | cons q h ih =>
      intro nodes
      simp only [firstFits, serveFrom_bare]
      cases serveFrom q.aligned q.size nodes with
      | none => rfl
      | some r => exact ih r.2

/-- The same node at an address further on, by a multiple of the alignment. -/
def Shifted (p q : MpNode) : Prop :=
  ∃ k, q.last = p.last + mpAlignment * k ∧ q.end_ = p.end_ + mpAlignment * k

theorem Shifted.place {p q : MpNode} (h : Shifted p q) (aligned : Bool) :
    ∃ k, place aligned q = place aligned p + mpAlignment * k ∧ q.end_ = p.end_ + mpAlignment * k := by
  obtain ⟨k, hlast, hend⟩ := h
  refine ⟨k, ?_, hend⟩
  cases aligned with
  | false => exact hlast
  | true =>
      simp only [MmPool.place, if_true, mpAlignPtr, mpAlignment] at hlast ⊢
      omega

/-- A walk serves the same node wherever the nodes lie. -/
theorem serveFrom_shifted (aligned : Bool) (size : Nat) {xs ys : List MpNode}
    (h : List.Forall₂ Shifted xs ys) :
    Option.Rel (fun r r' => List.Forall₂ Shifted r.2 r'.2) (serveFrom aligned size xs)
      (serveFrom aligned size ys) := by
  induction h with
  | nil => exact .none
  | @cons p q xs ys hpq hrest ih =>
      obtain ⟨k, hplace, hend⟩ := hpq.place aligned
      have hroom : (q.end_ : Int) - place aligned q = p.end_ - place aligned p := by
        rw [hplace, hend]
        push_cast
        omega
      simp only [serveFrom, hroom]
      split
      · refine .some (.cons ⟨k, ?_, hend⟩ hrest)
        simp only [hplace]
        omega
      · cases hxs : serveFrom aligned size xs with
        | none =>
            rw [hxs] at ih
            cases hys : serveFrom aligned size ys with
            | none => exact .none
            | some r' =>
                rw [hys] at ih
                cases ih
        | some r =>
            rw [hxs] at ih
            cases hys : serveFrom aligned size ys with
            | none =>
                rw [hys] at ih
                cases ih
            | some r' =>
                rw [hys] at ih
                cases ih with
                | some hrel => exact .some (.cons hpq hrel)

theorem firstFits_shifted (h : List SmallRequest) : ∀ {xs ys : List MpNode},
    List.Forall₂ Shifted xs ys → firstFits h xs = firstFits h ys := by
  induction h with
  | nil =>
      intro xs ys _
      rfl
  | cons q h ih =>
      intro xs ys hxy
      have hrel := serveFrom_shifted q.aligned q.size hxy
      simp only [firstFits]
      cases hxs : serveFrom q.aligned q.size xs with
      | none =>
          rw [hxs] at hrel
          cases hys : serveFrom q.aligned q.size ys with
          | none => rfl
          | some r' =>
              rw [hys] at hrel
              cases hrel
      | some r =>
          rw [hxs] at hrel
          cases hys : serveFrom q.aligned q.size ys with
          | none =>
              rw [hys] at hrel
              cases hrel
          | some r' =>
              rw [hys] at hrel
              cases hrel with
              | some hrest => exact ih hrest

/-! ## The replay on the chain -/

/-- Small requests, one after the other. -/
def serveAll (A : Allocator) : List SmallRequest → MpChain → Log → MpChain × Log
  | [], c, log => (c, log)
  | q :: h, c, log =>
      let r := serve A q.aligned q.size c log
      serveAll A h r.2.1 r.2.2

theorem length_le_serve (A : Allocator) (aligned : Bool) (size : Nat) (c : MpChain) (log : Log) :
    c.nodes.length ≤ (serve A aligned size c log).2.1.nodes.length := by
  have hcases := served_serve A aligned size c log
  generalize serve A aligned size c log = r at hcases
  cases hcases with
  | node m rest hrest =>
      obtain ⟨p, -, -, hset⟩ := served_node hrest
      simp [hset]
  | noChain _ => exact le_rfl
  | refused g tail _ _ _ => exact le_rfl
  | block g tail m _ _ _ =>
      simp only [length_addNode]
      exact Nat.le_succ _

theorem length_le_serveAll (A : Allocator) (h : List SmallRequest) : ∀ (c : MpChain) (log : Log),
    c.nodes.length ≤ (serveAll A h c log).1.nodes.length := by
  induction h with
  | nil =>
      intro c log
      exact le_rfl
  | cons q h ih =>
      intro c log
      exact (length_le_serve A q.aligned q.size c log).trans (ih _ _)

/-- A request that is placed leaves the nodes of the walk as the walk leaves them. -/
theorem serve_of_serveFrom (A : Allocator) (log : Log) {aligned : Bool} {size m : Nat} {c : MpChain}
    {rest : List MpNode} (h : serveFrom aligned size (c.nodes.drop c.current) = some (m, rest)) :
    serve A aligned size c log =
        (some m, { c with nodes := c.nodes.take c.current ++ rest }, log) ∧
      (c.nodes.take c.current ++ rest).drop c.current = rest ∧
      (c.nodes.take c.current ++ rest).length = c.nodes.length := by
  obtain ⟨p, hp, -, hset⟩ := served_node h
  refine ⟨by simp only [serve, h], ?_, by rw [hset, List.length_set]⟩
  obtain ⟨hlt, -⟩ := List.getElem?_eq_some_iff.1 hp
  have hlength : (c.nodes.take c.current).length = c.current := by
    rw [List.length_take]
    simp only [servingNode] at hlt
    omega
  rw [List.drop_append_of_le_length (by omega), List.drop_of_length_le (by omega), List.nil_append]

/-- Requests that fit from `current` on need no further node. -/
theorem length_serveAll_of_fits (A : Allocator) (h : List SmallRequest) : ∀ {c : MpChain} (log : Log),
    firstFits h (c.nodes.drop c.current) = true →
      (serveAll A h c log).1.nodes.length = c.nodes.length := by
  induction h with
  | nil =>
      intro c log _
      rfl
  | cons q h ih =>
      intro c log hfits
      simp only [firstFits] at hfits
      cases hserve : serveFrom q.aligned q.size (c.nodes.drop c.current) with
      | none =>
          rw [hserve] at hfits
          cases hfits
      | some r =>
          obtain ⟨m, rest⟩ := r
          rw [hserve] at hfits
          obtain ⟨heq, hdrop, hlength⟩ := serve_of_serveFrom A log hserve
          simp only [serveAll, heq]
          rw [ih log (by simpa only [hdrop] using hfits)]
          exact hlength

/-- Requests that do not fit need one, and an allocator that grants every block gives it. -/
theorem length_serveAll_of_not_fits (h : List SmallRequest) : ∀ {c : MpChain} (log : Log),
    0 < c.nodes.length → firstFits h (c.nodes.drop c.current) = false →
      c.nodes.length < (serveAll bump.toAllocator h c log).1.nodes.length := by
  induction h with
  | nil =>
      intro c log _ hfits
      cases hfits
  | cons q h ih =>
      intro c log hnonempty hfits
      simp only [firstFits] at hfits
      cases hserve : serveFrom q.aligned q.size (c.nodes.drop c.current) with
      | none =>
          apply lt_of_lt_of_le _ (length_le_serveAll bump.toAllocator h _ _)
          have hcases := served_serve bump.toAllocator q.aligned q.size c log
          generalize serve bump.toAllocator q.aligned q.size c log = r at hcases
          cases hcases with
          | node m rest hrest =>
              rw [hserve] at hrest
              cases hrest
          | noChain hnodes =>
              rw [hnodes] at hnonempty
              cases hnonempty
          | refused g tail _ _ hanswer => cases hanswer
          | block g tail m _ _ _ =>
              simp only [length_addNode]
              exact Nat.lt_succ_self _
      | some r =>
          obtain ⟨m, rest⟩ := r
          rw [hserve] at hfits
          obtain ⟨heq, hdrop, hlength⟩ := serve_of_serveFrom bump.toAllocator log hserve
          simp only [serveAll, heq]
          have hlt := ih (c := { c with nodes := c.nodes.take c.current ++ rest }) log
            (by simpa only [hlength] using hnonempty) (by simpa only [hdrop] using hfits)
          simpa only [hlength] using hlt

/-- A small request on the pool is one on the chain. -/
theorem request_small (A : Allocator) (frames : Nat) {s : State MpChain} {q : SmallRequest}
    (hmax : q.size ≤ s.pool.max) :
    ∃ r, request listOps A (frames + 1) s q.act = some r ∧ r.pool.max = s.pool.max ∧
      (r.ptr, r.pool.chain, r.log) = serve A q.aligned q.size s.pool.chain s.log := by
  have hsmall : request listOps A (frames + 1) s q.act =
      mpSmall listOps A q.aligned s.pool s.log q.size := by
    cases haligned : q.aligned with
    | true => simp [SmallRequest.act, haligned, request, mpAlloc, hmax]
    | false => simp [SmallRequest.act, haligned, request, mpNalloc, hmax]
  exact ⟨_, hsmall.trans rfl, rfl, rfl⟩

/-- Small requests on the pool are small requests on the chain, and each of them returns. -/
theorem run_small (A : Allocator) (frames : Nat) (h : List SmallRequest) : ∀ {s : State MpChain},
    (∀ q ∈ h, q.size ≤ s.pool.max) →
      ∃ t, run (step listOps A (frames + 1)) s (h.map SmallRequest.act) = some t ∧
        (t.pool.chain, t.log) = serveAll A h s.pool.chain s.log := by
  induction h with
  | nil =>
      intro s _
      exact ⟨s, rfl, rfl⟩
  | cons q h ih =>
      intro s hmax
      obtain ⟨r, hrequest, hmaxR, hserve⟩ :=
        request_small A frames (hmax q List.mem_cons_self)
      obtain ⟨t, hrun, hall⟩ := ih (s := r.state) fun q' hq' => by
        show q'.size ≤ r.pool.max
        rw [hmaxR]
        exact hmax q' (List.mem_cons_of_mem q hq')
      refine ⟨t, ?_, ?_⟩
      · rw [List.map_cons, run_cons_eq_some]
        exact ⟨r.state, step_of_request hrequest, hrun⟩
      · simp only [serveAll, ← hserve]
        exact hall

/-! ## The first run -/

/-- Small requests that are all served. -/
inductive Serves (A : Allocator) : List SmallRequest → MpChain → Log → MpChain → Prop
  | nil (c : MpChain) (log : Log) : Serves A [] c log c
  | cons {q : SmallRequest} {h : List SmallRequest} {c c' c'' : MpChain} {log log' : Log} {m : Nat} :
      serve A q.aligned q.size c log = (some m, c', log') → Serves A h c' log' c'' →
      Serves A (q :: h) c log c''

theorem serves_of_run {A : Allocator} {frames : Nat} (h : List SmallRequest) :
    ∀ {s t : State MpChain}, (∀ q ∈ h, q.size ≤ s.pool.max) →
      run (step listOps A (frames + 1)) s (h.map SmallRequest.act) = some t →
      EveryStep (step listOps A (frames + 1)) (Granted A (frames + 1)) s (h.map SmallRequest.act) →
      Serves A h s.pool.chain s.log t.pool.chain := by
  induction h with
  | nil =>
      intro s t _ hrun _
      cases hrun
      exact .nil _ _
  | cons q h ih =>
      intro s t hmax hrun hgranted
      obtain ⟨r, hrequest, hmaxR, hserve⟩ :=
        request_small A frames (hmax q List.mem_cons_self)
      have hstep := step_of_request hrequest
      rw [List.map_cons, run_cons_eq_some] at hrun
      obtain ⟨u, hu, hrest⟩ := hrun
      obtain rfl : r.state = u := Option.some.inj (hstep.symm.trans hu)
      obtain ⟨hptr, hgrantedRest⟩ := hgranted r.state hstep
      rw [Granted, hrequest, Option.map_some, ne_eq, Option.some.injEq] at hptr
      obtain ⟨m, hm⟩ := Option.ne_none_iff_exists'.1 hptr
      rw [hm] at hserve
      refine .cons hserve.symm (ih ?_ hrest hgrantedRest)
      intro q' hq'
      show q'.size ≤ r.pool.max
      rw [hmaxR]
      exact hmax q' (List.mem_cons_of_mem q hq')

theorem Serves.length_le {A : Allocator} {h : List SmallRequest} {c c' : MpChain} {log : Log}
    (hserves : Serves A h c log c') : c.nodes.length ≤ c'.nodes.length := by
  induction hserves with
  | nil c log => exact le_rfl
  | @cons q h c c' c'' log log' m hserve _ ih =>
      have hle := length_le_serve A q.aligned q.size c log
      rw [hserve] at hle
      exact hle.trans ih

theorem Serves.retired {A : Allocator} {h : List SmallRequest} {c c' : MpChain} {log : Log}
    (hserves : Serves A h c log c') (hc : Retired c) : Retired c' := by
  induction hserves with
  | nil c log => exact hc
  | cons hserve _ ih => exact ih (retired_serve hc hserve)

theorem max_of_run {σ : Type} {K : ChainOps σ} {A : Allocator} {frames : Nat} {acts : List Act} :
    ∀ {s t : State σ}, run (step K A frames) s acts = some t → t.pool.max = s.pool.max := by
  induction acts with
  | nil =>
      intro s t hrun
      cases hrun
      rfl
  | cons a acts ih =>
      intro s t hrun
      obtain ⟨u, hu, hrest⟩ := run_cons_eq_some.1 hrun
      exact (ih hrest).trans (max_of_step hu)

/-! ### The sizes of the nodes -/

/-- Where a node begins and ends. -/
def MpNode.ends (p : MpNode) : Nat × Nat := (p.addr, p.end_)

/-- The head has `size` bytes behind its header. The other nodes are aligned, and each is as long as the
head, up to the conversion to `size_t`. -/
def Sized (size : Nat) (c : MpChain) : Prop :=
  ∃ (base : Nat) (addrs : List Nat), c.nodes.map MpNode.ends = (base, base + (sizeofNode + size)) ::
      addrs.map (fun a => (a, a + sizeT (sizeofNode + size))) ∧ ∀ a ∈ addrs, mpAlignment ∣ a

theorem sized_create (base size : Nat) : Sized size ⟨[headNode base size], 0⟩ :=
  ⟨base + sizeofPool, [], by simp [MpNode.ends, headNode, Nat.add_assoc],
    fun _ h => absurd h List.not_mem_nil⟩

/-- The length of the head, as every further node is asked for. -/
theorem Sized.head {size : Nat} {c : MpChain} (h : Sized size c) {g : MpNode} {tail : List MpNode}
    (hnodes : c.nodes = g :: tail) : (g.end_ : Int) - g.addr = (sizeofNode + size : Nat) := by
  obtain ⟨base, addrs, hends, -⟩ := h
  rw [hnodes, List.map_cons] at hends
  obtain ⟨haddr, hend⟩ := Prod.mk.inj (List.cons.inj hends).1
  omega

theorem sized_serve {A : AlignedAllocator} {size n : Nat} {aligned : Bool} {c c' : MpChain}
    {log log' : Log} {ptr : Option Nat} (h : Sized size c)
    (hserve : serve A.toAllocator aligned n c log = (ptr, c', log')) : Sized size c' := by
  have hcases := served_serve A.toAllocator aligned n c log
  rw [hserve] at hcases
  have hsized := h
  obtain ⟨base, addrs, hends, haligned⟩ := h
  cases hcases with
  | node m rest hrest =>
      exact ⟨base, addrs, (map_node_of_last (fun _ _ => rfl) hrest).trans hends, haligned⟩
  | noChain _ => exact ⟨base, addrs, hends, haligned⟩
  | refused g tail _ _ _ => exact ⟨base, addrs, hends, haligned⟩
  | block g tail m hnodes _ hanswer =>
      refine ⟨base, addrs ++ [m], ?_, fun a ha => ?_⟩
      · rw [map_addNode (fun _ _ => rfl), hends, hsized.head hnodes, List.map_append]
        rfl
      · rcases List.mem_append.1 ha with hold | hnew
        · exact haligned a hold
        · rw [List.mem_singleton] at hnew
          subst hnew
          exact A.aligned _ _ _ hanswer

theorem Serves.sized {A : AlignedAllocator} {size : Nat} {h : List SmallRequest} {c c' : MpChain}
    {log : Log} (hserves : Serves A.toAllocator h c log c') (hc : Sized size c) : Sized size c' := by
  induction hserves with
  | nil c log => exact hc
  | cons hserve _ ih => exact ih (sized_serve hc hserve)

/-! ### The replay goes through the nodes of the first run -/

/-- A node as a reset leaves it, without its count. -/
def MpNode.rewound (p : MpNode) : MpNode := { p with last := p.addr + sizeofNode, failed := 0 }

/-- An empty node serves right behind its header. -/
theorem serveFrom_empty {size n m : Nat} (hsize : size < 2 ^ 64) (hn : n ≤ size)
    (hm : mpAlignment ∣ m) (aligned : Bool) (rest : List MpNode) :
    serveFrom aligned n (⟨m, m + sizeofNode, m + sizeT (sizeofNode + size), 0⟩ :: rest) =
      some (m + sizeofNode,
        ⟨m, m + sizeofNode + n, m + sizeT (sizeofNode + size), 0⟩ :: rest) := by
  have hplace : place aligned ⟨m, m + sizeofNode, m + sizeT (sizeofNode + size), 0⟩ =
      m + sizeofNode := by
    cases aligned with
    | false => rfl
    | true => exact mpAlignPtr_of_dvd (Nat.dvd_add hm (by decide))
  -- the room is `size`, also when the length of the node wraps
  have hroom : sizeT ((m + sizeT (sizeofNode + size) : Nat) - (m + sizeofNode : Nat)) = size := by
    simp only [sizeT, sizeofNode]
    omega
  simp only [serveFrom, hplace, hroom, if_pos hn]

theorem Serves.fits {A : AlignedAllocator} {size : Nat} (hsize : size < 2 ^ 64)
    {h : List SmallRequest} {c c' : MpChain} {log : Log} (hserves : Serves A.toAllocator h c log c') :
    (∀ q ∈ h, q.size ≤ size) → Retired c → Sized size c → c'.nodes.length ≤ 7 →
      ∃ fresh, c'.nodes.map MpNode.rewound = c.nodes.map MpNode.rewound ++ fresh ∧
        firstFits h (c.nodes.map MpNode.bare ++ fresh) = true := by
  induction hserves with
  | nil c log =>
      intro _ _ _ _
      exact ⟨[], (List.append_nil _).symm, rfl⟩
  | @cons q h c c' c'' log log' m hserve hrest ih =>
      intro hmax hretired hsized hseven
      have hq := hmax q List.mem_cons_self
      obtain ⟨fresh, hfresh, hfits⟩ := ih (fun q' hq' => hmax q' (List.mem_cons_of_mem q hq'))
        (retired_serve hretired hserve) (sized_serve hsized hserve) hseven
      -- the chain is short, so the walk starts at the head
      have hcurrent : c.current = 0 := by
        have hshort : c.nodes.length ≤ c'.nodes.length := by
          simpa only [hserve] using length_le_serve A.toAllocator q.aligned q.size c log
        have hlonger := hrest.length_le
        have hat := hretired.current
        omega
      have hcases := served_serve A.toAllocator q.aligned q.size c log
      rw [hserve] at hcases
      cases hcases with
      | node _ rest hwalk =>
          have hrewound := map_node_of_last (f := MpNode.rewound) (fun _ _ => rfl) hwalk
          rw [hcurrent, List.drop_zero] at hwalk
          simp only [hcurrent, List.take_zero, List.nil_append] at hfresh hfits hrewound
          refine ⟨fresh, by rw [hfresh, hrewound], ?_⟩
          simp only [firstFits, serveFrom_append, serveFrom_bare, hwalk, Option.map_some]
          exact hfits
      | block g tail m hnodes hwalk hanswer =>
          have hm : mpAlignment ∣ m := A.aligned _ _ _ hanswer
          have hround : mpAlignPtr (m + sizeofNode) mpAlignment = m + sizeofNode :=
            mpAlignPtr_of_dvd (Nat.dvd_add hm (by decide))
          have hpsize : sizeT (g.end_ - g.addr) = sizeT (sizeofNode + size) := by
            rw [hsized.head hnodes]
            rfl
          rw [hcurrent, List.drop_zero] at hwalk
          rw [map_addNode (fun _ _ => rfl)] at hfresh hfits
          -- the node added is the first of those that the replay finds empty
          refine ⟨(newNode m (sizeT (g.end_ - g.addr)) q.size).rewound :: fresh, ?_, ?_⟩
          · rw [hfresh, List.append_assoc]
            rfl
          · simp only [firstFits, serveFrom_append, serveFrom_bare, hwalk, Option.map_none]
            simp only [MpNode.rewound, newNode, hpsize]
            rw [serveFrom_empty hsize hq hm]
            simp only [MpNode.bare, newNode, hpsize, hround, List.append_assoc] at hfits
            exact hfits

/-- Where the chain is long, the nodes from `current` on are seven empty ones after a reset. -/
theorem firstFits_seven {size : Nat} {c : MpChain} (hretired : Retired c) (hsized : Sized size c)
    (hcurrent : c.current ≠ 0) (h : List SmallRequest) :
    firstFits h ((c.nodes.map MpNode.rewound).drop c.current) =
      firstFits h (List.replicate 7 (emptyNode size)) := by
  obtain ⟨base, addrs, hends, haligned⟩ := hsized
  have hat := hretired.current
  obtain ⟨k, hk⟩ := Nat.exists_eq_succ_of_ne_zero hcurrent
  -- a reset node is known from its ends
  have hrewound : c.nodes.map MpNode.rewound =
      (c.nodes.map MpNode.ends).map fun (a, e) => ⟨a, a + sizeofNode, e, 0⟩ := by
    rw [List.map_map]
    rfl
  have hlength : c.nodes.length = addrs.length + 1 := by
    have hcount := congrArg List.length hends
    simpa using hcount
  rw [hrewound, hends, hk, List.map_cons, List.drop_succ_cons, List.map_map, ← List.map_drop]
  symm
  apply firstFits_shifted
  have hseven : (addrs.drop k).length = 7 := by
    rw [List.length_drop]
    omega
  have hall : ∀ a ∈ addrs.drop k, mpAlignment ∣ a := fun a ha => haligned a (List.mem_of_mem_drop ha)
  rw [← hseven]
  generalize addrs.drop k = as at hall
  induction as with
  | nil => exact .nil
  | cons a as ih =>
      obtain ⟨j, rfl⟩ := hall a List.mem_cons_self
      refine .cons ⟨j, ?_, ?_⟩ (ih fun b hb => hall b (List.mem_cons_of_mem _ hb))
      · exact Nat.add_comm _ _
      · exact Nat.add_comm _ _

/-! ## Replays -/

/-- Small requests need no further node, whatever the allocator answers, exactly when they fit. -/
theorem addsNoNode_iff (frames : Nat) {r : State MpChain} {h : List SmallRequest}
    (hmax : ∀ q ∈ h, q.size ≤ r.pool.max) (hnonempty : 0 < r.pool.chain.nodes.length) :
    (∀ (B : Allocator) (u : State MpChain),
        run (step listOps B (frames + 1)) r (h.map SmallRequest.act) = some u →
          u.pool.chain.nodes.length = r.pool.chain.nodes.length) ↔
      firstFits h (r.pool.chain.nodes.drop r.pool.chain.current) = true := by
  constructor
  · intro hnone
    obtain ⟨u, hrun, hall⟩ := run_small bump.toAllocator frames h hmax
    have hlength := hnone bump.toAllocator u hrun
    by_contra hfits
    rw [Bool.not_eq_true] at hfits
    have hlt := length_serveAll_of_not_fits h r.log hnonempty hfits
    rw [← hall] at hlt
    exact absurd hlength hlt.ne'
  · intro hfits B u hrun
    obtain ⟨v, hv, hall⟩ := run_small B frames h hmax
    obtain rfl : u = v := Option.some.inj (hrun.symm.trans hv)
    have hlength := length_serveAll_of_fits B h r.log hfits
    rw [← hall] at hlength
    exact hlength

/-- **When a reset gives all back.** Take a pool of any size, and any small requests that a fresh pool
serves. When the pool is reset and the requests are repeated, they need no further node, whatever the
allocator then answers, if and only if `current` was still the head at the reset, or the requests fit
into seven empty nodes, each in the first one with room for it. -/
theorem reset_gives_all_back_iff (A : AlignedAllocator) {size frames : Nat} (hsize : size < 2 ^ 64)
    {s t r : State MpChain} (hcreate : mpCreatePool listOps A.toAllocator [] size = some s)
    {h : List SmallRequest} (hmax : ∀ q ∈ h, q.size ≤ s.pool.max)
    (hrun : run (step listOps A.toAllocator (frames + 1)) s (h.map SmallRequest.act) = some t)
    (hgranted : EveryStep (step listOps A.toAllocator (frames + 1))
      (Granted A.toAllocator (frames + 1)) s (h.map SmallRequest.act))
    (hreset : step listOps A.toAllocator (frames + 1) t .reset = some r) :
    (∀ (B : Allocator) (u : State MpChain),
        run (step listOps B (frames + 1)) r (h.map SmallRequest.act) = some u →
          u.pool.chain.nodes.length = r.pool.chain.nodes.length) ↔
      t.pool.chain.current = 0 ∨ firstFits h (List.replicate 7 (emptyNode size)) = true := by
  have hserves := serves_of_run h hmax hrun hgranted
  have hmaxT : t.pool.max = s.pool.max := max_of_run hrun
  obtain ⟨p, -, rfl⟩ := mpCreatePool_cases hcreate
  have hle : ∀ q ∈ h, q.size ≤ size := by
    intro q hq
    apply (hmax q hq).trans
    simp only
    split
    · exact le_rfl
    · next hlarge => exact Nat.le_of_not_lt hlarge
  have hretired := hserves.retired (retired_create p size)
  have hsized := hserves.sized (sized_create p size)
  -- the reset
  simp only [step, mpResetPool, listOps, Option.map_some, Option.some.injEq] at hreset
  subst hreset
  have hbare : (t.pool.chain.nodes.map fun p => { p with last := p.addr + sizeofNode }).map
      MpNode.bare = t.pool.chain.nodes.map MpNode.rewound := by
    rw [List.map_map]
    rfl
  refine (addsNoNode_iff frames (hmaxT ▸ hmax) ?_).trans ?_
  · simpa using hretired.nonempty
  · simp only
    rw [← firstFits_bare, List.map_drop, hbare]
    by_cases hcurrent : t.pool.chain.current = 0
    · obtain ⟨fresh, hfresh, hfits⟩ := hserves.fits hsize hle (retired_create p size)
        (sized_create p size) (by have hat := hretired.current; omega)
      rw [hcurrent, List.drop_zero, hfresh]
      exact iff_of_true hfits (.inl rfl)
    · rw [firstFits_seven hretired hsized hcurrent]
      exact (or_iff_right hcurrent).symm

/-- Requests that each fill a node of a pool of 64 bytes. -/
def fullNodes (n : Nat) : List SmallRequest := List.replicate n ⟨false, 64⟩

/-- The pool of 64 bytes after the requests `fullNodes n`. -/
def filledPool (n : Nat) : Option (State MpChain) :=
  (mpCreatePool listOps bump.toAllocator [] 64).bind fun s =>
    run (step listOps bump.toAllocator 1) s ((fullNodes n).map SmallRequest.act)

theorem filledPool_spec {n : Nat} {t : State MpChain} (h : filledPool n = some t) :
    ∃ s, mpCreatePool listOps bump.toAllocator [] 64 = some s ∧
      run (step listOps bump.toAllocator 1) s ((fullNodes n).map SmallRequest.act) = some t ∧
      ∀ q ∈ fullNodes n, q.size ≤ s.pool.max := by
  obtain ⟨s, hcreate, hrun⟩ := Option.bind_eq_some_iff.1 h
  refine ⟨s, hcreate, hrun, fun q hq => ?_⟩
  obtain ⟨p, -, rfl⟩ := mpCreatePool_cases hcreate
  rw [List.eq_of_mem_replicate hq]
  exact le_rfl

/-- Control: after seven of these requests `current` is still the head, and the replay needs no further
node. -/
theorem reset_gives_all_back_sevenNodes :
    ∃ t r, filledPool 7 = some t ∧ step listOps bump.toAllocator 1 t .reset = some r ∧
      t.pool.chain.nodes.length = 7 ∧
      ∀ (B : Allocator) (u : State MpChain),
        run (step listOps B 1) r ((fullNodes 7).map SmallRequest.act) = some u →
          u.pool.chain.nodes.length = r.pool.chain.nodes.length := by
  have hend : (filledPool 7).map (fun t => (t.pool.chain.nodes.length, t.pool.chain.current)) =
      some (7, 0) := by
    decide +kernel
  obtain ⟨t, hfilled, hshape⟩ := Option.map_eq_some_iff.1 hend
  obtain ⟨hlength, hcurrent⟩ := Prod.mk.inj hshape
  obtain ⟨s, hcreate, hrun, hmax⟩ := filledPool_spec hfilled
  have hgranted : EveryStep (step listOps bump.toAllocator 1) (Granted bump.toAllocator 1) s
      ((fullNodes 7).map SmallRequest.act) := by
    cases hcreate
    decide +kernel
  exact ⟨t, _, hfilled, rfl, hlength,
    (reset_gives_all_back_iff bump (by decide) hcreate hmax hrun hgranted rfl).2 (.inl hcurrent)⟩

/-- After eight of them the head is not given back: the replay needs a ninth node. -/
theorem reset_keeps_head_eightNodes :
    ∃ s t r u, mpCreatePool listOps bump.toAllocator [] 64 = some s ∧
      (∀ q ∈ fullNodes 8, q.size ≤ s.pool.max) ∧
      run (step listOps bump.toAllocator 1) s ((fullNodes 8).map SmallRequest.act) = some t ∧
      EveryStep (step listOps bump.toAllocator 1) (Granted bump.toAllocator 1) s
        ((fullNodes 8).map SmallRequest.act) ∧
      step listOps bump.toAllocator 1 t .reset = some r ∧
      run (step listOps bump.toAllocator 1) r ((fullNodes 8).map SmallRequest.act) = some u ∧
      r.pool.chain.nodes.length = 8 ∧ u.pool.chain.nodes.length = 9 := by
  have hend : ((filledPool 8).bind fun t =>
      (step listOps bump.toAllocator 1 t .reset).bind fun r =>
        (run (step listOps bump.toAllocator 1) r ((fullNodes 8).map SmallRequest.act)).map fun u =>
          (r.pool.chain.nodes.length, u.pool.chain.nodes.length)) = some (8, 9) := by
    decide +kernel
  obtain ⟨t, hfilled, hbind⟩ := Option.bind_eq_some_iff.1 hend
  obtain ⟨r, hreset, hmap⟩ := Option.bind_eq_some_iff.1 hbind
  obtain ⟨u, hreplay, hshape⟩ := Option.map_eq_some_iff.1 hmap
  obtain ⟨hr, hu⟩ := Prod.mk.inj hshape
  obtain ⟨s, hcreate, hrun, hmax⟩ := filledPool_spec hfilled
  have hgranted : EveryStep (step listOps bump.toAllocator 1) (Granted bump.toAllocator 1) s
      ((fullNodes 8).map SmallRequest.act) := by
    cases hcreate
    decide +kernel
  exact ⟨s, t, r, u, hcreate, hmax, hrun, hgranted, hreset, hreplay, hr, hu⟩

end CppMisc.MmPool
