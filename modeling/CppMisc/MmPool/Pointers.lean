import CppMisc.Library.Chains
import CppMisc.MmPool.Model

/-!
# The node chain of `mempool/mmpool.c` in memory

The nodes are headers in memory, linked by their `next` fields, and the loops of the pool walk these
fields. `junk` is the content of the memory before the pool writes to it: `posix_memalign` does not
clear what it hands out. `mp_create_pool` writes every field of the head node but `next`.

`owned` records the head and the nodes that `mp_alloc_block` has added, in the order of creation. A walk
that steps on anything else, or that makes more steps than the pool has nodes and so goes round in a
circle, has no result. A write to memory that was handed out leaves the headers alone unless it runs
over one of them; what it leaves then is arbitrary (`spill`).

On a well-formed chain each walk computes what its counterpart on the list of nodes computes.
-/

set_option autoImplicit false

namespace CppMisc.MmPool

open CppMisc.Library

/-- The fields of an `mp_node_s` in memory. -/
structure NodeCell where
  last : Nat
  end_ : Nat
  next : Option Nat
  failed : Nat

/-- The memory of the nodes, and the pool fields that point into it. -/
structure PtrChain where
  base : Nat
  cells : Nat → NodeCell
  current : Option Nat
  owned : List Nat

/-- The head node follows the `mp_pool_s`. -/
def PtrChain.head (c : PtrChain) : Nat := c.base + sizeofPool

/-- The node at the address `a`. -/
def nodeAt (cells : Nat → NodeCell) (a : Nat) : MpNode where
  addr := a
  last := (cells a).last
  end_ := (cells a).end_
  failed := (cells a).failed

/-- The head node as `mp_create_pool` leaves it: `next` keeps what was there. -/
def ptrCreate (junk : Nat → NodeCell) (base size : Nat) : PtrChain where
  base := base
  cells := Function.update junk (base + sizeofPool) { junk (base + sizeofPool) with
    last := base + sizeofPool + sizeofNode
    end_ := base + sizeofPool + sizeofNode + size
    failed := 0 }
  current := some (base + sizeofPool)
  owned := [base + sizeofPool]

/-- The `do` loop of `mp_alloc` and `mp_nalloc` from the node `p` on. -/
def ptrServeFrom (owned : List Nat) (cells : Nat → NodeCell) (aligned : Bool) (size : Nat) :
    Nat → Option Nat → Option (Option (Nat × (Nat → NodeCell)))
  | 0, _ => none
  | _ + 1, none => some none
  | fuel + 1, some p =>
      -- a pointer to anything but a node of the pool
      if p ∉ owned then none
      else
        let m := place aligned (nodeAt cells p)
        if sizeT ((cells p).end_ - m) ≥ size then
          some (some (m, Function.update cells p { cells p with last := m + size }))
        else ptrServeFrom owned cells aligned size fuel (cells p).next

/-- The loop of `mp_alloc_block` from the node `p` on: the memory, the last node and `current`. -/
def ptrPassOver (owned : List Nat) :
    Nat → (Nat → NodeCell) → Nat → Option Nat → Option ((Nat → NodeCell) × Nat × Option Nat)
  | 0, _, _, _ => none
  | fuel + 1, cells, p, current =>
      if p ∉ owned then none
      else
        match (cells p).next with
        | none => some (cells, p, current)
        | some q =>
            ptrPassOver owned fuel
              (Function.update cells p { cells p with failed := (cells p).failed + 1 }) q
              (if (cells p).failed > 4 then some q else current)

/-- `mp_alloc_block`. -/
def ptrAllocBlock (A : Allocator) (size : Nat) (c : PtrChain) (log : Log) :
    Option (Option Nat × PtrChain × Log) :=
  let psize := sizeT ((c.cells c.head).end_ - c.head)
  match A.request log (.posixMemalign mpAlignment psize) with
  | (none, log') => some (none, c, log')
  | (some m, log') =>
      let r := mpAlignPtr (m + sizeofNode) mpAlignment
      let cells := Function.update c.cells m
        { last := r + size, end_ := m + psize, next := none, failed := 0 }
      match c.current with
      | none => none
      | some p =>
          -- `p->next = new_node;` at the node where the loop ended
          (ptrPassOver c.owned c.owned.length cells p (some p)).map fun (cells', p', current) =>
            (some r, { c with
              cells := Function.update cells' p' { cells' p' with next := some m }
              current := some (current.getD m)
              owned := c.owned ++ [m] }, log')

/-- The small path: the walk from `current`, then `mp_alloc_block`. The loop reads its first node
without a test. -/
def ptrServe (A : Allocator) (aligned : Bool) (size : Nat) (c : PtrChain) (log : Log) :
    Option (Option Nat × PtrChain × Log) :=
  match c.current with
  | none => none
  | some p =>
      match ptrServeFrom c.owned c.cells aligned size (c.owned.length + 1) (some p) with
      | none => none
      | some (some (m, cells)) => some (some m, { c with cells := cells }, log)
      | some none => ptrAllocBlock A size c log

/-- The loop of `mp_reset_pool` over the nodes. -/
def ptrResetFrom (owned : List Nat) :
    Nat → (Nat → NodeCell) → Option Nat → Option (Nat → NodeCell)
  | 0, _, _ => none
  | _ + 1, cells, none => some cells
  | fuel + 1, cells, some h =>
      if h ∉ owned then none
      else
        ptrResetFrom owned fuel (Function.update cells h { cells h with last := h + sizeofNode })
          (cells h).next

/-- The nodes that the second loop of `mp_destory_pool` frees, from the node `h` on. -/
def ptrBlocksFrom (owned : List Nat) (cells : Nat → NodeCell) : Nat → Option Nat → Option (List Nat)
  | 0, _ => none
  | _ + 1, none => some []
  | fuel + 1, some h =>
      if h ∉ owned then none
      else (ptrBlocksFrom owned cells fuel (cells h).next).map fun rest => h :: rest

/-- A write of `size` bytes at `start` touches the `length` bytes at `a`. -/
def Touches (start size a length : Nat) : Prop := start < a + length ∧ a < start + size

instance (start size a length : Nat) : Decidable (Touches start size a length) :=
  inferInstanceAs (Decidable (_ ∧ _))

/-- A write touches the `mp_pool_s` or the header of a node. -/
def HitsHeader (c : PtrChain) (start size : Nat) : Prop :=
  Touches start size c.base sizeofPool ∨ ∃ a ∈ c.owned, Touches start size a sizeofNode

instance (c : PtrChain) (start size : Nat) : Decidable (HitsHeader c start size) :=
  inferInstanceAs (Decidable (_ ∨ _))

/-- The chain in memory. -/
def ptrOps (junk : Nat → NodeCell) (spill : PtrChain → Nat → Nat → PtrChain) :
    ChainOps PtrChain where
  create := ptrCreate junk
  serve := ptrServe
  reset c := (ptrResetFrom c.owned (c.owned.length + 1) c.cells (some c.head)).map fun cells =>
    { c with cells := cells }
  blocks c := ptrBlocksFrom c.owned c.cells (c.owned.length + 1) (c.cells c.head).next
  write c start size := if HitsHeader c start size then spill c start size else c

/-- The chain is well formed: `next` leads from the head through the nodes in the order of creation
to a null pointer, and `current` is one of them. -/
structure ChainOk (c : PtrChain) : Prop where
  chain : IsChain (fun a => (c.cells a).next) (some c.head) c.owned
  current : ∃ a ∈ c.owned, c.current = some a

/-- The list of nodes that a chain in memory stands for. -/
def chainOf (c : PtrChain) : MpChain where
  nodes := c.owned.map (nodeAt c.cells)
  current := (c.current.map c.owned.idxOf).getD 0

/-! ## Memory -/

@[simp] theorem nodeAt_addr (cells : Nat → NodeCell) (a : Nat) : (nodeAt cells a).addr = a := rfl

/-- Nodes elsewhere are as they were. -/
theorem map_nodeAt_update {cells : Nat → NodeCell} {l : List Nat} {p : Nat} (hp : p ∉ l)
    (x : NodeCell) : l.map (nodeAt (Function.update cells p x)) = l.map (nodeAt cells) := by
  refine List.map_congr_left fun a ha => ?_
  have hne : a ≠ p := fun he => hp (he ▸ ha)
  simp [nodeAt, hne]

/-- An update that keeps the `next` field keeps every `next` field. -/
theorem next_update {cells : Nat → NodeCell} {p : Nat} {x : NodeCell}
    (hx : x.next = (cells p).next) (a : Nat) :
    (Function.update cells p x a).next = (cells a).next := by
  rcases eq_or_ne a p with rfl | hne
  · rw [Function.update_self, hx]
  · rw [Function.update_of_ne hne]

/-! ## The walks on a chain -/

/-- The walk for a request agrees with the one on the list. -/
theorem ptrServeFrom_eq (aligned : Bool) (size : Nat) {owned : List Nat} {cells : Nat → NodeCell}
    {p : Option Nat} {l : List Nat} (h : IsChain (fun a => (cells a).next) p l) :
    ∀ {fuel : Nat}, l.length < fuel → (∀ a ∈ l, a ∈ owned) →
      (serveFrom aligned size (l.map (nodeAt cells)) = none ∧
          ptrServeFrom owned cells aligned size fuel p = some none) ∨
        ∃ a ∈ l, ∃ m,
          serveFrom aligned size (l.map (nodeAt cells)) = some (m,
            l.map (nodeAt (Function.update cells a { cells a with last := m + size }))) ∧
          ptrServeFrom owned cells aligned size fuel p =
            some (some (m, Function.update cells a { cells a with last := m + size })) := by
  induction h with
  | nil =>
      intro fuel hfuel _
      obtain ⟨f, rfl⟩ := Nat.exists_eq_add_one.2 (Nat.zero_lt_of_lt hfuel)
      exact .inl ⟨rfl, rfl⟩
  | @cons a l hrest ih =>
      intro fuel hfuel howned
      obtain ⟨f, rfl⟩ := Nat.exists_eq_add_one.2 (Nat.zero_lt_of_lt hfuel)
      have hnodup : a ∉ l := (List.nodup_cons.1 (IsChain.cons hrest).nodup).1
      have ha : ¬ a ∉ owned := not_not.2 (howned a List.mem_cons_self)
      have hlen : l.length < f := by
        simp only [List.length_cons] at hfuel
        omega
      have hrec := ih hlen fun b hb => howned b (List.mem_cons_of_mem a hb)
      simp only [List.map_cons, serveFrom, ptrServeFrom, if_neg ha]
      by_cases htest : sizeT ((cells a).end_ - place aligned (nodeAt cells a)) ≥ size
      · -- served here: the other nodes are elsewhere in memory
        refine .inr ⟨a, List.mem_cons_self, place aligned (nodeAt cells a), ?_, ?_⟩
        · have htest' : sizeT ((nodeAt cells a).end_ - place aligned (nodeAt cells a)) ≥ size :=
            htest
          rw [if_pos htest', map_nodeAt_update hnodup]
          simp [nodeAt]
        · rw [if_pos htest]
      · have htest' : ¬ sizeT ((nodeAt cells a).end_ - place aligned (nodeAt cells a)) ≥ size :=
          htest
        rw [if_neg htest', if_neg htest]
        rcases hrec with ⟨hnone, hptr⟩ | ⟨b, hb, m, hsome, hptr⟩
        · exact .inl ⟨by rw [hnone]; rfl, hptr⟩
        · refine .inr ⟨b, List.mem_cons_of_mem a hb, m, ?_, hptr⟩
          have hne : a ≠ b := fun he => hnodup (he ▸ hb)
          rw [hsome]
          simp [nodeAt, hne]

/-- The walk of a reset sets `last` in every node of the chain. -/
theorem ptrResetFrom_eq {owned : List Nat} {l : List Nat} : ∀ {cells : Nat → NodeCell}
    {p : Option Nat}, IsChain (fun a => (cells a).next) p l → ∀ {fuel : Nat}, l.length < fuel →
      (∀ a ∈ l, a ∈ owned) →
      ∃ cells', ptrResetFrom owned fuel cells p = some cells' ∧
        (∀ a, (cells' a).next = (cells a).next) ∧ (∀ a, a ∉ l → cells' a = cells a) ∧
        l.map (nodeAt cells') =
          l.map fun a => { nodeAt cells a with last := a + sizeofNode } := by
  induction l with
  | nil =>
      intro cells p h fuel hfuel _
      obtain ⟨f, rfl⟩ := Nat.exists_eq_add_one.2 (Nat.zero_lt_of_lt hfuel)
      cases h
      exact ⟨cells, rfl, fun _ => rfl, fun _ _ => rfl, rfl⟩
  | cons a l ih =>
      intro cells p h fuel hfuel howned
      obtain ⟨f, rfl⟩ := Nat.exists_eq_add_one.2 (Nat.zero_lt_of_lt hfuel)
      have hnodup := h.nodup
      cases h with
      | cons h =>
          have ha : a ∉ l := (List.nodup_cons.1 hnodup).1
          have hnext : ∀ b, (Function.update cells a { cells a with last := a + sizeofNode } b).next =
              (cells b).next := next_update rfl
          have hrest : IsChain (fun b => (Function.update cells a
              { cells a with last := a + sizeofNode } b).next) ((cells a).next) l :=
            h.congr fun b _ => hnext b
          simp only [List.length_cons] at hfuel
          -- the rest of the walk does not come back to this node
          obtain ⟨cells', hptr, hnext', hother, hmap⟩ :=
            ih hrest (show l.length < f by omega) fun b hb => howned b (List.mem_cons_of_mem a hb)
          refine ⟨cells', ?_, fun b => (hnext' b).trans (hnext b), fun b hb => ?_, ?_⟩
          · have hown : ¬ a ∉ owned := not_not.2 (howned a List.mem_cons_self)
            simp only [ptrResetFrom, if_neg hown]
            exact hptr
          · have hne : b ≠ a := fun he => hb (he ▸ List.mem_cons_self)
            rw [hother b fun hmem => hb (List.mem_cons_of_mem a hmem), Function.update_of_ne hne]
          · simp only [List.map_cons, hmap]
            refine congrArg₂ List.cons ?_ ?_
            · simp [nodeAt, hother a ha]
            · refine List.map_congr_left fun b hb => ?_
              have hne : b ≠ a := fun he => ha (he ▸ hb)
              simp [nodeAt, hne]

/-- The walk of `mp_destory_pool` visits the chain. -/
theorem ptrBlocksFrom_eq {owned : List Nat} {cells : Nat → NodeCell} {p : Option Nat}
    {l : List Nat} (h : IsChain (fun a => (cells a).next) p l) : ∀ {fuel : Nat}, l.length < fuel →
      (∀ a ∈ l, a ∈ owned) → ptrBlocksFrom owned cells fuel p = some l := by
  induction h with
  | nil =>
      intro fuel hfuel _
      obtain ⟨f, rfl⟩ := Nat.exists_eq_add_one.2 (Nat.zero_lt_of_lt hfuel)
      rfl
  | @cons a l _ ih =>
      intro fuel hfuel howned
      obtain ⟨f, rfl⟩ := Nat.exists_eq_add_one.2 (Nat.zero_lt_of_lt hfuel)
      have hown : ¬ a ∉ owned := not_not.2 (howned a List.mem_cons_self)
      simp only [List.length_cons] at hfuel
      have hrec := ih (show l.length < f by omega) fun b hb => howned b (List.mem_cons_of_mem a hb)
      simp only [ptrBlocksFrom, if_neg hown, hrec]
      rfl

/-- The walk of `mp_alloc_block` agrees with the one on the list. The nodes before the walk are `pre`,
and `current` stands at the position `k`. -/
theorem ptrPassOver_eq {owned : List Nat} : ∀ (l pre : List Nat) {cells : Nat → NodeCell}
    {fuel : Nat} {p k : Nat} {current : Option Nat}, owned = pre ++ l →
      IsChain (fun a => (cells a).next) (some p) l → l.length ≤ fuel → owned[k]? = current →
      ∃ cells' p' current', ptrPassOver owned fuel cells p current = some (cells', p', current') ∧
        (∀ a, (cells' a).next = (cells a).next) ∧ (∀ a, a ∉ l → cells' a = cells a) ∧
        l.map (nodeAt cells') = (passOver (l.map (nodeAt cells)) pre.length k).1 ∧
        owned[(passOver (l.map (nodeAt cells)) pre.length k).2]? = current' ∧
        (current.isSome → current'.isSome) ∧ l.getLast? = some p'
  | [], _, _, _, _, _, _, _, h, _, _ => nomatch h
  | [a], pre, cells, fuel, p, k, current, howned, h, hfuel, hcurrent => by
      obtain ⟨rest, hl, hnext⟩ := isChain_some_iff.1 h
      obtain ⟨rfl, rfl⟩ := List.cons.inj hl
      obtain ⟨f, rfl⟩ := Nat.exists_eq_add_one.2 (Nat.zero_lt_of_lt hfuel)
      have hown : ¬ a ∉ owned := by simp [howned]
      cases hn : (cells a).next with
      | none =>
          refine ⟨cells, a, current, ?_, fun _ => rfl, fun _ _ => rfl, rfl, hcurrent, id, rfl⟩
          simp only [ptrPassOver, if_neg hown, hn]
      | some q =>
          simp only [hn] at hnext
          cases hnext
  | a :: b :: rest, pre, cells, fuel, p, k, current, howned, h, hfuel, hcurrent => by
      have hnodup := h.nodup
      obtain ⟨rest', hl, hrest⟩ := isChain_some_iff.1 h
      obtain ⟨rfl, rfl⟩ := List.cons.inj hl
      obtain ⟨f, rfl⟩ := Nat.exists_eq_add_one.2 (Nat.zero_lt_of_lt hfuel)
      have hnot : a ∉ b :: rest := (List.nodup_cons.1 hnodup).1
      have hown : ¬ a ∉ owned := by simp [howned]
      have hb : (cells a).next = some b := by
        cases hn : (cells a).next with
        | none =>
            simp only [hn] at hrest
            cases hrest
        | some q =>
            simp only [hn] at hrest
            obtain ⟨_, heq, -⟩ := isChain_some_iff.1 hrest
            rw [(List.cons.inj heq).1]
      simp only [hb] at hrest
      -- the rest of the walk, in the memory with this node counted and behind one node more
      have hnext1 : ∀ x, (Function.update cells a
          { cells a with failed := (cells a).failed + 1 } x).next = (cells x).next := next_update rfl
      -- a node passed over often moves `current` to the one behind it, at the next position
      have hcurrent' : owned[if (cells a).failed > 4 then pre.length + 1 else k]? =
          if (cells a).failed > 4 then some b else current := by
        split
        · rw [howned]
          simp
        · exact hcurrent
      obtain ⟨cells', p', current', hptr, hnext, hother, hmap, hpos, hsome, hlast⟩ :=
        ptrPassOver_eq (b :: rest) (pre ++ [a]) (by rw [howned]; simp)
          (hrest.congr fun x _ => hnext1 x)
          (show (b :: rest).length ≤ f by simp only [List.length_cons] at hfuel ⊢; omega) hcurrent'
      rw [map_nodeAt_update hnot, List.length_append, List.length_singleton] at hmap hpos
      refine ⟨cells', p', current', ?_, fun x => (hnext x).trans (hnext1 x), fun x hx => ?_, ?_, hpos,
        fun hcur => hsome ?_, ?_⟩
      · simp only [ptrPassOver, if_neg hown, hb]
        simpa only [hb] using hptr
      · have hne : x ≠ a := fun he => hx (he ▸ List.mem_cons_self)
        rw [hother x fun hmem => hx (List.mem_cons_of_mem a hmem), Function.update_of_ne hne]
      · have hself : nodeAt cells' a = { nodeAt cells a with failed := (cells a).failed + 1 } := by
          simp [nodeAt, hother a hnot]
        rw [List.map_cons, hmap, hself]
        rfl
      · split
        · rfl
        · exact hcur
      · rw [List.getLast?_cons_cons]
        exact hlast

end CppMisc.MmPool
