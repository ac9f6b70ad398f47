import CppMisc.Library.Runs
import CppMisc.Library.Heap

/-!
# The memory pool of `mempool/mmpool.c`

A pool is one block that starts with an `mp_pool_s`, followed by the head node and its data area. Small
requests are served from the nodes by moving `last`; when no node from `current` on has room, a further
node is obtained from `posix_memalign`. Requests above `max` go to `malloc` and are recorded in an
`mp_large_s` entry, which is itself a small request.

The operations are written over an interface of the node chain (`ChainOps`), so that the same code runs
on two chains. Here the chain is a list of nodes and a position in it; `MmPool.Chain` stores it in
memory cells linked by `next` pointers. The list of large blocks is an abstract list in both.

Sizes and addresses are natural numbers, with the conversions to `size_t` written out. The structure
sizes are those of an LP64 machine. A result `none` of an operation means that the call does not return:
the mutual recursion of `mp_alloc` and `mp_alloc_large` has used up the `frames` of the stack, or, for a
chain in memory, a walk has left the pool's nodes. `served` records the ranges handed out for small
requests since the last reset.
-/

set_option autoImplicit false

namespace CppMisc.MmPool

open CppMisc.Library

/-- `sizeof(struct mp_pool_s)`. -/
def sizeofPool : Nat := 24

/-- `sizeof(struct mp_node_s)`. -/
def sizeofNode : Nat := 32

/-- `sizeof(struct mp_large_s)`. -/
def sizeofLarge : Nat := 16

/-- `MP_ALIGNMENT`. -/
def mpAlignment : Nat := 32

/-- `MP_MAX_ALLOC_FROM_POOL`. -/
def mpMaxAllocFromPool : Nat := 4096 - 1

/-- The conversion of a difference of pointers to `size_t`. -/
def sizeT (n : Int) : Nat := (n % 2 ^ 64).toNat

/-- `mp_align_ptr(p, alignment)`. The mask clears the low bits of `p + (alignment - 1)`. -/
def mpAlignPtr (p alignment : Nat) : Nat :=
  p + (alignment - 1) - (p + (alignment - 1)) % alignment

/-- An `mp_large_s` at the address `addr`. -/
structure MpLarge where
  addr : Nat
  alloc : Option Nat

/-- A range handed out for a small request. -/
structure Range where
  start : Nat
  size : Nat

/-- An `mp_pool_s` at the address `base`, with a node chain of type `σ`. -/
structure MpPool (σ : Type) where
  base : Nat
  max : Nat
  chain : σ
  large : List MpLarge
  served : List Range

/-- What the pool code asks of a node chain. -/
structure ChainOps (σ : Type) where
  /-- The head node of a new pool of `size` bytes at the address `base`. -/
  create : (base size : Nat) → σ
  /-- The small path of `mp_alloc` (aligned) and of `mp_nalloc` (not aligned): the walk from
  `current`, then `mp_alloc_block`. -/
  serve : Allocator → (aligned : Bool) → (size : Nat) → σ → Log → Option (Option Nat × σ × Log)
  /-- The loop of `mp_reset_pool` over the nodes. -/
  reset : σ → Option σ
  /-- The nodes that the second loop of `mp_destory_pool` frees. -/
  blocks : σ → Option (List Nat)
  /-- A write of `size` bytes at `start` to memory of the pool's own blocks. -/
  write : σ → (start size : Nat) → σ

/-- What a request returns and leaves behind. -/
structure Ret (σ : Type) where
  ptr : Option Nat
  pool : MpPool σ
  log : Log

/-- A pool and the heap. -/
structure State (σ : Type) where
  pool : MpPool σ
  log : Log

section Operations

variable {σ : Type} (K : ChainOps σ) (A : Allocator)

/-- `mp_create_pool`. -/
def mpCreatePool (log : Log) (size : Nat) : Option (State σ) :=
  match A.request log (.posixMemalign mpAlignment (sizeT (size + sizeofPool + sizeofNode))) with
  | (none, _) => none
  | (some p, log') =>
      -- the large list starts empty, and so does the record of ranges handed out
      some {
        pool := {
          base := p
          max := if size < mpMaxAllocFromPool then size else mpMaxAllocFromPool
          chain := K.create p size
          large := []
          served := [] }
        log := log' }

/-- The branch `size <= pool->max` of `mp_alloc` and `mp_nalloc`. -/
def mpSmall (aligned : Bool) (pool : MpPool σ) (log : Log) (size : Nat) : Option (Ret σ) :=
  (K.serve A aligned size pool.chain log).map fun (ptr, chain, log') =>
    { ptr := ptr
      pool := { pool with
        chain := chain
        served := ptr.toList.map (fun start => ⟨start, size⟩) ++ pool.served }
      log := log' }

/-- The end of `mp_alloc_large` and of `mp_memalign`: a new entry for the block `p`, or `free(p)`. -/
def recordLarge (alloc : MpPool σ → Log → Nat → Option (Ret σ)) (pool : MpPool σ) (log : Log)
    (p : Nat) : Option (Ret σ) :=
  (alloc pool log sizeofLarge).map fun r =>
    match r.ptr with
    | none => { ptr := none, pool := r.pool, log := .released p :: r.log }
    | some large =>
        { ptr := some p
          pool := { r.pool with
            chain := K.write r.pool.chain large sizeofLarge
            large := ⟨large, some p⟩ :: r.pool.large }
          log := r.log }

/-- The loop of `mp_alloc_large` over the entries: the first one without a block takes `p`, if it is
among those looked at. The entry's address comes with the new list. -/
def reuseEntry (p : Nat) : Nat → List MpLarge → Option (Nat × List MpLarge)
  | _, [] => none
  | n, large :: rest =>
      match large.alloc with
      | none => some (large.addr, { large with alloc := some p } :: rest)
      | some _ =>
          -- `if (n ++ > 3) break;`, so five entries are looked at
          if n > 3 then none
          else (reuseEntry p (n + 1) rest).map fun (addr, rest') => (addr, large :: rest')

/-- `mp_alloc_large`, with `alloc` for its call of `mp_alloc`. -/
def mpAllocLarge (alloc : MpPool σ → Log → Nat → Option (Ret σ)) (pool : MpPool σ) (log : Log)
    (size : Nat) : Option (Ret σ) :=
  match A.request log (.malloc size) with
  | (none, log') => some { ptr := none, pool := pool, log := log' }
  | (some p, log') =>
      match reuseEntry p 0 pool.large with
      | some (addr, large) =>
          -- the field `alloc` is the second word of the entry
          some {
            ptr := some p
            pool := { pool with chain := K.write pool.chain (addr + 8) 8, large := large }
            log := log' }
      | none => recordLarge K alloc pool log' p

/-- `mp_alloc`. -/
def mpAlloc : Nat → MpPool σ → Log → Nat → Option (Ret σ)
  | 0, _, _, _ => none
  | frames + 1, pool, log, size =>
      if size ≤ pool.max then mpSmall K A true pool log size
      else mpAllocLarge K A (mpAlloc frames) pool log size

/-- `mp_nalloc`. -/
def mpNalloc (frames : Nat) (pool : MpPool σ) (log : Log) (size : Nat) : Option (Ret σ) :=
  if size ≤ pool.max then mpSmall K A false pool log size
  else mpAllocLarge K A (mpAlloc K A frames) pool log size

/-- `mp_calloc`. The `memset` of a large block stays inside that block. -/
def mpCalloc (frames : Nat) (pool : MpPool σ) (log : Log) (size : Nat) : Option (Ret σ) :=
  (mpAlloc K A frames pool log size).map fun r =>
    match r.ptr with
    | none => r
    | some p =>
        if size ≤ pool.max then
          { r with pool := { r.pool with chain := K.write r.pool.chain p size } }
        else r

/-- `mp_memalign`. -/
def mpMemalign (frames : Nat) (pool : MpPool σ) (log : Log) (size alignment : Nat) :
    Option (Ret σ) :=
  match A.request log (.posixMemalign alignment size) with
  | (none, log') => some { ptr := none, pool := pool, log := log' }
  | (some p, log') => recordLarge K (mpAlloc K A frames) pool log' p

/-- The loop of `mp_free`: the first entry with the block `p` loses it. -/
def freeEntry (p : Option Nat) : List MpLarge → Option (Nat × List MpLarge)
  | [] => none
  | large :: rest =>
      if p = large.alloc then some (large.addr, { large with alloc := none } :: rest)
      else (freeEntry p rest).map fun (addr, rest') => (addr, large :: rest')

/-- `mp_free`. A null pointer finds an entry without a block, and `free(NULL)` does nothing. -/
def mpFree (pool : MpPool σ) (log : Log) (p : Option Nat) : State σ :=
  match freeEntry p pool.large with
  | none => { pool := pool, log := log }
  | some (addr, large) =>
      { pool := { pool with chain := K.write pool.chain (addr + 8) 8, large := large }
        log := releaseAll p.toList log }

/-- The blocks of the entries. -/
def largeBlocks (large : List MpLarge) : List Nat := large.filterMap MpLarge.alloc

/-- `mp_reset_pool`. It leaves `current` where it is. -/
def mpResetPool (pool : MpPool σ) (log : Log) : Option (State σ) :=
  (K.reset pool.chain).map fun chain =>
    { pool := { pool with chain := chain, large := [], served := [] }
      log := releaseAll (largeBlocks pool.large) log }

/-- `mp_destory_pool`: the log after the call. -/
def mpDestoryPool (pool : MpPool σ) (log : Log) : Option Log :=
  (K.blocks pool.chain).map fun blocks =>
    releaseAll [pool.base] (releaseAll blocks (releaseAll (largeBlocks pool.large) log))

/-- The operations on a pool. -/
inductive Act where
  | alloc (size : Nat)
  | nalloc (size : Nat)
  | calloc (size : Nat)
  | memalign (size alignment : Nat)
  | free (p : Option Nat)
  | reset

/-- The state that a request leaves behind. -/
def Ret.state (r : Ret σ) : State σ := ⟨r.pool, r.log⟩

/-- One operation. -/
def step (frames : Nat) (s : State σ) : Act → Option (State σ)
  | .alloc size => (mpAlloc K A frames s.pool s.log size).map Ret.state
  | .nalloc size => (mpNalloc K A frames s.pool s.log size).map Ret.state
  | .calloc size => (mpCalloc K A frames s.pool s.log size).map Ret.state
  | .memalign size alignment =>
      (mpMemalign K A frames s.pool s.log size alignment).map Ret.state
  | .free p => some (mpFree K s.pool s.log p)
  | .reset => mpResetPool K s.pool s.log

end Operations

/-! ## The chain as a list -/

/-- An `mp_node_s` at the address `addr`. -/
structure MpNode where
  addr : Nat
  last : Nat
  end_ : Nat
  failed : Nat

/-- The nodes in the order of the chain, head first, and the position of `pool->current`. -/
structure MpChain where
  nodes : List MpNode
  current : Nat

/-- Where a request is placed in a node: `mp_alloc` rounds `last` up, `mp_nalloc` takes it as it is. -/
def place (aligned : Bool) (p : MpNode) : Nat :=
  if aligned then mpAlignPtr p.last mpAlignment else p.last

/-- The `do` loop of `mp_alloc` and `mp_nalloc`: the first node that passes the test serves. -/
def serveFrom (aligned : Bool) (size : Nat) : List MpNode → Option (Nat × List MpNode)
  | [] => none
  | p :: rest =>
      -- the difference is negative when the place lies behind `end`
      if sizeT (p.end_ - place aligned p) ≥ size then
        some (place aligned p, { p with last := place aligned p + size } :: rest)
      else (serveFrom aligned size rest).map fun (m, rest') => (m, p :: rest')

/-- The loop of `mp_alloc_block`: every node but the last is counted as passed over, and `current`
moves behind a node that was passed over more than four times before. -/
def passOver : List MpNode → (position current : Nat) → List MpNode × Nat
  | [], _, current => ([], current)
  -- the last node has no `next`: the loop ends there without counting it
  | [p], _, current => ([p], current)
  | p :: q :: rest, position, current =>
      let passed := passOver (q :: rest) (position + 1) (if p.failed > 4 then position + 1 else current)
      ({ p with failed := p.failed + 1 } :: passed.1, passed.2)

/-- The header that `mp_alloc_block` writes at `m`, with the first `size` bytes handed out. -/
def newNode (m psize size : Nat) : MpNode where
  addr := m
  last := mpAlignPtr (m + sizeofNode) mpAlignment + size
  end_ := m + psize
  failed := 0

/-- The chain after the loop of `mp_alloc_block`, with the node `p` at its end. -/
def addNode (c : MpChain) (p : MpNode) : MpChain where
  nodes := c.nodes.take c.current ++
    (passOver (c.nodes.drop c.current) c.current c.current).1 ++ [p]
  current := (passOver (c.nodes.drop c.current) c.current c.current).2

/-- `mp_alloc_block`. The chain always has its head. -/
def mpAllocBlock (A : Allocator) (size : Nat) (c : MpChain) (log : Log) :
    Option Nat × MpChain × Log :=
  match c.nodes with
  | [] => (none, c, log)
  | h :: _ =>
      -- from the head's header to its end, so a new node has as much room as the head
      let psize := sizeT (h.end_ - h.addr)
      match A.request log (.posixMemalign mpAlignment psize) with
      | (none, log') => (none, c, log')
      | (some m, log') =>
          (some (mpAlignPtr (m + sizeofNode) mpAlignment), addNode c (newNode m psize size), log')

/-- The walk from `current`, then a new block. -/
def serve (A : Allocator) (aligned : Bool) (size : Nat) (c : MpChain) (log : Log) :
    Option Nat × MpChain × Log :=
  match serveFrom aligned size (c.nodes.drop c.current) with
  | some (m, rest) => (some m, { c with nodes := c.nodes.take c.current ++ rest }, log)
  | none => mpAllocBlock A size c log

/-- The head node of a new pool. -/
def headNode (base size : Nat) : MpNode where
  addr := base + sizeofPool
  last := base + sizeofPool + sizeofNode
  end_ := base + sizeofPool + sizeofNode + size
  failed := 0

/-- The chain as a list. Writes to memory that was handed out do not touch it. -/
def listOps : ChainOps MpChain where
  create base size := ⟨[headNode base size], 0⟩
  serve A aligned size c log := some (serve A aligned size c log)
  reset c := some { c with nodes := c.nodes.map fun p => { p with last := p.addr + sizeofNode } }
  blocks c := some (c.nodes.tail.map MpNode.addr)
  write c _ _ := c

end CppMisc.MmPool
