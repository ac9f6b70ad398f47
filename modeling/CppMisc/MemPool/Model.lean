import CppMisc.Library.Runs
import CppMisc.Library.Heap
import CppMisc.Library.Chains
import CppMisc.MmPool.Model

/-!
# The memory pool of `mempool/mem_pool.c`

A pool is one block with an `mp_pool_s`, the head node and its data area. `mp_create` makes the head the
current node and no function assigns `current` again, so requests of up to a page are served from the
head alone, as long as its test passes; then the function ends without a `return` (`noValue`). Nothing
calls `mp_alloc_block`. The counter `failed_times` only steers a local variable of it, which is not
stored, and `max` is not used, so both are left out.

Requests above a page go to `posix_memalign` and are recorded in an `mp_large_s`, which is itself a small
request. The entries are in memory, linked by their `next` fields from the field `large` of the pool.

Besides the pool and the heap a state records the ranges and the large blocks that were handed out. A
result `none` of a call means that it goes on with a pointer that it does not have.
-/

set_option autoImplicit false

namespace CppMisc.MemPool

open CppMisc.Library
open CppMisc.MmPool (sizeT)

/-- `sizeof(mp_pool_t)`. -/
def sizeofPool : Nat := 32

/-- `sizeof(mp_node_t)`. -/
def sizeofNode : Nat := 32

/-- `sizeof(mp_large_t)`. -/
def sizeofLarge : Nat := 16

/-- `MP_ALIGNMENT`. -/
def mpAlignment : Nat := 32

/-- `MP_PAGE_SIZE`. -/
def mpPageSize : Nat := 4096

/-- An `mp_node_s` at the address `addr`. -/
structure MpNode where
  addr : Nat
  last : Nat
  end_ : Nat

/-- An `mp_large_s`. -/
structure MpLarge where
  next : Option Nat
  alloc : Option Nat

/-- An `mp_pool_s` with its nodes, and the memory of the entries. -/
structure MpPool where
  head : MpNode
  /-- The nodes behind the head, in the order of the chain. -/
  behind : List MpNode
  large : Option Nat
  entries : Nat → MpLarge

/-- The node chain. -/
def MpPool.chain (mp : MpPool) : List MpNode := mp.head :: mp.behind

/-- What the caller of `mp_alloc` gets. -/
inductive Result where
  | value (p : Option Nat)
  /-- The function ends without a `return`. -/
  | noValue

/-- What a call returns and leaves behind. -/
structure Ret where
  result : Result
  pool : MpPool
  log : Log

/-- A pool, the heap, and what was handed out. -/
structure State where
  pool : MpPool
  log : Log
  served : List Block
  handed : List Nat

section Operations

variable (A : Allocator)

/-- `mp_alloc_block`. It does not use its argument `size`. -/
def mpAllocBlock (mp : MpPool) (log : Log) : Option Nat × MpPool × Log :=
  match A.request log (.posixMemalign mpAlignment mpPageSize) with
  | (none, log') => (none, mp, log')
  | (some block, log') =>
      (some block, { mp with
        behind := mp.behind ++ [⟨block, block + sizeofNode, block + mpPageSize⟩] }, log')

/-- `mp_create`, with the memory `junk` for the entries. -/
def mpCreate (junk : Nat → MpLarge) (log : Log) (size : Nat) : Option State :=
  match A.request log (.posixMemalign mpAlignment (sizeT (sizeofPool + size))) with
  | (none, _) => none
  | (some mp, log') =>
      some {
        pool := {
          head := ⟨mp + sizeofPool, mp + sizeofPool + sizeofNode, mp + size⟩
          behind := []
          large := none
          entries := junk }
        log := log'
        served := []
        handed := [] }

/-- `mp_alloc` for a size of up to a page less a header: the test of the current node. -/
def mpAllocSmall (mp : MpPool) (log : Log) (size : Nat) : Ret :=
  -- the difference of pointers is compared with a `size_t`, so it is converted
  if sizeT (mp.head.end_ - mp.head.last) ≥ size then
    { result := .value (some mp.head.last)
      pool := { mp with head := { mp.head with last := mp.head.last + size } }
      log := log }
  else { result := .noValue, pool := mp, log := log }

/-- The loop of `mp_alloc_large`: the first entry without a block. -/
def emptyEntry (entries : Nat → MpLarge) : (rounds : Nat) → Option Nat → Option (Option Nat)
  | 0, _ => none
  | _ + 1, none => some none
  | rounds + 1, some large =>
      match (entries large).alloc with
      | none => some (some large)
      | some _ => emptyEntry entries rounds (entries large).next

/-- `mp_alloc_large`. -/
def mpAllocLarge (mp : MpPool) (log : Log) (size : Nat) : Option Ret :=
  match A.request log (.posixMemalign mpAlignment size) with
  | (none, log') => some { result := .value none, pool := mp, log := log' }
  | (some m, log') =>
      -- every entry was made for a block, so the log bounds their number
      match emptyEntry mp.entries (log'.length + 1) mp.large with
      | none => none
      | some (some large) =>
          some {
            result := .value (some m)
            pool := { mp with
              entries := Function.update mp.entries large { mp.entries large with alloc := some m } }
            log := log' }
      | some none =>
          -- `sizeof(mp_large_t)` is a small size
          let r := mpAllocSmall mp log' sizeofLarge
          match r.result with
          | .value (some large) =>
              -- the entry points to the list, but `mp->large` stays what it is
              some {
                result := .value (some m)
                pool := { r.pool with
                  entries := Function.update mp.entries large { next := mp.large, alloc := some m } }
                log := r.log }
          | _ => none

/-- `mp_alloc`. -/
def mpAlloc (mp : MpPool) (log : Log) (size : Nat) : Option Ret :=
  if size > mpPageSize - sizeofNode then mpAllocLarge A mp log size
  else some (mpAllocSmall mp log size)

/-- One call of `mp_alloc`. -/
def step (s : State) (size : Nat) : Option State :=
  (mpAlloc A s.pool s.log size).map fun r =>
    let ptrs := match r.result with
      | .value p => p.toList
      | .noValue => []
    { pool := r.pool
      log := r.log
      served := if size > mpPageSize - sizeofNode then s.served
        else ptrs.map (fun p => ⟨p, size⟩) ++ s.served
      handed := if size > mpPageSize - sizeofNode then ptrs ++ s.handed else s.handed }

end Operations

end CppMisc.MemPool
