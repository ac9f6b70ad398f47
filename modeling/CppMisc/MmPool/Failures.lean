import CppMisc.MmPool.Termination

/-!
# Failed requests of `mempool/mmpool.c`

A large request first obtains its block and then asks for an entry, which is a small request and may
need a further node. It can fail at each of these points. Whatever fails, a request that returns a null
pointer leaves the pool as it was and has given back every block it obtained.

What is needed of the chain is that a refused small request leaves it alone (`RefusedLeaves`). That holds
for the list of nodes and for the chain in memory, since `mp_alloc_block` writes nothing before its block
is obtained.
-/

set_option autoImplicit false

namespace CppMisc.MmPool

open CppMisc.Library

section Requests

variable {σ : Type} (K : ChainOps σ) (A : Allocator)

/-- What the operation returns, if it is a request. -/
def request (frames : Nat) (s : State σ) : Act → Option (Ret σ)
  | .alloc size => mpAlloc K A frames s.pool s.log size
  | .nalloc size => mpNalloc K A frames s.pool s.log size
  | .calloc size => mpCalloc K A frames s.pool s.log size
  | .memalign size alignment => mpMemalign K A frames s.pool s.log size alignment
  | .free _ => none
  | .reset => none

variable {K A}

/-- A request leaves behind what it returns. -/
theorem step_of_request {frames : Nat} {s : State σ} {a : Act} {r : Ret σ}
    (h : request K A frames s a = some r) : step K A frames s a = some r.state := by
  cases a with
  | alloc size => exact congrArg (Option.map Ret.state) h
  | nalloc size => exact congrArg (Option.map Ret.state) h
  | calloc size => exact congrArg (Option.map Ret.state) h
  | memalign size alignment => exact congrArg (Option.map Ret.state) h
  | free p => cases h
  | reset => cases h

end Requests

/-! ## Calls that cancel out -/

/-- The calls from one log to a later one: every block obtained in them was released, and the live blocks
are the same again. -/
structure Undone (log log' : Log) : Prop where
  calls : ∃ calls, log' = calls ++ log ∧ ∀ a n, .obtained a n ∈ calls → .released a ∈ calls
  live : live log' = live log

theorem undone_refl (log : Log) : Undone log log :=
  ⟨⟨[], rfl, fun _ _ h => absurd h List.not_mem_nil⟩, rfl⟩

theorem undone_refused (log : Log) : Undone log (.refused :: log) :=
  ⟨⟨[.refused], rfl, fun a n h => by simp at h⟩, rfl⟩

/-- A block obtained before calls that cancel out, and released after them. -/
theorem Undone.around {p n : Nat} {log log' : Log} (h : Undone (.obtained p n :: log) log') :
    Undone log (.released p :: log') := by
  obtain ⟨calls, rfl, hcalls⟩ := h.calls
  refine ⟨⟨.released p :: (calls ++ [.obtained p n]), by simp, fun a k hmem => ?_⟩, ?_⟩
  · have hcases : .obtained a k ∈ calls ∨ a = p ∧ k = n := by simpa using hmem
    rcases hcases with hinner | ⟨rfl, -⟩
    · have hreleased := hcalls a k hinner
      simp [hreleased]
    · exact List.mem_cons_self
  · -- the block is the newest live one, so it is the one that goes
    simp [Library.live, h.live]

/-! ## The requests -/

/-- A refused small request leaves the chain alone, and its calls cancel out. -/
def RefusedLeaves {σ : Type} (K : ChainOps σ) : Prop :=
  ∀ (A : Allocator) (aligned : Bool) (size : Nat) (c c' : σ) (log log' : Log),
    K.serve A aligned size c log = some (none, c', log') → c' = c ∧ Undone log log'

/-- A request with a null pointer leaves the pool alone, and its calls cancel out. -/
def NoTrace {σ : Type} (pool : MpPool σ) (log : Log) (r : Ret σ) : Prop :=
  r.ptr = none → r.pool = pool ∧ Undone log r.log

section NoTrace

variable {σ : Type} {K : ChainOps σ} {A : Allocator}

theorem noTrace_mpSmall (hK : RefusedLeaves K) {aligned : Bool} {pool : MpPool σ} {log : Log}
    {size : Nat} {r : Ret σ} (h : mpSmall K A aligned pool log size = some r) :
    NoTrace pool log r := by
  obtain ⟨⟨ptr, chain, log'⟩, hserve, rfl⟩ := Option.map_eq_some_iff.1 h
  intro hnull
  simp only at hnull
  subst hnull
  obtain ⟨rfl, hundone⟩ := hK A aligned size pool.chain chain log log' hserve
  exact ⟨rfl, hundone⟩

/-- The entry for a block that was just obtained. -/
theorem noTrace_recordLarge {alloc : MpPool σ → Log → Nat → Option (Ret σ)} {pool : MpPool σ}
    {log : Log} {p n : Nat} {r : Ret σ}
    (halloc : ∀ inner, alloc pool (.obtained p n :: log) sizeofLarge = some inner →
      NoTrace pool (.obtained p n :: log) inner)
    (h : recordLarge K alloc pool (.obtained p n :: log) p = some r) : NoTrace pool log r := by
  obtain ⟨inner, hinner, rfl⟩ := Option.map_eq_some_iff.1 h
  cases hptr : inner.ptr with
  | none =>
      obtain ⟨hpool, hundone⟩ := halloc inner hinner hptr
      exact fun _ => ⟨hpool, hundone.around⟩
  | some e =>
      intro hnull
      cases hnull

theorem noTrace_mpAllocLarge {alloc : MpPool σ → Log → Nat → Option (Ret σ)} {pool : MpPool σ}
    {log : Log} {size : Nat} {r : Ret σ}
    (halloc : ∀ log' inner, alloc pool log' sizeofLarge = some inner → NoTrace pool log' inner)
    (h : mpAllocLarge K A alloc pool log size = some r) : NoTrace pool log r := by
  simp only [mpAllocLarge, Allocator.request] at h
  cases hanswer : A.answer log (.malloc size) with
  | none =>
      simp only [hanswer] at h
      cases h
      exact fun _ => ⟨rfl, undone_refused log⟩
  | some p =>
      simp only [hanswer] at h
      cases hreuse : reuseEntry p 0 pool.large with
      | some e =>
          simp only [hreuse] at h
          cases h
          intro hnull
          cases hnull
      | none =>
          simp only [hreuse] at h
          exact noTrace_recordLarge (halloc _) h

/-- The recursion goes through `mp_alloc_large`, with one frame less. -/
theorem noTrace_mpAlloc (hK : RefusedLeaves K) (frames : Nat) : ∀ {pool : MpPool σ} {log : Log}
    {size : Nat} {r : Ret σ}, mpAlloc K A frames pool log size = some r → NoTrace pool log r := by
  induction frames with
  | zero =>
      intro pool log size r h
      cases h
  | succ frames ih =>
      intro pool log size r h
      simp only [mpAlloc] at h
      split at h
      · exact noTrace_mpSmall hK h
      · exact noTrace_mpAllocLarge (fun _ _ hinner => ih hinner) h

theorem noTrace_request (hK : RefusedLeaves K) {frames : Nat} {s : State σ} {a : Act} {r : Ret σ}
    (h : request K A frames s a = some r) : NoTrace s.pool s.log r := by
  cases a with
  | alloc size => exact noTrace_mpAlloc hK frames h
  | nalloc size =>
      simp only [request, mpNalloc] at h
      split at h
      · exact noTrace_mpSmall hK h
      · exact noTrace_mpAllocLarge (fun _ _ hinner => noTrace_mpAlloc hK frames hinner) h
  | calloc size =>
      obtain ⟨inner, hinner, rfl⟩ := Option.map_eq_some_iff.1 h
      intro hnull
      cases hptr : inner.ptr with
      | none => exact noTrace_mpAlloc hK frames hinner hptr
      | some p =>
          -- the `memset` comes only after a request that was served
          exfalso
          simp only [hptr] at hnull
          split at hnull
          · cases hnull
          · rw [hptr] at hnull
            cases hnull
  | memalign size alignment =>
      simp only [request, mpMemalign, Allocator.request] at h
      cases hanswer : A.answer s.log (.posixMemalign alignment size) with
      | none =>
          simp only [hanswer] at h
          cases h
          exact fun _ => ⟨rfl, undone_refused s.log⟩
      | some p =>
          simp only [hanswer] at h
          exact noTrace_recordLarge (fun _ hinner => noTrace_mpAlloc hK frames hinner) h
  | free p => cases h
  | reset => cases h

end NoTrace

/-! ## The two chains -/

theorem refusedLeaves_listOps : RefusedLeaves listOps := by
  intro A aligned size c c' log log' h
  have hcases := served_serve A aligned size c log
  rw [Option.some.inj h] at hcases
  cases hcases with
  | noChain _ => exact ⟨rfl, undone_refl log⟩
  | refused g tail _ _ _ => exact ⟨rfl, undone_refused log⟩

theorem refusedLeaves_ptrOps (junk : Nat → NodeCell) (spill : PtrChain → Nat → Nat → PtrChain) :
    RefusedLeaves (ptrOps junk spill) := by
  intro A aligned size c c' log log' h
  simp only [ptrOps, ptrServe] at h
  split at h
  · cases h
  · split at h
    · cases h
    · cases h
    · -- no node has room, so a block is asked for
      simp only [ptrAllocBlock, Allocator.request] at h
      split at h
      · next hrequest =>
          split at hrequest
          · cases hrequest
          · cases hrequest
            cases h
            exact ⟨rfl, undone_refused log⟩
      · split at h
        · cases h
        · obtain ⟨x, -, heq⟩ := Option.map_eq_some_iff.1 h
          cases heq

/-- **Failed requests leave no trace.** Take any allocator, so any pattern of failures, and any state of
a pool. If `mp_alloc`, `mp_nalloc`, `mp_calloc` or `mp_memalign` returns a null pointer, the pool is as it
was before the call, with its chain, `current`, and the list of large blocks; and every block obtained
during the call has been released. This holds for the list of nodes and for the chain in memory. -/
theorem failed_request_leaves_no_trace (A : Allocator) (frames : Nat) (a : Act) :
    (∀ (s : State MpChain) (r : Ret MpChain), request listOps A frames s a = some r → r.ptr = none →
        r.pool = s.pool ∧ Undone s.log r.log) ∧
      ∀ (junk : Nat → NodeCell) (spill : PtrChain → Nat → Nat → PtrChain) (s : State PtrChain)
        (r : Ret PtrChain), request (ptrOps junk spill) A frames s a = some r → r.ptr = none →
          r.pool = s.pool ∧ Undone s.log r.log :=
  ⟨fun _ _ h => noTrace_request refusedLeaves_listOps h,
    fun junk spill _ _ h => noTrace_request (refusedLeaves_ptrOps junk spill) h⟩

/-- The allocator `bump`, except that it refuses the call number `n`. -/
def refusingAt (n : Nat) : Allocator where
  answer log r := if log.length = n then none else bump.answer log r
  fresh := by
    intro log r a h
    split at h
    · cases h
    · exact bump.fresh log r a h

/-- Control: in a full pool of 40 bytes a large request obtains its block, finds no room for the entry and
is refused a further node. It returns a null pointer and gives the block back. -/
theorem failed_request_leaves_no_trace_refusedNode :
    ∃ s t r, mpCreatePool listOps (refusingAt 2) [] 40 = some s ∧
      step listOps (refusingAt 2) 2 s (.alloc 32) = some t ∧
      request listOps (refusingAt 2) 2 t (.alloc 100) = some r ∧
      (r.ptr = none ∧ r.log.length = t.log.length + 3) ∧ r.pool = t.pool ∧ Undone t.log r.log := by
  have hend : ((mpCreatePool listOps (refusingAt 2) [] 40).bind fun s =>
      (step listOps (refusingAt 2) 2 s (.alloc 32)).bind fun t =>
        (request listOps (refusingAt 2) 2 t (.alloc 100)).map fun r =>
          (r.ptr, r.log.length, t.log.length)) = some (none, 4, 1) := by
    decide +kernel
  obtain ⟨s, hcreate, hbind⟩ := Option.bind_eq_some_iff.1 hend
  obtain ⟨t, hstep, hmap⟩ := Option.bind_eq_some_iff.1 hbind
  obtain ⟨r, hrequest, heq⟩ := Option.map_eq_some_iff.1 hmap
  obtain ⟨hnull, hlengths⟩ := Prod.mk.inj heq
  obtain ⟨hlong, hshort⟩ := Prod.mk.inj hlengths
  obtain ⟨hpool, hundone⟩ :=
    (failed_request_leaves_no_trace (refusingAt 2) 2 (.alloc 100)).1 t r hrequest hnull
  exact ⟨s, t, r, hcreate, hstep, hrequest, ⟨hnull, by omega⟩, hpool, hundone⟩

end CppMisc.MmPool
