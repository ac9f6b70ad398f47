import CppMisc.MmPool.Model

/-!
# What a pool operation can do

Every operation of the pool is a path of a few moves: a small request, a block obtained or refused, a
block recorded in an entry or given back, a write to a range that was handed out. Between moves the
pool may hold blocks that no entry records yet, which is the `side` of a `Mid`. An invariant of the
moves is an invariant of the operations, on any chain.

`asks` tells which small request an operation makes. The paths are taken relative to a condition `ok` on
small requests, so that an invariant that depends on what is asked of the chain has the condition at
hand where it needs it.
-/

set_option autoImplicit false

namespace CppMisc.MmPool

open CppMisc.Library

/-- A state inside an operation, with the blocks held on the side. -/
structure Mid (σ : Type) where
  side : List Nat
  pool : MpPool σ
  log : Log

section Moves

variable {σ : Type} (K : ChainOps σ) (A : Allocator) (ok : σ → Bool → Nat → Prop)

/-- The moves. -/
inductive Move : Mid σ → Mid σ → Prop
  | small {side : List Nat} {pool : MpPool σ} {log log' : Log} {chain : σ} {ptr : Option Nat}
      (aligned : Bool) (size : Nat) : size ≤ pool.max → ok pool.chain aligned size →
      K.serve A aligned size pool.chain log = some (ptr, chain, log') →
      Move ⟨side, pool, log⟩ ⟨side, { pool with
        chain := chain
        served := ptr.toList.map (fun start => ⟨start, size⟩) ++ pool.served }, log'⟩
  | obtain_ {side : List Nat} {pool : MpPool σ} {log : Log} {p : Nat} (r : Request) :
      A.answer log r = some p →
      Move ⟨side, pool, log⟩ ⟨p :: side, pool, .obtained p r.size :: log⟩
  | refuse {side : List Nat} {pool : MpPool σ} {log : Log} :
      Move ⟨side, pool, log⟩ ⟨side, pool, .refused :: log⟩
  | giveBack {side : List Nat} {pool : MpPool σ} {log : Log} {p : Nat} :
      Move ⟨p :: side, pool, log⟩ ⟨side, pool, .released p :: log⟩
  | reuse {side : List Nat} {pool : MpPool σ} {log : Log} {p addr : Nat} {large : List MpLarge} :
      reuseEntry p 0 pool.large = some (addr, large) →
      Move ⟨p :: side, pool, log⟩
        ⟨side, { pool with chain := K.write pool.chain (addr + 8) 8, large := large }, log⟩
  | record {side : List Nat} {pool : MpPool σ} {log : Log} {p e : Nat} :
      (sizeofLarge ≤ pool.max → ⟨e, sizeofLarge⟩ ∈ pool.served) →
      (¬ sizeofLarge ≤ pool.max → pool.large ≠ []) →
      Move ⟨p :: side, pool, log⟩ ⟨side, { pool with
        chain := K.write pool.chain e sizeofLarge
        large := ⟨e, some p⟩ :: pool.large }, log⟩
  | clear {side : List Nat} {pool : MpPool σ} {log : Log} {p size : Nat} :
      ⟨p, size⟩ ∈ pool.served →
      Move ⟨side, pool, log⟩ ⟨side, { pool with chain := K.write pool.chain p size }, log⟩
  | free {side : List Nat} {pool : MpPool σ} {log : Log} {p : Option Nat} {addr : Nat}
      {large : List MpLarge} : freeEntry p pool.large = some (addr, large) →
      Move ⟨side, pool, log⟩
        ⟨side, { pool with chain := K.write pool.chain (addr + 8) 8, large := large },
          releaseAll p.toList log⟩
  | reset {side : List Nat} {pool : MpPool σ} {log : Log} {chain : σ} :
      K.reset pool.chain = some chain →
      Move ⟨side, pool, log⟩ ⟨side, { pool with chain := chain, large := [], served := [] },
        releaseAll (largeBlocks pool.large) log⟩

/-- A path of moves. -/
abbrev Path : Mid σ → Mid σ → Prop := Relation.ReflTransGen (Move K A ok)

/-- The small request for an entry. -/
def askEntry (pool : MpPool σ) : Option (Bool × Nat) :=
  if sizeofLarge ≤ pool.max then some (true, sizeofLarge) else none

/-- The small request that `mp_alloc_large` makes. -/
def askLarge (pool : MpPool σ) (log : Log) (size : Nat) : Option (Bool × Nat) :=
  match A.answer log (.malloc size) with
  | none => none
  | some p => if (reuseEntry p 0 pool.large).isSome then none else askEntry pool

/-- The small request that `mp_alloc` or `mp_nalloc` makes. -/
def askAlloc (aligned : Bool) (pool : MpPool σ) (log : Log) (size : Nat) : Option (Bool × Nat) :=
  if size ≤ pool.max then some (aligned, size) else askLarge A pool log size

/-- The small request that an operation makes, if it makes one. -/
def asks (s : State σ) : Act → Option (Bool × Nat)
  | .alloc size => askAlloc A true s.pool s.log size
  | .nalloc size => askAlloc A false s.pool s.log size
  | .calloc size => askAlloc A true s.pool s.log size
  | .memalign size alignment =>
      if (A.answer s.log (.posixMemalign alignment size)).isSome then askEntry s.pool else none
  | .free _ => none
  | .reset => none

variable {K A ok}

/-- A path from the state before a request to the one after it, whatever is held on the side. -/
def Through (K : ChainOps σ) (A : Allocator) (ok : σ → Bool → Nat → Prop) (pool : MpPool σ)
    (log : Log) (r : Ret σ) : Prop :=
  r.pool.max = pool.max ∧ ∀ side, Path K A ok ⟨side, pool, log⟩ ⟨side, r.pool, r.log⟩

theorem through_mpSmall {aligned : Bool} {pool : MpPool σ} {log : Log} {size : Nat} {r : Ret σ}
    (h : mpSmall K A aligned pool log size = some r) (hle : size ≤ pool.max)
    (hok : ok pool.chain aligned size) : Through K A ok pool log r := by
  obtain ⟨⟨ptr, chain, log'⟩, hserve, rfl⟩ := Option.map_eq_some_iff.1 h
  exact ⟨rfl, fun side => .single (.small aligned size hle hok hserve)⟩

/-- What a small request returns is among the ranges served. -/
theorem mem_served_mpSmall {aligned : Bool} {pool : MpPool σ} {log : Log} {size : Nat} {r : Ret σ}
    (h : mpSmall K A aligned pool log size = some r) {p : Nat} (hp : r.ptr = some p) :
    ⟨p, size⟩ ∈ r.pool.served := by
  obtain ⟨⟨ptr, chain, log'⟩, -, rfl⟩ := Option.map_eq_some_iff.1 h
  simp only at hp
  simp [hp]

/-- An inner call for an entry goes along a path. The entry is a range that was served, or else there
are entries already. -/
def EntryCall (K : ChainOps σ) (A : Allocator) (ok : σ → Bool → Nat → Prop)
    (alloc : MpPool σ → Log → Nat → Option (Ret σ)) (pool : MpPool σ) (log : Log) : Prop :=
  ∀ r, alloc pool log sizeofLarge = some r → Through K A ok pool log r ∧
    ∀ e, r.ptr = some e → (sizeofLarge ≤ pool.max → ⟨e, sizeofLarge⟩ ∈ r.pool.served) ∧
      (¬ sizeofLarge ≤ pool.max → r.pool.large ≠ [])

theorem path_recordLarge {alloc : MpPool σ → Log → Nat → Option (Ret σ)} {pool : MpPool σ}
    {log : Log} {p : Nat} {r : Ret σ} (h : recordLarge K alloc pool log p = some r)
    (hcall : EntryCall K A ok alloc pool log) :
    r.pool.max = pool.max ∧
      ∀ side, Path K A ok ⟨p :: side, pool, log⟩ ⟨side, r.pool, r.log⟩ := by
  obtain ⟨inner, hinner, rfl⟩ := Option.map_eq_some_iff.1 h
  obtain ⟨⟨hmax, hpath⟩, hentry⟩ := hcall inner hinner
  -- the block stays on the side during the inner call
  cases hptr : inner.ptr with
  | none => exact ⟨hmax, fun side => (hpath (p :: side)).tail .giveBack⟩
  | some e =>
      obtain ⟨hserved, hlarge⟩ := hentry e hptr
      exact ⟨hmax, fun side => (hpath (p :: side)).tail
        (.record (fun hle => hserved (hmax ▸ hle)) fun hle => hlarge (hmax ▸ hle))⟩

theorem through_mpAllocLarge {alloc : MpPool σ → Log → Nat → Option (Ret σ)} {pool : MpPool σ}
    {log : Log} {size : Nat} {r : Ret σ} (h : mpAllocLarge K A alloc pool log size = some r)
    (hcall : ∀ p, A.answer log (.malloc size) = some p → reuseEntry p 0 pool.large = none →
      EntryCall K A ok alloc pool (.obtained p size :: log)) : Through K A ok pool log r := by
  simp only [mpAllocLarge, Allocator.request] at h
  cases hanswer : A.answer log (.malloc size) with
  | none =>
      simp only [hanswer] at h
      cases h
      exact ⟨rfl, fun side => .single .refuse⟩
  | some p =>
      simp only [hanswer] at h
      have hobtain : ∀ side,
          Path K A ok ⟨side, pool, log⟩ ⟨p :: side, pool, .obtained p size :: log⟩ :=
        fun side => .single (.obtain_ (.malloc size) hanswer)
      cases hreuse : reuseEntry p 0 pool.large with
      | some e =>
          simp only [hreuse] at h
          cases h
          exact ⟨rfl, fun side => (hobtain side).tail (.reuse hreuse)⟩
      | none =>
          simp only [hreuse] at h
          obtain ⟨hmax, hpath⟩ := path_recordLarge h (hcall p hanswer hreuse)
          exact ⟨hmax, fun side => (hobtain side).trans (hpath side)⟩

/-- A large block that was obtained is in an entry. -/
theorem large_ne_nil_of_mpAllocLarge {alloc : MpPool σ → Log → Nat → Option (Ret σ)}
    {pool : MpPool σ} {log : Log} {size p : Nat} {r : Ret σ}
    (h : mpAllocLarge K A alloc pool log size = some r) (hp : r.ptr = some p) :
    r.pool.large ≠ [] := by
  simp only [mpAllocLarge] at h
  split at h
  · cases h
    cases hp
  · split at h
    · next addr large hreuse =>
        cases h
        rintro rfl
        revert hreuse
        cases pool.large with
        | nil => simp [reuseEntry]
        | cons e rest =>
            simp only [reuseEntry]
            split
            · simp
            · split
              · simp
              · simp
    · obtain ⟨inner, -, rfl⟩ := Option.map_eq_some_iff.1 h
      cases hptr : inner.ptr with
      | none =>
          simp only [hptr] at hp
          cases hp
      | some e => simp

/-- The condition on the small request `ask`, where there is one. -/
def Asked (ok : σ → Bool → Nat → Prop) (chain : σ) (ask : Option (Bool × Nat)) : Prop :=
  ∀ aligned size, ask = some (aligned, size) → ok chain aligned size

instance (ok : σ → Bool → Nat → Prop) [∀ c aligned size, Decidable (ok c aligned size)] (chain : σ) :
    ∀ ask, Decidable (Asked ok chain ask)
  | none => isTrue fun _ _ h => nomatch h
  | some (aligned, size) => decidable_of_iff (ok chain aligned size)
      ⟨fun h _ _ heq => by cases heq; exact h, fun h => h aligned size rfl⟩

/-- Without room in the existing entries, `mp_alloc_large` asks for a new one. -/
theorem askLarge_eq {pool : MpPool σ} {log : Log} {size p : Nat}
    (hanswer : A.answer log (.malloc size) = some p) (hreuse : reuseEntry p 0 pool.large = none) :
    askLarge A pool log size = askEntry pool := by
  simp [askLarge, hanswer, hreuse]

/-- The inner call either is a small request or asks for nothing small at all. -/
theorem askAlloc_sizeofLarge {pool : MpPool σ} {log : Log} {ask : Bool × Nat}
    (h : askAlloc A true pool log sizeofLarge = some ask) : askEntry pool = some ask := by
  simp only [askAlloc] at h
  split at h
  · next hle => rwa [askEntry, if_pos hle]
  · next hle =>
      simp only [askLarge, askEntry, if_neg hle] at h
      split at h
      · cases h
      · simp at h

/-- The inner call of `mp_alloc`, given that requests with `frames` go along paths. -/
theorem entryCall_of_through {frames : Nat} {pool : MpPool σ} {log : Log}
    (hthrough : ∀ {r : Ret σ}, mpAlloc K A frames pool log sizeofLarge = some r →
      Asked ok pool.chain (askAlloc A true pool log sizeofLarge) → Through K A ok pool log r)
    (hok : Asked ok pool.chain (askEntry pool)) :
    EntryCall K A ok (mpAlloc K A frames) pool log := by
  intro r hr
  refine ⟨hthrough hr fun aligned n hask => hok aligned n (askAlloc_sizeofLarge hask), ?_⟩
  intro e he
  cases frames with
  | zero => cases hr
  | succ frames =>
      -- the inner call is a small request, unless the pool is too small for an entry
      constructor
      · intro hle
        simp only [mpAlloc, if_pos hle] at hr
        exact mem_served_mpSmall hr he
      · intro hle
        simp only [mpAlloc, if_neg hle] at hr
        exact large_ne_nil_of_mpAllocLarge hr he

theorem through_mpAlloc (frames : Nat) : ∀ {pool : MpPool σ} {log : Log} {size : Nat} {r : Ret σ},
    mpAlloc K A frames pool log size = some r →
      Asked ok pool.chain (askAlloc A true pool log size) → Through K A ok pool log r := by
  induction frames with
  | zero =>
      intro pool log size r h _
      cases h
  | succ frames ih =>
      intro pool log size r h hok
      simp only [mpAlloc] at h
      simp only [askAlloc] at hok
      split at h
      · next hle =>
          rw [if_pos hle] at hok
          exact through_mpSmall h hle (hok true size rfl)
      · next hlarge =>
          rw [if_neg hlarge] at hok
          refine through_mpAllocLarge h fun p hanswer hreuse => ?_
          rw [askLarge_eq hanswer hreuse] at hok
          -- the recursion through `mp_alloc_large` has one frame less
          exact entryCall_of_through ih hok

theorem entryCall_mpAlloc (frames : Nat) {pool : MpPool σ} {log : Log}
    (hok : Asked ok pool.chain (askEntry pool)) : EntryCall K A ok (mpAlloc K A frames) pool log :=
  entryCall_of_through (through_mpAlloc frames) hok

theorem through_mpNalloc {frames : Nat} {pool : MpPool σ} {log : Log} {size : Nat} {r : Ret σ}
    (h : mpNalloc K A frames pool log size = some r)
    (hok : Asked ok pool.chain (askAlloc A false pool log size)) : Through K A ok pool log r := by
  simp only [mpNalloc] at h
  simp only [askAlloc] at hok
  split at h
  · next hle =>
      rw [if_pos hle] at hok
      exact through_mpSmall h hle (hok false size rfl)
  · next hlarge =>
      rw [if_neg hlarge] at hok
      refine through_mpAllocLarge h fun p hanswer hreuse => ?_
      rw [askLarge_eq hanswer hreuse] at hok
      exact entryCall_mpAlloc frames hok

theorem through_mpCalloc {frames : Nat} {pool : MpPool σ} {log : Log} {size : Nat} {r : Ret σ}
    (h : mpCalloc K A frames pool log size = some r)
    (hok : Asked ok pool.chain (askAlloc A true pool log size)) : Through K A ok pool log r := by
  obtain ⟨inner, hinner, rfl⟩ := Option.map_eq_some_iff.1 h
  obtain ⟨hmax, hpath⟩ := through_mpAlloc frames hinner hok
  cases hptr : inner.ptr with
  | none => exact ⟨hmax, hpath⟩
  | some p =>
      simp only
      split
      · next hle =>
          -- the `memset` is over the range just served
          refine ⟨hmax, fun side => (hpath side).tail (.clear ?_)⟩
          cases frames with
          | zero => cases hinner
          | succ frames =>
              simp only [mpAlloc, if_pos hle] at hinner
              exact mem_served_mpSmall hinner hptr
      · exact ⟨hmax, hpath⟩

theorem through_mpMemalign {frames : Nat} {pool : MpPool σ} {log : Log} {size alignment : Nat}
    {r : Ret σ} (h : mpMemalign K A frames pool log size alignment = some r)
    (hok : Asked ok pool.chain (if (A.answer log (.posixMemalign alignment size)).isSome then
      askEntry pool else none)) : Through K A ok pool log r := by
  simp only [mpMemalign, Allocator.request] at h
  cases hanswer : A.answer log (.posixMemalign alignment size) with
  | none =>
      simp only [hanswer] at h
      cases h
      exact ⟨rfl, fun side => .single .refuse⟩
  | some p =>
      simp only [hanswer] at h hok
      rw [Option.isSome_some, if_pos rfl] at hok
      obtain ⟨hmax, hpath⟩ := path_recordLarge h (entryCall_mpAlloc frames hok)
      exact ⟨hmax, fun side => (Relation.ReflTransGen.single
        (.obtain_ (.posixMemalign alignment size) hanswer)).trans (hpath side)⟩

/-- Every operation is a path of moves, if the small request it makes meets the condition. -/
theorem path_of_step {frames : Nat} {s s' : State σ} {a : Act} (h : step K A frames s a = some s')
    (hok : Asked ok s.pool.chain (asks A s a)) :
    s'.pool.max = s.pool.max ∧ Path K A ok ⟨[], s.pool, s.log⟩ ⟨[], s'.pool, s'.log⟩ := by
  have hrequest : ∀ {o : Option (Ret σ)}, o.map Ret.state = some s' →
      (∀ r, o = some r → Through K A ok s.pool s.log r) →
      s'.pool.max = s.pool.max ∧ Path K A ok ⟨[], s.pool, s.log⟩ ⟨[], s'.pool, s'.log⟩ := by
    intro o ho hthrough
    obtain ⟨r, hr, rfl⟩ := Option.map_eq_some_iff.1 ho
    obtain ⟨hmax, hpath⟩ := hthrough r hr
    exact ⟨hmax, hpath []⟩
  cases a with
  | alloc size => exact hrequest h fun r hr => through_mpAlloc frames hr hok
  | nalloc size => exact hrequest h fun r hr => through_mpNalloc hr hok
  | calloc size => exact hrequest h fun r hr => through_mpCalloc hr hok
  | memalign size alignment => exact hrequest h fun r hr => through_mpMemalign hr hok
  | free p =>
      simp only [step, Option.some.injEq] at h
      subst h
      simp only [mpFree]
      cases hfree : freeEntry p s.pool.large with
      | none => exact ⟨rfl, .refl⟩
      | some e => exact ⟨rfl, .single (.free hfree)⟩
  | reset =>
      obtain ⟨chain, hchain, rfl⟩ := Option.map_eq_some_iff.1 h
      exact ⟨rfl, .single (.reset hchain)⟩

/-- What `mp_create_pool` leaves behind. -/
theorem mpCreatePool_cases {size : Nat} {s : State σ} (h : mpCreatePool K A [] size = some s) :
    ∃ p, A.answer [] (.posixMemalign mpAlignment (sizeT (size + sizeofPool + sizeofNode))) = some p ∧
      s = ⟨⟨p, if size < mpMaxAllocFromPool then size else mpMaxAllocFromPool, K.create p size, [], []⟩,
        [.obtained p (sizeT (size + sizeofPool + sizeofNode))]⟩ := by
  simp only [mpCreatePool, Allocator.request] at h
  cases hanswer : A.answer []
      (.posixMemalign mpAlignment (sizeT (size + sizeofPool + sizeofNode))) with
  | none =>
      simp only [hanswer] at h
      cases h
  | some p =>
      simp only [hanswer, Option.some.injEq] at h
      exact ⟨p, rfl, h.symm⟩

/-- An invariant of the moves is an invariant of the paths. -/
theorem Path.invariant {P : Mid σ → Prop} {m m' : Mid σ} (h : Path K A ok m m')
    (hmove : ∀ m m', P m → Move K A ok m m' → P m') (hm : P m) : P m' := by
  induction h with
  | refl => exact hm
  | tail _ hlast ih => exact hmove _ _ ih hlast

end Moves

end CppMisc.MmPool
