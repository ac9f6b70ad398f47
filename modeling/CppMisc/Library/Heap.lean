import Mathlib.Tactic
import Mathlib.Data.List.Perm.Basic

/-!
# A heap as the log of its calls

A program obtains blocks from an allocator and hands them back to `free`. The heap is the log of these
calls, newest first. `live` computes the blocks that are still held, and `Faultless` says that every
address passed to `free` was the address of a live block at that moment, so nothing is freed twice and
nothing is freed that was not obtained.

The allocator itself is any function from the log and the request to an answer (`Allocator`), so a
statement about every allocator covers every pattern of successes and failures. `Ledger log held` ties
the log to the addresses a program knows about: the calls so far are faultless and the live blocks are
exactly those in `held`. There is one rule for each kind of call.

A program that cuts blocks off a region by moving a pointer through it keeps them `Packed` between the
start of the region and that pointer.
-/

set_option autoImplicit false

namespace CppMisc.Library

/-- A block of memory. -/
structure Block where
  addr : Nat
  size : Nat

/-- A call that asks for memory. -/
inductive Request where
  | malloc (size : Nat)
  | posixMemalign (alignment size : Nat)

namespace Request

/-- The number of bytes asked for. -/
def size : Request → Nat
  | malloc n => n
  | posixMemalign _ n => n

/-- The alignment asked for; `malloc` aligns for every basic type. -/
def alignment : Request → Nat
  | malloc _ => 16
  | posixMemalign al _ => al

end Request

/-- A call and its outcome. -/
inductive Event where
  | obtained (addr size : Nat)
  | refused
  | released (addr : Nat)

/-- The calls so far, newest first. -/
abbrev Log := List Event

/-- The blocks that were obtained and not yet released. -/
def live : Log → List Block
  | [] => []
  | .obtained a n :: log => ⟨a, n⟩ :: live log
  | .refused :: log => live log
  | .released a :: log => (live log).eraseP fun b => b.addr == a

/-- The addresses of the live blocks. -/
def liveAddrs (log : Log) : List Nat := (live log).map Block.addr

/-- Every released address was that of a live block. -/
def Faultless : Log → Prop
  | [] => True
  | .obtained _ _ :: log => Faultless log
  | .refused :: log => Faultless log
  | .released a :: log => a ∈ liveAddrs log ∧ Faultless log

/-- How often a block at `a` was obtained. -/
def obtainedNum (a : Nat) : Log → Nat
  | [] => 0
  | .obtained b _ :: log => (if b = a then 1 else 0) + obtainedNum a log
  | .refused :: log => obtainedNum a log
  | .released _ :: log => obtainedNum a log

/-- How often `a` was passed to `free`. -/
def releasedNum (a : Nat) : Log → Nat
  | [] => 0
  | .obtained _ _ :: log => releasedNum a log
  | .refused :: log => releasedNum a log
  | .released b :: log => (if b = a then 1 else 0) + releasedNum a log

/-- `free` for a list of addresses in order. -/
def releaseAll : List Nat → Log → Log
  | [], log => log
  | a :: as, log => releaseAll as (.released a :: log)

theorem liveAddrs_released (a : Nat) (log : Log) :
    liveAddrs (.released a :: log) = (liveAddrs log).erase a := by
  simp only [liveAddrs, live, List.erase_eq_eraseP', List.eraseP_map]
  rfl

/-- In a faultless log the obtained blocks at an address are the released ones and the live one. -/
theorem obtainedNum_eq {log : Log} (h : Faultless log) (a : Nat) :
    obtainedNum a log = releasedNum a log + (liveAddrs log).count a := by
  induction log with
  | nil => rfl
  | cons e log ih =>
      cases e with
      | obtained b n =>
          have heq := ih h
          simp only [obtainedNum, releasedNum, liveAddrs, live, List.map_cons,
            List.count_cons, beq_iff_eq] at heq ⊢
          omega
      | refused => exact ih h
      | released b =>
          have heq := ih h.2
          have hmem := h.1
          simp only [obtainedNum, releasedNum, liveAddrs_released]
          rcases eq_or_ne b a with rfl | hne
          · have hpos := List.count_pos_iff.2 hmem
            rw [List.count_erase_self, if_pos rfl]
            omega
          · rw [List.count_erase_of_ne (Ne.symm hne), if_neg hne]
            omega

/-! ## Allocators -/

/-- An allocator that never hands out the address of a live block. -/
structure Allocator where
  answer : Log → Request → Option Nat
  fresh : ∀ (log : Log) (r : Request) (a : Nat), answer log r = some a → a ∉ liveAddrs log

/-- The outcome of a request and the log after it. -/
def Allocator.request (A : Allocator) (log : Log) (r : Request) : Option Nat × Log :=
  match A.answer log r with
  | some a => (some a, .obtained a r.size :: log)
  | none => (none, .refused :: log)

/-- An allocator whose blocks are aligned as asked for and disjoint from every live block. -/
structure AlignedAllocator extends Allocator where
  aligned : ∀ (log : Log) (r : Request) (a : Nat), answer log r = some a → r.alignment ∣ a
  disjoint : ∀ (log : Log) (r : Request) (a : Nat), answer log r = some a →
    ∀ b ∈ live log, b.addr + b.size ≤ a ∨ a + r.size ≤ b.addr

/-- The first address above everything obtained so far. -/
def top : Log → Nat
  | [] => 0
  | .obtained a n :: log => max (a + n) (top log)
  | .refused :: log => top log
  | .released _ :: log => top log

theorem le_top {log : Log} {b : Block} (h : b ∈ live log) : b.addr + b.size ≤ top log := by
  induction log with
  | nil => cases h
  | cons e log ih =>
      cases e with
      | obtained a n =>
          rcases List.mem_cons.1 h with rfl | h
          · exact le_max_left _ _
          · exact (ih h).trans (le_max_right _ _)
      | refused => exact ih h
      | released a => exact ih (List.mem_of_mem_eraseP h)

theorem lt_roundUp (n : Nat) {al : Nat} (h : 0 < al) : n < al * (n / al + 1) := by
  have hmod := Nat.mod_lt n h
  have hdiv := Nat.div_add_mod n al
  rw [Nat.mul_add, Nat.mul_one]
  omega

/-- The allocator that places every block above all earlier ones and never fails. -/
def bump : AlignedAllocator where
  answer log r :=
    if r.alignment = 0 then none else some (r.alignment * (top log / r.alignment + 1))
  fresh := by
    intro log r a h hmem
    split at h
    · cases h
    · next hal =>
        cases h
        obtain ⟨b, hb, haddr⟩ := List.mem_map.1 hmem
        have hle := le_top hb
        have hlt := lt_roundUp (top log) (Nat.pos_of_ne_zero hal)
        omega
  aligned := by
    intro log r a h
    split at h
    · cases h
    · cases h
      exact Nat.dvd_mul_right _ _
  disjoint := by
    intro log r a h b hb
    split at h
    · cases h
    · next hal =>
        cases h
        have hle := le_top hb
        have hlt := lt_roundUp (top log) (Nat.pos_of_ne_zero hal)
        exact .inl (by omega)

/-! ## Ledgers -/

/-- The log is faultless and its live blocks are exactly those at the addresses `held`. -/
structure Ledger (log : Log) (held : List Nat) : Prop where
  faultless : Faultless log
  perm : (liveAddrs log).Perm held
  nodup : held.Nodup

theorem ledger_nil : Ledger [] [] := ⟨trivial, .nil, .nil⟩

variable {log : Log} {held held' : List Nat}

theorem Ledger.of_perm (h : Ledger log held) (hp : held.Perm held') : Ledger log held' :=
  ⟨h.faultless, h.perm.trans hp, hp.nodup_iff.1 h.nodup⟩

theorem ledger_refused (h : Ledger log held) : Ledger (.refused :: log) held :=
  ⟨h.faultless, h.perm, h.nodup⟩

theorem ledger_obtained (h : Ledger log held) {a : Nat} (n : Nat) (ha : a ∉ liveAddrs log) :
    Ledger (.obtained a n :: log) (a :: held) :=
  ⟨h.faultless, h.perm.cons a, List.nodup_cons.2 ⟨fun hmem => ha (h.perm.mem_iff.2 hmem), h.nodup⟩⟩

theorem ledger_released {a : Nat} (h : Ledger log (a :: held)) :
    Ledger (.released a :: log) held := by
  have hmem : a ∈ liveAddrs log := h.perm.mem_iff.2 List.mem_cons_self
  refine ⟨⟨hmem, h.faultless⟩, ?_, (List.nodup_cons.1 h.nodup).2⟩
  rw [liveAddrs_released]
  have herase := h.perm.erase a
  rwa [List.erase_cons_head] at herase

theorem ledger_releaseAll (as : List Nat) : ∀ {log : Log}, Ledger log (as ++ held) →
    Ledger (releaseAll as log) held := by
  induction as with
  | nil =>
      intro log h
      exact h
  | cons a as ih =>
      intro log h
      exact ih (ledger_released h)

/-- With nothing held any more, every address was released as often as it was obtained. -/
theorem Ledger.obtainedNum_eq_releasedNum (h : Ledger log []) (a : Nat) :
    obtainedNum a log = releasedNum a log := by
  rw [obtainedNum_eq h.faultless, List.perm_nil.1 h.perm, List.count_nil, Nat.add_zero]

/-! ## Separate blocks -/

/-- No byte belongs to both blocks. -/
def Apart (b c : Block) : Prop := b.addr + b.size ≤ c.addr ∨ c.addr + c.size ≤ b.addr

instance : Std.Symm Apart := ⟨fun _ _ h => Or.symm h⟩

/-- The live blocks do not overlap. -/
def Separate (log : Log) : Prop := (live log).Pairwise Apart

theorem Separate.apart (h : Separate log) {b c : Block} (hb : b ∈ live log) (hc : c ∈ live log)
    (hne : b ≠ c) : Apart b c :=
  List.Pairwise.forall h hb hc hne

theorem separate_obtained {A : AlignedAllocator} {r : Request} {a : Nat} (h : Separate log)
    (ha : A.answer log r = some a) : Separate (.obtained a r.size :: log) := by
  refine List.pairwise_cons.2 ⟨fun b hb => ?_, h⟩
  rcases A.disjoint log r a ha b hb with hle | hle
  · exact .inr hle
  · exact .inl hle

theorem separate_releaseAll (as : List Nat) : ∀ {log : Log}, Separate log →
    Separate (releaseAll as log) := by
  induction as with
  | nil =>
      intro log h
      exact h
  | cons a as ih =>
      intro log h
      exact ih (h.sublist List.eraseP_sublist)

/-- Releasing other addresses leaves a block live. -/
theorem mem_live_releaseAll {b : Block} (as : List Nat) : ∀ {log : Log}, b ∈ live log →
    b.addr ∉ as → b ∈ live (releaseAll as log) := by
  induction as with
  | nil =>
      intro log hb _
      exact hb
  | cons a as ih =>
      intro log hb hnot
      have hne : b.addr ≠ a := fun he => hnot (he ▸ List.mem_cons_self)
      have hrest : b.addr ∉ as := fun hmem => hnot (List.mem_cons_of_mem a hmem)
      exact ih ((List.mem_eraseP_of_neg (by simpa using hne)).2 hb) hrest

/-! ## Blocks cut off a region -/

/-- The blocks lie between `low` and `last` and do not overlap. -/
structure Packed (low last : Nat) (blocks : List Block) : Prop where
  le : low ≤ last
  within : ∀ b ∈ blocks, low ≤ b.addr ∧ b.addr + b.size ≤ last
  apart : blocks.Pairwise Apart

theorem packed_nil {low last : Nat} (h : low ≤ last) : Packed low last [] :=
  ⟨h, fun _ hb => absurd hb List.not_mem_nil, .nil⟩

variable {low last : Nat} {blocks : List Block}

/-- A block cut off at or behind `last`, which moves to its end. -/
theorem Packed.cut (h : Packed low last blocks) {start : Nat} (hstart : last ≤ start) (size : Nat) :
    Packed low (start + size) (⟨start, size⟩ :: blocks) := by
  have hle := h.le
  refine ⟨by omega, fun b hb => ?_, List.pairwise_cons.2 ⟨fun b hb => ?_, h.apart⟩⟩
  · rcases List.mem_cons.1 hb with rfl | hb
    · exact ⟨hle.trans hstart, le_rfl⟩
    · obtain ⟨hlow, hlast⟩ := h.within b hb
      exact ⟨hlow, by omega⟩
  · obtain ⟨-, hlast⟩ := h.within b hb
    exact .inr (hlast.trans hstart)

/-- What lies in front of the region is apart from its blocks. -/
theorem Packed.apart_front (h : Packed low last blocks) {b : Block} (hb : b ∈ blocks) {c : Block}
    (hc : c.addr + c.size ≤ low) : Apart c b :=
  .inl (hc.trans (h.within b hb).1)

end CppMisc.Library
