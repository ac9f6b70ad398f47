import Mathlib.Tactic

/-!
# Byte memory

A region of memory is a function from offsets to bytes, as a C program sees it through a `char *`:
nothing marks the end of what was written. `store` copies a list of bytes to an offset, `fill` sets a
range to one byte, `load` reads a range back as a list, and `strlen` looks for the next zero byte.

`Holds m off bs` says that the bytes `bs` stand at `off`. A list that was stored stands where it was
stored (`holds_store`), its parts stand behind one another (`holds_append_iff`), and `load_store` and
`load_eq_iff` connect ranges with lists.
-/

set_option autoImplicit false

namespace CppMisc.Library

/-- The bytes that a pointer can reach, by their distance from it. -/
def Memory := Nat → UInt8

namespace Memory

variable {m m' : Memory} {off len a : Nat} {bs cs : List UInt8}

/-- Memory that holds only zeros. -/
def zeroed : Memory := fun _ => 0

/-- The `len` bytes from `off` on. -/
def load (m : Memory) (off len : Nat) : List UInt8 := (List.range len).map fun i => m (off + i)

/-- `memcpy`: the bytes `bs` are written from `off` on. -/
def store (m : Memory) (off : Nat) (bs : List UInt8) : Memory :=
  fun a => if off ≤ a then (bs[a - off]?).getD (m a) else m a

/-- `memset`: `len` bytes from `off` on become `b`. -/
def fill (m : Memory) (off len : Nat) (b : UInt8) : Memory :=
  fun a => if off ≤ a ∧ a < off + len then b else m a

/-- `strlen`: the number of bytes from `off` up to the next zero byte, which is looked for among the next
`bound` bytes. -/
def strlen (m : Memory) (off : Nat) : Nat → Nat
  | 0 => 0
  | bound + 1 => if m off = 0 then 0 else strlen m (off + 1) bound + 1

/-- The bytes `bs` stand at `off`. -/
def Holds (m : Memory) (off : Nat) (bs : List UInt8) : Prop :=
  ∀ i (h : i < bs.length), m (off + i) = bs[i]

/-- One byte is written. -/
def put (m : Memory) (off : Nat) (b : UInt8) : Memory := fun a => if a = off then b else m a

@[simp] theorem length_load (m : Memory) (off len : Nat) : (m.load off len).length = len := by
  simp [load]

@[simp] theorem getElem_load (m : Memory) (off len i : Nat) (h : i < (m.load off len).length) :
    (m.load off len)[i] = m (off + i) := by
  simp [load]

/-- A range holds the list `bs` when it does byte by byte. -/
theorem load_eq_iff : m.load off bs.length = bs ↔ ∀ i (h : i < bs.length), m (off + i) = bs[i] := by
  constructor
  · intro h i hi
    have hbyte := List.getElem_of_eq h (by simpa using hi)
    simpa using hbyte
  · intro h
    refine List.ext_getElem (by simp) fun i _ hi => ?_
    simpa using h i hi

/-- Two memories that agree on a range load the same bytes from it. -/
theorem load_congr (h : ∀ i < len, m (off + i) = m' (off + i)) : m.load off len = m'.load off len := by
  refine List.ext_getElem (by simp) fun i hi _ => ?_
  simpa using h i (by simpa using hi)

theorem load_add (m : Memory) (off n k : Nat) :
    m.load off (n + k) = m.load off n ++ m.load (off + n) k := by
  simp [load, List.range_add, Function.comp_def, Nat.add_assoc]

theorem store_inside (h₁ : off ≤ a) (h₂ : a - off < bs.length) :
    m.store off bs a = bs[a - off] := by
  simp [store, h₁, h₂]

theorem store_before (h : a < off) : m.store off bs a = m a := by
  simp [store, Nat.not_le.2 h]

theorem store_after (h : off + bs.length ≤ a) : m.store off bs a = m a := by
  have hnone : bs[a - off]? = none := List.getElem?_eq_none (by omega)
  simp [store, hnone]

theorem put_of_ne {b : UInt8} (h : a ≠ off) : m.put off b a = m a := by
  simp [put, h]

theorem holds_store (m : Memory) (off : Nat) (bs : List UInt8) : (m.store off bs).Holds off bs := by
  intro i hi
  rw [store_inside (by omega) (by omega)]
  congr 1
  omega

theorem holds_append_iff :
    m.Holds off (bs ++ cs) ↔ m.Holds off bs ∧ m.Holds (off + bs.length) cs := by
  constructor
  · intro h
    refine ⟨fun i hi => ?_, fun i hi => ?_⟩
    · rw [h i (by rw [List.length_append]; omega), List.getElem_append_left hi]
    · have hbyte := h (bs.length + i) (by rw [List.length_append]; omega)
      rw [List.getElem_append_right (by omega)] at hbyte
      rw [Nat.add_assoc, hbyte]
      congr 1
      omega
  · rintro ⟨hbs, hcs⟩ i hi
    rcases lt_or_ge i bs.length with hlt | hge
    · rw [List.getElem_append_left hlt, hbs i hlt]
    · rw [List.getElem_append_right hge]
      rw [List.length_append] at hi
      have hbyte := hcs (i - bs.length) (by omega)
      rw [← hbyte]
      congr 1
      omega

theorem holds_cons_iff {b : UInt8} :
    m.Holds off (b :: bs) ↔ m off = b ∧ m.Holds (off + 1) bs := by
  rw [← List.singleton_append, holds_append_iff]
  refine and_congr_left fun _ => ⟨fun h => h 0 (by simp), fun h i hi => ?_⟩
  obtain rfl : i = 0 := by simpa using hi
  exact h

/-- Bytes that stand somewhere are not changed by storing them there. -/
theorem Holds.store_eq (h : m.Holds off bs) : m.store off bs = m := by
  funext a
  by_cases ha : off ≤ a ∧ a - off < bs.length
  · rw [store_inside ha.1 ha.2, ← h (a - off) ha.2]
    congr 1
    omega
  · by_cases hle : off ≤ a
    · exact store_after (by omega)
    · exact store_before (by omega)

/-- A string is longer than any stretch of nonzero bytes from its start. -/
theorem lt_strlen {bound : Nat} : ∀ {off k : Nat}, k < bound → (∀ i ≤ k, m (off + i) ≠ 0) →
    k < m.strlen off bound := by
  induction bound with
  | zero =>
      intro off k hk
      omega
  | succ bound ih =>
      intro off k hk h
      have hhead := h 0 (Nat.zero_le k)
      rw [strlen, if_neg (by simpa using hhead)]
      cases k with
      | zero => omega
      | succ k =>
          have htail : k < m.strlen (off + 1) bound := ih (by omega) fun i hi => by
            have hbyte := h (i + 1) (by omega)
            rwa [Nat.add_assoc, Nat.add_comm 1 i]
          omega

/-- A string ends at its zero byte. -/
theorem strlen_of_holds {bound : Nat} : ∀ {off : Nat}, bs.length < bound → 0 ∉ bs →
    m.Holds off (bs ++ [0]) → m.strlen off bound = bs.length := by
  induction bs generalizing bound with
  | nil =>
      intro off hbound _ h
      obtain ⟨bound, rfl⟩ : ∃ k, bound = k + 1 := ⟨bound - 1, by simp at hbound; omega⟩
      have hzero : m off = 0 := h 0 (by decide)
      rw [strlen, if_pos hzero]
      rfl
  | cons b bs ih =>
      intro off hbound hmem h
      rw [List.length_cons] at hbound
      obtain ⟨bound, rfl⟩ : ∃ k, bound = k + 1 := ⟨bound - 1, by omega⟩
      rw [List.mem_cons, not_or] at hmem
      obtain ⟨hb, htail⟩ := holds_cons_iff.1 h
      rw [strlen, if_neg (by rw [hb]; exact Ne.symm hmem.1), ih (by omega) hmem.2 htail, List.length_cons]

/-- What was stored is read back. -/
theorem load_store (m : Memory) (off : Nat) (bs : List UInt8) :
    (m.store off bs).load off bs.length = bs := load_eq_iff.2 (holds_store m off bs)

end Memory

end CppMisc.Library
