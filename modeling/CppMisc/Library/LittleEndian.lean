import Mathlib.Tactic

/-!
# Little-endian words

`leBytes w n` are the `w` low bytes of `n`, the lowest one first, and `leValue` is the number that a list
of bytes stands for in this order. The two undo each other: `leValue_leBytes` for a number that fits into
the width, `leBytes_leValue` for every list of bytes.
-/

set_option autoImplicit false

namespace CppMisc.Library

/-- The `w` low bytes of a number, the lowest one first. -/
def leBytes : Nat → Nat → List UInt8
  | 0, _ => []
  | w + 1, n => UInt8.ofNat n :: leBytes w (n / 256)

/-- The number that a list of bytes stands for, the lowest byte first. -/
def leValue : List UInt8 → Nat
  | [] => 0
  | b :: bs => b.toNat + 256 * leValue bs

@[simp] theorem length_leBytes (w n : Nat) : (leBytes w n).length = w := by
  induction w generalizing n with
  | zero => rfl
  | succ w ih => rw [leBytes, List.length_cons, ih]

theorem leValue_lt (bs : List UInt8) : leValue bs < 256 ^ bs.length := by
  induction bs with
  | nil => simp [leValue]
  | cons b bs ih =>
      have hb := b.toNat_lt
      rw [leValue, List.length_cons, Nat.pow_succ]
      omega

theorem leValue_leBytes {w n : Nat} (h : n < 256 ^ w) : leValue (leBytes w n) = n := by
  induction w generalizing n with
  | zero =>
      rw [Nat.pow_zero, Nat.lt_one_iff] at h
      rw [h]
      rfl
  | succ w ih =>
      have hrest : n / 256 < 256 ^ w := by
        apply Nat.div_lt_of_lt_mul
        rwa [Nat.mul_comm, ← Nat.pow_succ]
      rw [leBytes, leValue, ih hrest, UInt8.toNat_ofNat']
      omega

theorem leBytes_leValue (bs : List UInt8) : leBytes bs.length (leValue bs) = bs := by
  induction bs with
  | nil => rfl
  | cons b bs ih =>
      have hb := b.toNat_lt
      have hlow : UInt8.ofNat (b.toNat + 256 * leValue bs) = b := by
        apply UInt8.toNat_inj.1
        rw [UInt8.toNat_ofNat']
        omega
      have hhigh : (b.toNat + 256 * leValue bs) / 256 = leValue bs := by omega
      rw [List.length_cons, leBytes, leValue, hlow, hhigh, ih]

/-! ## Fields -/

/-- The `n` bytes from the offset `k` on. -/
def field (mem : List UInt8) (k n : Nat) : List UInt8 := (mem.drop k).take n

/-- The bytes from the offset `k` on are overwritten. -/
def patch (mem : List UInt8) (k : Nat) (data : List UInt8) : List UInt8 :=
  mem.take k ++ data ++ mem.drop (k + data.length)

variable {mem data : List UInt8} {k : Nat}

theorem length_patch (h : k + data.length ≤ mem.length) : (patch mem k data).length = mem.length := by
  rw [patch, List.length_append, List.length_append, List.length_take, List.length_drop]
  omega

/-- What was written is read. -/
theorem field_patch (h : k ≤ mem.length) : field (patch mem k data) k data.length = data := by
  have hlength : (mem.take k).length = k := List.length_take_of_le h
  rw [field, patch, List.append_assoc, List.drop_left' hlength, List.take_left]

/-- A field in front is as before. -/
theorem field_patch_of_le {j n : Nat} (hfront : j + n ≤ k) (h : k ≤ mem.length) :
    field (patch mem k data) j n = field mem j n := by
  have hlength : (mem.take k).length = k := List.length_take_of_le h
  have htake : (patch mem k data).take k = mem.take k := by
    rw [patch, List.append_assoc, List.take_left' hlength]
  have hread : ∀ l : List UInt8, field l j n = field (l.take k) j n := by
    intro l
    rw [field, field, List.drop_take, List.take_take, Nat.min_eq_left (by omega)]
  rw [hread, htake, ← hread]

/-- A field behind is as before. -/
theorem field_patch_of_ge {j n : Nat} (hbehind : k + data.length ≤ j) (h : k + data.length ≤ mem.length) :
    field (patch mem k data) j n = field mem j n := by
  have hlength : (mem.take k ++ data).length = k + data.length := by
    rw [List.length_append, List.length_take_of_le (by omega)]
  rw [field, field, patch, List.drop_append, List.drop_of_length_le (by omega), List.nil_append, hlength,
    List.drop_drop]
  congr 2
  omega

/-- What is written from the start stands there. -/
theorem take_patch_zero (mem data : List UInt8) : (patch mem 0 data).take data.length = data := by
  rw [patch, List.take_zero, List.nil_append, List.take_left]

/-- A record that is overwritten as a whole. -/
theorem patch_all (h : data.length = mem.length) : patch mem 0 data = data := by
  rw [patch, List.take_zero, List.nil_append, Nat.zero_add, h, List.drop_length, List.append_nil]

end CppMisc.Library
