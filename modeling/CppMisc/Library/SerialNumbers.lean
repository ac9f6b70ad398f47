import Mathlib.Tactic

/-!
# Serial numbers

Numbers of 32 bits that are counted up and wrap around are compared by the sign of their difference, read
as a signed word: `serialDiff a b` is how far `a` is ahead of `b`, and negative when it is behind.

The difference is the plain one as long as it fits into a signed word (`serialDiff_eq_sub`), in particular
when both numbers are below `2 ^ 31`. `ahead a b` is the distance from `b` up to `a`, with which the comparisons
inside one window become comparisons of natural numbers; it can be taken from any third number
(`ahead_eq_of_base`).
-/

set_option autoImplicit false

namespace CppMisc.Library

/-- How far `a` is ahead of `b`, as a signed word of 32 bits. -/
def serialDiff (a b : UInt32) : Int := (a - b).toInt32.toInt

/-- The distance from `b` up to `a`, counting through the wrap-around. -/
def ahead (a b : UInt32) : Nat := (a - b).toNat

variable {a b c : UInt32}

theorem serialDiff_eq_bmod (a b : UInt32) : serialDiff a b = Int.bmod (ahead a b) (2 ^ 32) := by
  rw [serialDiff, Int32.toInt, UInt32.toBitVec_toInt32, BitVec.toInt_eq_toNat_bmod]
  rfl

theorem ahead_eq (a b : UInt32) : ahead a b = (2 ^ 32 - b.toNat + a.toNat) % 2 ^ 32 :=
  UInt32.toNat_sub a b

theorem ahead_lt (a b : UInt32) : ahead a b < 2 ^ 32 := (a - b).toNat_lt

/-- In half of the circle the difference is the distance. -/
theorem serialDiff_of_ahead_lt (h : ahead a b < 2 ^ 31) : serialDiff a b = ahead a b := by
  rw [serialDiff_eq_bmod]
  apply Int.bmod_eq_of_le <;> omega

/-- In the other half it is negative. -/
theorem serialDiff_of_le_ahead (h : 2 ^ 31 ≤ ahead a b) : serialDiff a b = ahead a b - 2 ^ 32 := by
  have hlt := ahead_lt a b
  rw [serialDiff_eq_bmod, ← Int.sub_bmod_right (ahead a b : Int)]
  apply Int.bmod_eq_of_le <;> omega

theorem serialDiff_nonneg_iff : 0 ≤ serialDiff a b ↔ ahead a b < 2 ^ 31 := by
  have hlt := ahead_lt a b
  by_cases h : ahead a b < 2 ^ 31
  · rw [serialDiff_of_ahead_lt h]
    omega
  · rw [serialDiff_of_le_ahead (Nat.le_of_not_lt h)]
    omega

/-- The difference is the plain one when that fits into a signed word. -/
theorem serialDiff_eq_sub (hlow : -2 ^ 31 ≤ (a.toNat : Int) - b.toNat)
    (hhigh : (a.toNat : Int) - b.toNat < 2 ^ 31) : serialDiff a b = (a.toNat : Int) - b.toNat := by
  have ha := a.toNat_lt
  have hb := b.toNat_lt
  have heq := ahead_eq a b
  by_cases h : b.toNat ≤ a.toNat
  · rw [serialDiff_of_ahead_lt (by omega)]
    omega
  · rw [serialDiff_of_le_ahead (by omega)]
    omega

/-- Numbers below half of the range are compared as they are. -/
theorem serialDiff_of_lt (ha : a.toNat < 2 ^ 31) (hb : b.toNat < 2 ^ 31) :
    serialDiff a b = (a.toNat : Int) - b.toNat := by
  apply serialDiff_eq_sub <;> omega

@[simp] theorem ahead_self (a : UInt32) : ahead a a = 0 := by
  rw [ahead, UInt32.sub_self]
  rfl

theorem ahead_eq_zero_iff : ahead a b = 0 ↔ a = b := by
  have ha := a.toNat_lt
  have hb := b.toNat_lt
  have heq := ahead_eq a b
  rw [← UInt32.toNat_inj]
  omega

/-- Two numbers seen from a third one. -/
theorem ahead_eq_of_base (base : UInt32) :
    ahead a b = (2 ^ 32 - ahead b base + ahead a base) % 2 ^ 32 := by
  have ha := a.toNat_lt
  have hb := b.toNat_lt
  have hbase := base.toNat_lt
  rw [ahead_eq a b, ahead_eq a base, ahead_eq b base]
  omega

/-- Moving the third number up to one of them. -/
theorem ahead_of_base_le {base : UInt32} (h : ahead b base ≤ ahead a base) :
    ahead a b = ahead a base - ahead b base := by
  have ha := ahead_lt a base
  rw [ahead_eq_of_base base]
  omega

/-- Two numbers less than half of the circle ahead of a third one are compared by their distances to it. -/
theorem serialDiff_of_base {base : UInt32} (ha : ahead a base < 2 ^ 31) (hb : ahead b base < 2 ^ 31) :
    serialDiff a b = (ahead a base : Int) - ahead b base := by
  have heq : ahead a b = _ := ahead_eq_of_base base
  by_cases h : ahead b base ≤ ahead a base
  · rw [serialDiff_of_ahead_lt (by omega)]
    omega
  · rw [serialDiff_of_le_ahead (by omega)]
    omega

theorem ahead_inj (base : UInt32) (h : ahead a base = ahead b base) : a = b := by
  rw [← ahead_eq_zero_iff, ahead_eq_of_base base, h]
  have := ahead_lt b base
  omega

theorem ahead_base_add {base w : UInt32} : ahead (base + w) base = w.toNat := by
  have hw := w.toNat_lt
  have hbase := base.toNat_lt
  rw [ahead_eq, UInt32.toNat_add]
  omega

/-- A moment at most half of the circle ahead has not come yet. -/
theorem serialDiff_self_add {w : UInt32} (hpos : 0 < w.toNat) (hle : w.toNat ≤ 2 ^ 31) :
    serialDiff a (a + w) < 0 := by
  have ha := a.toNat_lt
  have hahead : ahead a (a + w) = 2 ^ 32 - w.toNat := by
    rw [ahead_eq, UInt32.toNat_add]
    omega
  rw [serialDiff_of_le_ahead (by omega)]
  omega

/-- The window of `w` numbers from `base` on is what two comparisons by difference leave. -/
theorem serialDiff_window {base w : UInt32} (hw : w.toNat < 2 ^ 31) :
    (serialDiff a (base + w) < 0 ∧ 0 ≤ serialDiff a base) ↔ ahead a base < w.toNat := by
  have hwbase : ahead (base + w) base = w.toNat := ahead_base_add
  rw [serialDiff_nonneg_iff]
  constructor
  · rintro ⟨hend, hhalf⟩
    rw [serialDiff_of_base hhalf (by omega)] at hend
    omega
  · intro h
    have hhalf : ahead a base < 2 ^ 31 := by omega
    refine ⟨?_, hhalf⟩
    rw [serialDiff_of_base hhalf (by omega)]
    omega

/-- A sum of words that does not wrap around. -/
theorem toNat_add_of_lt (h : a.toNat + b.toNat < 2 ^ 32) : (a + b).toNat = a.toNat + b.toNat := by
  rw [UInt32.toNat_add, Nat.mod_eq_of_lt h]

theorem toNat_add_one (h : a.toNat + 1 < 2 ^ 32) : (a + 1).toNat = a.toNat + 1 :=
  toNat_add_of_lt h

/-- The next number is one further ahead, as long as the circle is not closed. -/
theorem ahead_add_one (h : ahead a b + 1 < 2 ^ 32) : ahead (a + 1) b = ahead a b + 1 := by
  have hone : (1 : UInt32).toNat = 1 := rfl
  have ha := a.toNat_lt
  have hb := b.toNat_lt
  rw [ahead_eq] at h ⊢
  rw [ahead_eq, UInt32.toNat_add, hone]
  omega

/-- A signed word that is not negative, as an unsigned one. -/
theorem toNat_toUInt32_of_nonneg {n : Int32} (h : 0 ≤ n.toInt) : (n.toUInt32.toNat : Int) = n.toInt := by
  have hbound := n.toBitVec.isLt
  have hsigned : n.toInt = n.toBitVec.toInt := rfl
  have hunsigned : n.toUInt32.toNat = n.toBitVec.toNat := rfl
  rw [hsigned, BitVec.toInt_eq_toNat_bmod, Int.bmod_def] at h ⊢
  rw [hunsigned]
  split at h <;> omega

theorem toNat_toUInt32_of_pos {n : Int32} (h : 0 < n.toInt) :
    0 < n.toUInt32.toNat ∧ n.toUInt32.toNat < 2 ^ 31 := by
  have hvalue := toNat_toUInt32_of_nonneg (Int.le_of_lt h)
  have hlt := n.toInt_lt
  omega

/-- An unsigned word in the lower half of its range, as a signed one. -/
theorem toInt_toInt32_of_lt (h : a.toNat < 2 ^ 31) : a.toInt32.toInt = a.toNat := by
  have hdiff := serialDiff_of_lt (b := 0) h (Nat.two_pow_pos 31)
  rw [serialDiff, UInt32.sub_zero] at hdiff
  have hzero : (0 : UInt32).toNat = 0 := rfl
  omega

/-- Division and shift of a signed word that is not negative. -/
theorem toNat_half {n : Int32} (h : 0 ≤ n.toInt) : (n / 2).toUInt32.toNat = n.toInt.toNat / 2 := by
  have htwo : (2 : Int32).toInt = 2 := by decide
  have hquot : (n / 2).toInt = n.toInt / 2 := by
    rw [Int32.toInt_div_of_ne_right n 2 (by decide), htwo, Int.tdiv_eq_ediv_of_nonneg h]
  have hvalue := toNat_toUInt32_of_nonneg (n := n / 2) (by omega)
  omega

theorem toNat_eighth {n : Int32} (h : 0 ≤ n.toInt) : (n >>> 3).toUInt32.toNat = n.toInt.toNat / 8 := by
  have hquot : (n >>> 3).toInt = n.toInt / 8 := by
    show (n.toBitVec.sshiftRight 3).toInt = _
    rw [BitVec.toInt_sshiftRight, Int.shiftRight_eq_div_pow]
    rfl
  have hvalue := toNat_toUInt32_of_nonneg (n := n >>> 3) (by omega)
  omega

end CppMisc.Library
