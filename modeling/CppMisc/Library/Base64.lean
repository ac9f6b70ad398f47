import Mathlib.Tactic

/-!
# Base64

The text form of RFC 4648: three bytes become four symbols of six bits each, and one or two bytes at the end
are filled up with `=`. The text tells how many bytes it stands for, by its length and by the number of `=` in
it (`length_eq_of_encode_eq`).
-/

set_option autoImplicit false

namespace CppMisc.Library.Base64

/-- The symbol of a number below 64. -/
def symbol (n : Nat) : UInt8 :=
  if n < 26 then UInt8.ofNat (65 + n)
  else if n < 52 then UInt8.ofNat (97 + (n - 26))
  else if n < 62 then UInt8.ofNat (48 + (n - 52))
  else if n = 62 then 43
  else 47

/-- The sign `=`. -/
def pad : UInt8 := 61

/-- The text of a list of bytes. -/
def encode : List UInt8 → List UInt8
  | [] => []
  | [a] => [symbol (a.toNat / 4), symbol (a.toNat % 4 * 16), pad, pad]
  | [a, b] =>
      [symbol (a.toNat / 4), symbol (a.toNat % 4 * 16 + b.toNat / 16), symbol (b.toNat % 16 * 4), pad]
  | a :: b :: c :: rest =>
      symbol (a.toNat / 4) :: symbol (a.toNat % 4 * 16 + b.toNat / 16) ::
        symbol (b.toNat % 16 * 4 + c.toNat / 64) :: symbol (c.toNat % 64) :: encode rest

/-- A symbol is a digit, a letter, `+` or `/`. -/
theorem symbol_range (n : Nat) : 43 ≤ (symbol n).toNat ∧ (symbol n).toNat ≤ 122 ∧ (symbol n).toNat ≠ 61 := by
  unfold symbol
  split
  · rw [UInt8.toNat_ofNat']
    omega
  · split
    · rw [UInt8.toNat_ofNat']
      omega
    · split
      · rw [UInt8.toNat_ofNat']
        omega
      · split <;> decide

theorem symbol_ne_pad (n : Nat) : symbol n ≠ pad := by
  intro h
  exact (symbol_range n).2.2 (congrArg UInt8.toNat h)

theorem symbol_ne_zero (n : Nat) : symbol n ≠ 0 := by
  intro h
  have hlow := (symbol_range n).1
  rw [h] at hlow
  exact absurd hlow (by decide)

theorem length_encode (d : List UInt8) : (encode d).length = 4 * ((d.length + 2) / 3) := by
  induction d using encode.induct with
  | case1 => rfl
  | case2 a => simp [encode]
  | case3 a b => simp [encode]
  | case4 a b c rest ih =>
      simp only [encode, List.length_cons, ih]
      omega

/-- The text is a string. -/
theorem zero_notMem_encode (d : List UInt8) : 0 ∉ encode d := by
  have hpad : (0 : UInt8) ≠ pad := by decide
  induction d using encode.induct with
  | case1 => simp [encode]
  | case2 a => simp [encode, (symbol_ne_zero _).symm, hpad]
  | case3 a b => simp [encode, (symbol_ne_zero _).symm, hpad]
  | case4 a b c rest ih => simp [encode, (symbol_ne_zero _).symm, ih]

theorem count_pad_encode (d : List UInt8) : (encode d).count pad = (3 - d.length % 3) % 3 := by
  induction d using encode.induct with
  | case1 => rfl
  | case2 a => simp [encode, symbol_ne_pad]
  | case3 a b => simp [encode, symbol_ne_pad]
  | case4 a b c rest ih =>
      simp only [encode, List.count_cons, beq_iff_eq, symbol_ne_pad, if_false, Nat.add_zero, ih,
        List.length_cons]
      omega

/-- Lists of different lengths have different texts. -/
theorem length_eq_of_encode_eq {d d' : List UInt8} (h : encode d = encode d') : d.length = d'.length := by
  have hlen := congrArg List.length h
  have hpad := congrArg (List.count pad) h
  rw [length_encode, length_encode] at hlen
  rw [count_pad_encode, count_pad_encode] at hpad
  omega

end CppMisc.Library.Base64
