import Mathlib.Tactic

/-!
# The frames of RFC 6455

A frame is a byte with the FIN bit and the opcode, a length field with the mask bit, a masking key if that
bit is set, and the payload. The length field has seven bits, or the mark 126 and 16 bits, or the mark 127
and 64 bits, most significant byte first. `parse` reads one frame from the front of a list of bytes and
returns what is left; reserved bits are refused. `plain` writes an unmasked frame in the shortest form, and
`parse_plain` says that the parser reads it back, whatever follows it.
-/

set_option autoImplicit false

namespace CppMisc.Library.WebSocket

/-- A frame with its payload in the clear. -/
structure Frame where
  fin : Bool
  opcode : Nat
  key : Option (Fin 4 → UInt8)
  payload : List UInt8

/-- A number in `k` bytes, most significant byte first. -/
def networkBytes (n : Nat) : Nat → List UInt8
  | 0 => []
  | k + 1 => networkBytes (n / 256) k ++ [UInt8.ofNat n]

/-- The number that the bytes stand for. -/
def networkValue (bs : List UInt8) : Nat := bs.foldl (fun n b => 256 * n + b.toNat) 0

/-- The length announced by the seven length bits, with the bytes behind the length field. -/
def parseLength (bits : Nat) (rest : List UInt8) : Option (Nat × List UInt8) :=
  if bits < 126 then some (bits, rest)
  else
    let size := if bits = 126 then 2 else 8
    if rest.length < size then none else some (networkValue (rest.take size), rest.drop size)

/-- The masking key, if there is one. -/
def parseKey (masked : Bool) (rest : List UInt8) : Option (Option (Fin 4 → UInt8) × List UInt8) :=
  match masked, rest with
  | false, rest => some (none, rest)
  | true, k₀ :: k₁ :: k₂ :: k₃ :: rest => some (some ![k₀, k₁, k₂, k₃], rest)
  | true, _ => none

theorem mod_four_lt (i : Nat) : i % 4 < 4 := Nat.mod_lt i (by decide)

/-- The payload without its mask. -/
def unmask (key : Option (Fin 4 → UInt8)) (bs : List UInt8) : List UInt8 :=
  match key with
  | none => bs
  | some k => bs.mapIdx fun i b => b ^^^ k ⟨i % 4, mod_four_lt i⟩

/-- One frame from the front of `bs`, and the bytes behind it. -/
def parse (bs : List UInt8) : Option (Frame × List UInt8) :=
  match bs with
  | b₀ :: b₁ :: rest =>
      if b₀.toNat / 16 % 8 ≠ 0 then none
      else
        (parseLength (b₁.toNat % 128) rest).bind fun (n, rest) =>
          (parseKey (decide (128 ≤ b₁.toNat)) rest).bind fun (key, rest) =>
            if rest.length < n then none
            else
              some (⟨decide (128 ≤ b₀.toNat), b₀.toNat % 16, key, unmask key (rest.take n)⟩,
                rest.drop n)
  | _ => none

/-- The length field without the mask bit, in the shortest form. -/
def plainLength (n : Nat) : List UInt8 :=
  if n < 126 then [UInt8.ofNat n]
  else if n < 65536 then 126 :: networkBytes n 2
  else 127 :: networkBytes n 8

/-- The unmasked final frame with the given opcode and payload. -/
def plain (opcode : Fin 16) (payload : List UInt8) : List UInt8 :=
  UInt8.ofNat (128 + opcode) :: plainLength payload.length ++ payload

@[simp] theorem length_networkBytes (n k : Nat) : (networkBytes n k).length = k := by
  induction k generalizing n with
  | zero => rfl
  | succ k ih => simp [networkBytes, ih]

theorem length_plain (opcode : Fin 16) (payload : List UInt8) :
    (plain opcode payload).length = 1 + (plainLength payload.length).length + payload.length := by
  simp [plain]
  omega

theorem networkValue_networkBytes (n k : Nat) (h : n < 256 ^ k) :
    networkValue (networkBytes n k) = n := by
  induction k generalizing n with
  | zero =>
      have hzero : n = 0 := by simpa using h
      rw [hzero]
      rfl
  | succ k ih =>
      have hdiv : n / 256 < 256 ^ k := by
        rw [Nat.div_lt_iff_lt_mul (by decide), ← Nat.pow_succ]
        exact h
      have hrest := ih (n / 256) hdiv
      simp only [networkValue] at hrest
      simp only [networkValue, networkBytes, List.foldl_append, List.foldl_cons, List.foldl_nil, hrest,
        UInt8.toNat_ofNat']
      omega

/-- The two longer forms, with the mark `bits` and a number of `size` bytes. -/
theorem parseLength_extended {bits size n : Nat} (hbits : ¬ bits < 126)
    (hsize : (if bits = 126 then 2 else 8) = size) (hn : n < 256 ^ size) (rest : List UInt8) :
    parseLength bits (networkBytes n size ++ rest) = some (n, rest) := by
  have htake : (networkBytes n size ++ rest).take size = networkBytes n size :=
    List.take_left' (length_networkBytes n size)
  have hdrop : (networkBytes n size ++ rest).drop size = rest :=
    List.drop_left' (length_networkBytes n size)
  have hroom : ¬ (networkBytes n size ++ rest).length < size := by
    rw [List.length_append, length_networkBytes]
    omega
  simp only [parseLength, if_neg hbits, hsize, if_neg hroom, htake, hdrop,
    networkValue_networkBytes n size hn]

/-- A length that was written is read back. -/
theorem parseLength_plainLength {n : Nat} (h : n < 2 ^ 64) (rest : List UInt8) :
    ∃ mark more, plainLength n ++ rest = mark :: more ∧ mark.toNat < 128 ∧
      parseLength mark.toNat more = some (n, rest) := by
  by_cases hshort : n < 126
  · refine ⟨UInt8.ofNat n, rest, by simp [plainLength, hshort], ?_, ?_⟩
    · rw [UInt8.toNat_ofNat']
      omega
    · have hn : n % 2 ^ 8 = n := Nat.mod_eq_of_lt (by omega)
      rw [UInt8.toNat_ofNat', hn, parseLength, if_pos hshort]
  · by_cases hmedium : n < 65536
    · refine ⟨126, networkBytes n 2 ++ rest, by simp [plainLength, hshort, hmedium], by decide, ?_⟩
      exact parseLength_extended (by decide) rfl hmedium rest
    · refine ⟨127, networkBytes n 8 ++ rest, by simp [plainLength, hshort, hmedium], by decide, ?_⟩
      exact parseLength_extended (by decide) rfl (by simpa using h) rest

/-- An unmasked frame is read back, and what follows it is left. -/
theorem parse_plain (opcode : Fin 16) {payload : List UInt8} (h : payload.length < 2 ^ 64)
    (rest : List UInt8) :
    parse (plain opcode payload ++ rest) = some (⟨true, opcode, none, payload⟩, rest) := by
  obtain ⟨mark, more, hfield, hmark, hlength⟩ := parseLength_plainLength h (payload ++ rest)
  have hbytes : plain opcode payload ++ rest = UInt8.ofNat (128 + opcode) :: mark :: more := by
    rw [plain, List.cons_append, List.cons_append, List.append_assoc, hfield]
  have hfirst : (UInt8.ofNat (128 + opcode)).toNat = 128 + opcode := by
    rw [UInt8.toNat_ofNat']
    omega
  have hbits : mark.toNat % 128 = mark.toNat := Nat.mod_eq_of_lt hmark
  have hreserved : (128 + opcode.val) / 16 % 8 = 0 := by omega
  have hopcode : (128 + opcode.val) % 16 = opcode := by omega
  have hunmasked : decide (128 ≤ mark.toNat) = false := by simpa using hmark
  rw [hbytes, parse, hfirst, hbits, hlength, hunmasked, hopcode]
  simp [hreserved, parseKey, unmask]

end CppMisc.Library.WebSocket
