import PolyCheck.Literal.Integer
import PolyCheck.Proofs.Pat.Spanning

/-! Integer literals in two's complement. A magnitude that fits the width is the bit pattern of one
signed value, each value of the width has one such pattern, and no other literal has a value. The
value is found in words of 128 bits: the pattern is moved up to the sign bit of the word and, now
signed, back down again. No bit is lost on the way, and no shift is by more than the word has
bits. -/
namespace PolyCheck

variable {magnitude magnitude' width : Nat} {value : Int}

section Value

theorem signedValue_modEq (width magnitude : Nat) : signedValue width magnitude ≡ magnitude
    [ZMOD 2 ^ width] := by
  rw [signedValue, ← cast_intCount]
  split
  · exact Int.ModEq.refl _
  · exact Int.modEq_iff_dvd.mpr ⟨1, by omega⟩

theorem signedValue_range (positive : 0 < width) (small : magnitude < intCount width) :
    -2 ^ (width - 1) ≤ signedValue width magnitude ∧ signedValue width magnitude < 2 ^
    (width - 1) := by
  have double := intCount_double positive
  rw [signedValue, ← cast_intCount]
  split <;> omega

theorem intValue_eq_ok : intValue magnitude width = .ok value ↔
    (0 < width ∧ width ≤ maxIntWidth) ∧ magnitude < intCount width ∧
      signedValue width magnitude = value := by
  rw [intValue]
  split
  · simp only [reduceCtorEq, false_iff]
    omega
  · rename_i valid
    have valid : 0 < width ∧ width ≤ maxIntWidth := by omega
    split
    · rename_i small
      simp [valid, small]
    · rename_i large
      simp [large]

theorem inWidth_of_intValue (result : intValue magnitude width = .ok value) :
    InWidth width value := by
  obtain ⟨valid, small, rfl⟩ := intValue_eq_ok.mp result
  exact ⟨valid, signedValue_range valid.1 small⟩

/-- Patterns of one value agree up to a multiple of their number, so they are one pattern. -/
theorem magnitude_unique (result : intValue magnitude width = .ok value)
    (result' : intValue magnitude' width = .ok value) : magnitude = magnitude' := by
  obtain ⟨-, small, rfl⟩ := intValue_eq_ok.mp result
  obtain ⟨-, small', same⟩ := intValue_eq_ok.mp result'
  have congruent : (magnitude : Int) ≡ magnitude' [ZMOD 2 ^ width] :=
    (signedValue_modEq width magnitude).symm.trans (same ▸ signedValue_modEq width magnitude')
  rw [← cast_intCount] at congruent
  exact (Int.natCast_modEq_iff.mp congruent).eq_of_lt_of_lt small small'

theorem exists_magnitude (inWidth : InWidth width value) : ∃ magnitude,
    intValue magnitude width = .ok value := by
  obtain ⟨valid, low, high⟩ := inWidth
  have double := intCount_double valid.1
  rw [← cast_intCount] at low high
  rcases lt_or_ge value 0 with negative | natural
  · refine ⟨(value + intCount width).toNat, intValue_eq_ok.mpr ⟨valid, by omega, ?_⟩⟩
    rw [signedValue, if_neg (by omega)]
    omega
  · refine ⟨value.toNat, intValue_eq_ok.mpr ⟨valid, by omega, ?_⟩⟩
    rw [signedValue, if_pos (by omega)]
    omega

end Value

namespace Int128

def shiftLeft? (word : BitVec 128) (amount : Nat) : Option (BitVec 128) :=
  if amount < 128 ∧ word.toNat * 2 ^ amount < 2 ^ 128 then some (word <<< amount) else none

def shiftRight? (word : BitVec 128) (amount : Nat) : Option (BitVec 128) :=
  if amount < 128 then some (word >>> amount) else none

def signedShiftRight? (word : BitVec 128) (amount : Nat) : Option (BitVec 128) :=
  if amount < 128 then some (word.sshiftRight amount) else none

def surplus? (magnitude : BitVec 128) (width : Nat) : Option (BitVec 128) :=
  if width < maxIntWidth then shiftRight? magnitude width else some 0

/-- The value of a literal, found by shifts. The word keeps its bits when it is read as a signed
one. -/
def intValue? (magnitude : BitVec 128) (width : Nat) : Option (Except LiteralFault Int) :=
  if width = 0 ∨ maxIntWidth < width then
    some (.error (.badWidth width))
  else do
    let surplus ← surplus? magnitude width
    if surplus ≠ 0 then
      some (.error (.tooLarge magnitude.toNat width))
    else do
      let unused ← Nat.psub maxIntWidth width
      let moved ← shiftLeft? magnitude unused
      let value ← signedShiftRight? moved unused
      some (.ok value.toInt)

theorem ushiftRight_eq_zero_iff (word : BitVec 128) (width : Nat) : word >>> width = 0 ↔
    word.toNat < intCount width := by
  rw [← BitVec.toNat_inj, BitVec.toNat_ushiftRight, Nat.shiftRight_eq_div_pow, intCount_eq]
  exact Nat.div_eq_zero_iff_lt (Nat.two_pow_pos width)

theorem surplus?_eq {word : BitVec 128} (within : width ≤ maxIntWidth) : surplus? word width = some
    (word >>> width) := by
  rw [surplus?]
  split
  · rename_i narrow
    exact if_pos narrow
  · have full : width = 128 := by
      simp only [maxIntWidth] at *
      omega
    rw [full, (ushiftRight_eq_zero_iff word 128).mpr (intCount_eq 128 ▸ word.isLt)]

section Move

variable {word : BitVec 128} {unused : Nat} (split : width + unused = 128)
  (small : word.toNat < intCount width)
include split small

/-- A pattern loses no bit when it is moved up to the sign bit. -/
theorem moved_lt : word.toNat * 2 ^ unused < 2 ^ 128 :=
  calc word.toNat * 2 ^ unused < intCount width * 2 ^ unused :=
      Nat.mul_lt_mul_of_pos_right small (Nat.two_pow_pos unused)
    _ = 2 ^ 128 := by rw [intCount_eq, ← Nat.pow_add, split]

theorem toInt_moved : ((word <<< unused).sshiftRight unused).toInt =
    signedValue width word.toNat := by
  have total : 2 ^ 128 = intCount width * 2 ^ unused := by rw [intCount_eq, ← Nat.pow_add, split]
  have unit : 0 < 2 ^ unused := Nat.two_pow_pos unused
  have moved : (word <<< unused).toNat = word.toNat * 2 ^ unused := by
    rw [BitVec.toNat_shiftLeft, Nat.shiftLeft_eq, Nat.mod_eq_of_lt (moved_lt split small)]
  -- The sign bit of the word is the top bit of the pattern.
  have sign : 2 * (word.toNat * 2 ^ unused) < 2 ^ 128 ↔ 2 * word.toNat < intCount width := by
    rw [total, ← Nat.mul_assoc]
    exact Nat.mul_lt_mul_right unit
  rw [BitVec.toInt_sshiftRight, BitVec.toInt_eq_toNat_cond, moved, Int.shiftRight_eq_div_pow,
    signedValue]
  by_cases low : 2 * word.toNat < intCount width
  · rw [if_pos (sign.mpr low), if_pos low, Nat.cast_mul]
    exact Int.mul_ediv_cancel _ (by exact_mod_cast unit.ne')
  · rw [if_neg (mt sign.mp low), if_neg low, total, Nat.cast_mul, Nat.cast_mul, ← sub_mul]
    exact Int.mul_ediv_cancel _ (by exact_mod_cast unit.ne')

end Move

theorem intValue?_eq (magnitude : BitVec 128) (width : Nat) :
    intValue? magnitude width = some (intValue magnitude.toNat width) := by
  rw [intValue?, intValue]
  split
  · rfl
  · rename_i valid
    have within : width ≤ maxIntWidth := by omega
    have split : width + (maxIntWidth - width) = 128 := Nat.add_sub_cancel' within
    have short : maxIntWidth - width < 128 := by omega
    rw [surplus?_eq within, Option.bind_eq_bind, Option.bind_some]
    by_cases small : magnitude.toNat < intCount width
    · rw [if_neg (not_not.mpr ((ushiftRight_eq_zero_iff magnitude width).mpr small)), if_pos small,
        Nat.psub_eq_sub within, Option.bind_eq_bind, Option.bind_some, shiftLeft?,
        if_pos ⟨short, moved_lt split small⟩,
        Option.bind_some, signedShiftRight?, if_pos short, Option.bind_some,
          toInt_moved split small]
    · rw [if_pos (mt (ushiftRight_eq_zero_iff magnitude width).mp small), if_neg small]

end Int128

/-- A literal has a value exactly when its width is one of those there are and its magnitude fits
it. The value is the one of the width that agrees with the magnitude modulo the number of patterns;
different magnitudes have different values, and each value of the width is that of some literal. The
shifts of 128 bits by which the value is found, and the bounds within which a missing integer is
looked for, stay in range at every width. -/
theorem intValue_twosComplement (width : Nat) :
    (∀ magnitude, (∃ value, intValue magnitude width = .ok value) ↔
        1 ≤ width ∧ width ≤ 128 ∧ magnitude < 2 ^ width) ∧
      (∀ magnitude value, intValue magnitude width = .ok value →
        -2 ^ (width - 1) ≤ value ∧ value < 2 ^ (width - 1) ∧ value ≡ magnitude [ZMOD 2 ^ width]) ∧
      (∀ magnitude magnitude' value, intValue magnitude width = .ok value →
        intValue magnitude' width = .ok value → magnitude = magnitude') ∧
      (1 ≤ width → width ≤ 128 → ∀ value : Int, -2 ^ (width - 1) ≤ value → value < 2 ^ (width - 1) →
        ∃ magnitude, intValue magnitude width = .ok value) ∧
      (∀ magnitude : BitVec 128,
        Int128.intValue? magnitude width = some (intValue magnitude.toNat width)) ∧
      (1 ≤ width → width ≤ 128 →
        Int128.bounds? width = some (-2 ^ (width - 1), 2 ^ (width - 1) - 1)) := by
  refine ⟨fun magnitude => ⟨?_, ?_⟩, ?_, fun _ _ _ => magnitude_unique, ?_,
    fun magnitude => Int128.intValue?_eq magnitude width, fun positive within => ?_⟩
  · rintro ⟨value, result⟩
    obtain ⟨⟨positive, within⟩, small, -⟩ := intValue_eq_ok.mp result
    exact ⟨positive, within, intCount_eq width ▸ small⟩
  · rintro ⟨positive, within, small⟩
    exact ⟨_, intValue_eq_ok.mpr ⟨⟨positive, within⟩, (intCount_eq width).symm ▸ small, rfl⟩⟩
  · intro magnitude value result
    obtain ⟨⟨positive, -⟩, small, rfl⟩ := intValue_eq_ok.mp result
    obtain ⟨low, high⟩ := signedValue_range positive small
    exact ⟨low, high, signedValue_modEq width magnitude⟩
  · exact fun positive within value low high => exists_magnitude ⟨⟨positive, within⟩, low, high⟩
  · rw [Int128.bounds?_eq_some positive within, cast_intCount]

/-- The greatest pattern of eight bits is minus one, and so is that of all 128. -/
theorem intValue_twosComplement_ones :
    intValue 255 8 = .ok (-1) ∧ (-1 : Int) ≡ (255 : Nat) [ZMOD 2 ^ 8] ∧
      Int128.intValue? 255 8 = some (.ok (-1)) ∧ Int128.bounds? 128 = some
      (-2 ^ 127, 2 ^ 127 - 1) := by
  have value : intValue 255 8 = .ok (-1) := by decide
  obtain ⟨-, exact_, -, -, shifts, -⟩ := intValue_twosComplement 8
  obtain ⟨-, -, -, -, -, bounds⟩ := intValue_twosComplement 128
  exact ⟨value, (exact_ 255 (-1) value).2.2, (shifts 255).trans (congrArg some value),
    bounds (by decide) (by decide)⟩

end PolyCheck
