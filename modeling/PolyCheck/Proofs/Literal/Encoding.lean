import Mathlib
import PolyCheck.Proofs.Literal.Grammar
import PolyCheck.Pat

/-! Encoded bytes read back. Every encoded byte is an item of the grammar, whatever is behind it, so
the text of a string pattern denotes the bytes of the pattern and nothing else. -/
namespace PolyCheck.Escape

theorem isDigit_digitChar {digit : Nat} (small : digit < 16) :
    IsDigit 16 (Nat.digitChar digit) digit := by
  have lower : ∀ digit < 16, (Nat.digitChar digit).toLower = Nat.digitChar digit := by decide
  exact ⟨small, lower digit small⟩

theorem numeral_hexPair (byte : UInt8) : Numeral 16 (hexPair byte) byte.toNat := by
  have small := byte.toNat_lt
  refine numeral_cons.mpr ⟨byte.toNat / 16, byte.toNat % 16, isDigit_digitChar (by omega), ?_, ?_⟩
  · exact numeral_cons.mpr ⟨byte.toNat % 16, 0, isDigit_digitChar (by omega),
      numeral_nil.mpr rfl, by simp⟩
  · have split := Nat.div_add_mod' byte.toNat 16
    simpa using split.symm

theorem utf8EncodeChar_ofByte {byte : UInt8} (ascii : byte.toNat < 128) :
    String.utf8EncodeChar (Char.ofNat byte.toNat) = [byte] := by
  have table : ∀ code < 128, String.utf8EncodeChar (Char.ofNat code) =
    [UInt8.ofNat code] := by decide
  rw [table _ ascii, UInt8.ofNat_toNat]

/-- The items of encoding are those with a name, the printable characters and the numerals of two
digits. Their last character never asks for what comes next. -/
theorem item_encodeByte (byte : UInt8) (behind : List Char) : Item False behind (encodeByte byte)
    [byte] := by
  unfold encodeByte
  split
  case h_7 =>
    rename_i _ _ _ _ _ notBackslash
    split
    · rename_i printable
      have ascii : byte.toNat < 127 := UInt8.lt_iff_toNat_lt.mp printable.2
      have backslash : ∀ code < 128, Char.ofNat code = '\\' → code = 92 := by decide
      have ordinary : Char.ofNat byte.toNat ≠ '\\' := fun same =>
        notBackslash (UInt8.toNat_inj.mp (backslash _ (by omega) same))
      have item : Item False behind _ _ := .plain ordinary
      rwa [utf8EncodeChar_ofByte (by omega)] at item
    · have item : Item False behind _ _ := .byte (numeral_hexPair byte)
      rwa [UInt8.ofNat_toNat] at item
  all_goals exact .simple (by decide)

theorem denotes_encode (bytes : Bytes) : Denotes False (bytes.flatMap encodeByte) bytes := by
  induction bytes with
  | nil => exact .nil
  | cons byte bytes ih => exact .item (item_encodeByte byte _) ih

/-- What is between the quotes of a displayed string pattern decodes to the bytes of the pattern. -/
theorem displayed_bytes_decode (bytes : Bytes) :
    ∃ text, (Pat.str bytes).display = "\"" ++ text ++ "\"" ∧ decode text = .ok bytes := by
  refine ⟨encode bytes, by rw [Pat.display, Pat.render], ?_⟩
  rw [decode, encode, String.toList_ofList]
  exact decodeChars_eq_ok.mpr (denotes_encode bytes).of_unsigned

end PolyCheck.Escape
