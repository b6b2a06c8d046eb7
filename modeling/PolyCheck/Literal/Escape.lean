import PolyCheck.Literal

/-! Escapes of string literals. A raw text is a sequence of plain characters and escapes, and
denotes the bytes of its items in order. -/
namespace PolyCheck.Escape

def octalDigit? (c : Char) : Option Nat :=
  if '0' ≤ c ∧ c ≤ '7' then some (c.toNat - '0'.toNat) else none

def hexDigit? (c : Char) : Option Nat :=
  if '0' ≤ c ∧ c ≤ '9' then some (c.toNat - '0'.toNat)
  else if 'a' ≤ c ∧ c ≤ 'f' then some (c.toNat - 'a'.toNat + 10)
  else if 'A' ≤ c ∧ c ≤ 'F' then some (c.toNat - 'A'.toNat + 10)
  else none

/-- The numeral with these digits in base sixteen; there has to be one digit at least. -/
def hexNumeral? : List Char → Option Nat
  | [] => none
  | digits => digits.foldlM (fun value c => (hexDigit? c).map (16 * value + ·)) 0

/-- The byte of a two-character numeral. A plus sign may stand in place of the first digit. -/
def byteOf? (first second : Char) : Option UInt8 :=
  let digits := if first = '+' then [second] else [first, second]
  (hexNumeral? digits).map UInt8.ofNat

/-- The character with this code point, when it is a Unicode scalar value. -/
def scalar? (code : Nat) : Option Char :=
  if h : code.isValidChar then some (Char.ofNatAux code h) else none

abbrev Reading := Except LiteralFault (Bytes × List Char)

def readByte : List Char → Reading
  | first :: second :: rest =>
    match byteOf? first second with
    | some byte => .ok ([byte], rest)
    | none => .error (.badByte [first, second])
  | short => .error (.badByte short)

/-- Reads the digits of a code point up to the closing brace; `taken` holds those read so far. -/
def readScalarDigits (taken : List Char) : List Char → Reading
  | [] => .error (.badScalar taken)
  | c :: rest =>
    if c = '\x7d' then
      match (hexNumeral? taken).bind scalar? with
      | some scalar => .ok (String.utf8EncodeChar scalar, rest)
      | none => .error (.notScalar taken)
    else if (hexDigit? c).isSome ∧ taken.length < 6 then
      readScalarDigits (taken ++ [c]) rest
    else
      .error (.badScalar taken)

def readScalar : List Char → Reading
  | c :: rest => if c = '\x7b' then readScalarDigits [] rest else .error .unopenedScalar
  | [] => .error .unopenedScalar

/-- Reads an octal numeral of at most three digits, the first of which is given. -/
def readOctal (first : Nat) (rest : List Char) : Reading :=
  let digits := ((rest.take 2).map octalDigit?).takeWhile Option.isSome
  let value := digits.foldl (fun value digit => 8 * value + digit.getD 0) first
  if value ≤ 255 then
    .ok ([UInt8.ofNat value], rest.drop digits.length)
  else
    .error (.octalTooLarge value)

def simpleByte? (c : Char) : Option UInt8 :=
  match c with
  | 'n' => some 10
  | 'r' => some 13
  | 't' => some 9
  | '\\' => some 92
  | '\x22' => some 34
  | '\x27' => some 39
  | _ => none

def readEscape : List Char → Reading
  | [] => .error .trailingBackslash
  | c :: rest =>
    match simpleByte? c with
    | some byte => .ok ([byte], rest)
    | none =>
      if c = 'x' then readByte rest
      else if c = 'u' then readScalar rest
      else
        match octalDigit? c with
        | some digit => readOctal digit rest
        | none => .error (.unknownEscape c)

theorem readScalarDigits_length {taken text : List Char} {bytes : Bytes} {rest : List Char}
    (read : readScalarDigits taken text = .ok (bytes, rest)) : rest.length < text.length := by
  induction text generalizing taken with
  | nil => simp [readScalarDigits] at read
  | cons c tail ih =>
    simp only [readScalarDigits] at read
    split at read
    · split at read <;> simp_all
    · split at read
      · have := ih read
        simp only [List.length_cons]
        omega
      · simp at read

theorem readEscape_length {text : List Char} {bytes : Bytes} {rest : List Char}
    (read : readEscape text = .ok (bytes, rest)) : rest.length < text.length := by
  cases text with
  | nil => simp [readEscape] at read
  | cons c tail =>
    simp only [readEscape] at read
    split at read
    · simp_all
    · split at read
      · unfold readByte at read
        split at read
        · split at read <;> simp_all
          omega
        · simp at read
      · split at read
        · unfold readScalar at read
          split at read
          · split at read
            · have := readScalarDigits_length read
              simp only [List.length_cons]
              omega
            · simp at read
          · simp at read
        · split at read
          · simp only [readOctal] at read
            split at read
            · simp only [Except.ok.injEq, Prod.mk.injEq] at read
              rw [← read.2]
              simp only [List.length_drop, List.length_cons]
              omega
            · simp at read
          · simp at read

def decodeChars (text : List Char) : Except LiteralFault Bytes :=
  match text with
  | [] => .ok []
  | c :: rest =>
    if c = '\\' then
      match found : readEscape rest with
      | .error fault => .error fault
      | .ok (bytes, behind) =>
        have := readEscape_length found
        (decodeChars behind).map (bytes ++ ·)
    else
      (decodeChars rest).map (String.utf8EncodeChar c ++ ·)
termination_by text.length
decreasing_by
  · simp only [List.length_cons]
    omega
  · simp

def decode (raw : String) : Except LiteralFault Bytes :=
  decodeChars raw.toList

def hexPair (byte : UInt8) : List Char :=
  [Nat.digitChar (byte.toNat / 16), Nat.digitChar (byte.toNat % 16)]

/-- A byte in printable ASCII; bytes outside of it are written as byte escapes. -/
def encodeByte (byte : UInt8) : List Char :=
  match byte with
  | 9 => ['\\', 't']
  | 13 => ['\\', 'r']
  | 10 => ['\\', 'n']
  | 39 => ['\\', '\x27']
  | 34 => ['\\', '\x22']
  | 92 => ['\\', '\\']
  | _ =>
    if 0x20 ≤ byte ∧ byte < 0x7f then [Char.ofNat byte.toNat]
    else '\\' :: 'x' :: hexPair byte

def encode (bytes : Bytes) : String :=
  String.ofList (bytes.flatMap encodeByte)

end PolyCheck.Escape
