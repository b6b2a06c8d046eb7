/-! Literals as a program spells them, and the constants they denote. A string literal keeps its raw
text, escapes included; an integer literal keeps its magnitude and the width of its suffix. -/
namespace PolyCheck

inductive Literal where
  | bool (value : Bool)
  | int (magnitude : Nat) (width : Option Nat)
  | str (raw : String)
deriving DecidableEq, Inhabited

def Literal.display : Literal → String
  | bool value => if value then "true" else "false"
  | int magnitude (some width) => toString magnitude ++ "i" ++ toString width
  | int magnitude none => toString magnitude
  | str raw => "\"" ++ raw ++ "\""

abbrev Bytes := List UInt8

/-- A checked literal. An integer is held as its signed value. -/
inductive Constant where
  | bool (value : Bool)
  | int (width : Nat) (value : Int)
  | str (bytes : Bytes)
deriving DecidableEq, Inhabited

inductive LiteralFault where
  | badWidth (width : Nat)
  | tooLarge (magnitude width : Nat)
  | trailingBackslash
  | badByte (taken : List Char)
  | unopenedScalar
  | badScalar (taken : List Char)
  | notScalar (digits : List Char)
  | octalTooLarge (value : Nat)
  | unknownEscape (escape : Char)
deriving DecidableEq

def maxIntWidth : Nat := 128

def intCount (width : Nat) : Nat := 1 <<< width

def LiteralFault.message : LiteralFault → String
  | badWidth width =>
    "integer width must be between 1 and " ++ toString maxIntWidth ++ ", not " ++ toString width
  | tooLarge magnitude width =>
    toString magnitude ++ " does not fit in " ++ toString width ++ " bits"
  | trailingBackslash => "string ends in a backslash"
  | badByte taken => "bad byte escape \\x" ++ String.ofList taken
  | unopenedScalar => "expected `\x7b` after \\u"
  | badScalar taken => "bad unicode escape \\u\x7b" ++ String.ofList taken
  | notScalar digits =>
    "\\u\x7b" ++ String.ofList digits ++ "\x7d is not a unicode scalar value"
  | octalTooLarge value =>
    "octal escape \\" ++ String.ofList (Nat.toDigits 8 value) ++ " is above \\377"
  | unknownEscape escape => "unknown escape \\" ++ String.singleton escape

end PolyCheck
