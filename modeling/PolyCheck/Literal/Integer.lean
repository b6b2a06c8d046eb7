import PolyCheck.Literal

/-! Integer literals in two's complement. Every bit pattern that fits the width is accepted, so the
upper half of the magnitudes denotes the negative values. -/
namespace PolyCheck

/-- Two's-complement reading of a `width`-bit pattern. -/
def signedValue (width magnitude : Nat) : Int :=
  if 2 * magnitude < intCount width then magnitude else magnitude - intCount width

def intValue (magnitude width : Nat) : Except LiteralFault Int :=
  if width = 0 ∨ maxIntWidth < width then
    .error (.badWidth width)
  else if magnitude < intCount width then
    .ok (signedValue width magnitude)
  else
    .error (.tooLarge magnitude width)

end PolyCheck
