/-! Source locations. Offsets count bytes from zero and the end is exclusive; lines and columns
count from one, and columns count bytes. -/
namespace PolyCheck

structure LineCol where
  line : Nat
  col : Nat
deriving DecidableEq, Inhabited

def LineCol.display (position : LineCol) : String :=
  toString position.line ++ ":" ++ toString position.col

structure Span where
  start : Nat
  stop : Nat
  startLine : Nat
  startCol : Nat
  endLine : Nat
  endCol : Nat
deriving DecidableEq, Inhabited

namespace Span

def synthetic : Span := ⟨0, 0, 0, 0, 0, 0⟩

def merge (left right : Span) : Span :=
  ⟨left.start, right.stop, left.startLine, left.startCol, right.endLine, right.endCol⟩

def point (offset line col : Nat) : Span :=
  ⟨offset, offset, line, col, line, col⟩

/-- Number of bytes, zero when the end lies before the start. -/
def length (span : Span) : Nat := span.stop - span.start

def isEmpty (span : Span) : Bool := span.start == span.stop

def startPos (span : Span) : LineCol := ⟨span.startLine, span.startCol⟩

def endPos (span : Span) : LineCol := ⟨span.endLine, span.endCol⟩

def display (span : Span) : String := span.startPos.display

end Span

end PolyCheck
