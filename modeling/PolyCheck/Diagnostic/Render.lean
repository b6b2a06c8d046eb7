import PolyCheck.Diagnostic
import PolyCheck.Text.Lines

/-! Findings with the source lines they point at, underlined by carets. Columns count bytes, so the
carets stand under the right characters when the line is ASCII. -/
namespace PolyCheck

def Severity.colour : Severity → String
  | error => "\x1b[31m"
  | warning => "\x1b[33m"
  | note => "\x1b[36m"
  | help => "\x1b[32m"

def Severity.paint (severity : Severity) (coloured : Bool) (text : String) : String :=
  if coloured then severity.colour ++ text ++ "\x1b[0m" else text

namespace Diagnostic

def touchedLines (span : Span) (count : Nat) : Nat × Nat :=
  let last := count - 1
  let first := min (span.startLine - 1) last
  (first, min (max (span.endLine - 1) first) last)

/-- One source line under its number, and the carets below it when the span is not empty there. -/
def renderLine (severity : Severity) (coloured : Bool) (span : Span) (first last : Nat)
    (index : Nat) (line : String) : String :=
  let start := if index = first then span.startCol else 1
  let stop := if index = last then span.endCol else line.utf8ByteSize + 1
  let shown := Text.padLeft 4 (index + 1) ++ " | " ++ line ++ "\n"
  if stop - start = 0 then
    shown
  else
    shown ++ "     | " ++ Text.repeated ' ' (start - 1) ++
      severity.paint coloured (Text.repeated '^' (stop - start)) ++ "\n"

def renderSource (severity : Severity) (coloured : Bool) (span : Span) (source : String) : String :=
  let lines := Text.lines source
  if lines.isEmpty || span.startLine = 0 then
    ""
  else
    let (first, last) := touchedLines span lines.length
    let shown := (lines.zipIdx.take (last + 1)).drop first
    String.join (shown.map fun (line, index) =>
      renderLine severity coloured span first last index line)

/-- The finding in full: headline, code, source lines, suggestions and remarks. -/
def render (diagnostic : Diagnostic) (coloured : Bool) (source : String) : String :=
  let headline := diagnostic.span.display ++ ": " ++
    diagnostic.severity.paint coloured diagnostic.severity.display ++ ": " ++
    diagnostic.message ++ "\n"
  let code := match diagnostic.code with
    | some code => "   [" ++ code ++ "]\n"
    | none => ""
  let suggestions := diagnostic.suggestions.map fun suggestion =>
    "   " ++ Severity.help.paint coloured Severity.help.display ++ ": " ++ suggestion ++ "\n"
  let remarks := diagnostic.remarks.map fun remark =>
    "   " ++ Severity.note.paint coloured Severity.note.display ++ " at " ++
      remark.span.display ++ ": " ++ remark.message ++ "\n"
  headline ++ code ++ renderSource diagnostic.severity coloured diagnostic.span source ++
    String.join suggestions ++ String.join remarks

end Diagnostic

end PolyCheck
