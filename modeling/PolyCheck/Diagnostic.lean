import PolyCheck.Span

/-! Findings reported beside a result. A finding does not stop the unit it belongs to. -/
namespace PolyCheck

inductive Severity where
  | error
  | warning
  | note
  | help
deriving DecidableEq, Inhabited

def Severity.display : Severity → String
  | error => "error"
  | warning => "warning"
  | note => "note"
  | help => "help"

structure Remark where
  message : String
  span : Span
deriving DecidableEq, Inhabited

structure Diagnostic where
  severity : Severity
  code : Option String
  message : String
  span : Span
  suggestions : List String
  remarks : List Remark
deriving DecidableEq, Inhabited

namespace Diagnostic

def warning (message : String) (span : Span) : Diagnostic :=
  ⟨.warning, none, message, span, [], []⟩

def isWarning (diagnostic : Diagnostic) : Bool :=
  diagnostic.severity == .warning

def display (diagnostic : Diagnostic) : String :=
  let line := diagnostic.span.display ++ ": " ++ diagnostic.severity.display ++ ": " ++
    diagnostic.message
  match diagnostic.code with
  | some code => line ++ " [" ++ code ++ "]"
  | none => line

end Diagnostic

end PolyCheck
