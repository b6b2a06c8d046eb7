import PolyCheck.Text.Blank

/-! Severity levels and the threshold below which records are dropped. -/
namespace PolyCheck

inductive LogLevel where
  | error
  | warn
  | info
  | debug
  | trace
deriving DecidableEq, Inhabited

namespace LogLevel

def rank : LogLevel → Nat
  | error => 0
  | warn => 1
  | info => 2
  | debug => 3
  | trace => 4

def display : LogLevel → String
  | error => "ERROR"
  | warn => "WARN"
  | info => "INFO"
  | debug => "DEBUG"
  | trace => "TRACE"

/-- Reads a level name; `warning` is a second spelling of `warn`. -/
def parse? (text : String) : Option LogLevel :=
  match Text.keyword text with
  | "error" => some error
  | "warn" | "warning" => some warn
  | "info" => some info
  | "debug" => some debug
  | "trace" => some trace
  | _ => none

def invalidMessage (text : String) : String :=
  "invalid log level: " ++ text

def enabledAt (level threshold : LogLevel) : Bool :=
  level.rank ≤ threshold.rank

end LogLevel

end PolyCheck
