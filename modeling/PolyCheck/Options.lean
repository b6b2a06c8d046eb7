import PolyCheck.Literal
import PolyCheck.Log
import PolyCheck.Text.Quoted

/-! Settings of a session and their reading from named variables. The variables are read in a fixed
order, and the first value that cannot be read is reported. -/
namespace PolyCheck

structure Options where
  warnUseless : Bool
  warnNonExhaustive : Bool
  defaultIntWidth : Nat
  logLevel : Option LogLevel
deriving DecidableEq

/-- All warnings on, integers of 32 bits, and no change of the log level. -/
def Options.standard : Options := ⟨true, true, 32, none⟩

instance : Inhabited Options := ⟨.standard⟩

/-- A variable whose value cannot be read. -/
structure SettingError where
  setting : String
  value : String
deriving DecidableEq

def SettingError.message (error : SettingError) : String :=
  "invalid value for " ++ error.setting ++ ": " ++ Text.quote error.value

namespace Options

def logSetting : String := "TERN_LOG"

def widthSetting : String := "TERN_DEFAULT_INT_WIDTH"

def uselessSetting : String := "TERN_WARN_USELESS"

def nonExhaustiveSetting : String := "TERN_WARN_NON_EXHAUSTIVE"

def flag? (text : String) : Option Bool :=
  match Text.keyword text with
  | "1" | "true" | "on" | "yes" => some true
  | "0" | "false" | "off" | "no" => some false
  | _ => none

/-- A decimal numeral of ASCII digits, with a plus sign in front of it or not. -/
def numeral? (text : List Char) : Option Nat :=
  let digits := match text with
    | '+' :: rest => rest
    | all => all
  if digits.isEmpty || !digits.all Char.isDigit then none
  else some (digits.foldl (fun value c => 10 * value + (c.toNat - '0'.toNat)) 0)

def width? (text : String) : Option Nat :=
  (numeral? (Text.trim text).toList).filter fun width => 1 ≤ width ∧ width ≤ maxIntWidth

/-- Applies the value of a variable, if it has one. -/
def readSetting {α : Type} (lookup : String → Option String) (setting : String)
    (read? : String → Option α) (update : Options → α → Options) (options : Options) :
    Except SettingError Options :=
  match lookup setting with
  | none => .ok options
  | some text =>
    match read? text with
    | some value => .ok (update options value)
    | none => .error ⟨setting, text⟩

def fromLookup (lookup : String → Option String) : Except SettingError Options := do
  let options ← readSetting lookup logSetting LogLevel.parse?
    (fun options level => { options with logLevel := some level }) standard
  let options ← readSetting lookup widthSetting width?
    (fun options width => { options with defaultIntWidth := width }) options
  let options ← readSetting lookup uselessSetting flag?
    (fun options on => { options with warnUseless := on }) options
  readSetting lookup nonExhaustiveSetting flag?
    (fun options on => { options with warnNonExhaustive := on }) options

end Options

end PolyCheck
