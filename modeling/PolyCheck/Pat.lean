import PolyCheck.Literal.Escape
import PolyCheck.Name
import PolyCheck.Ty

/-! Checked patterns. Constructors are resolved to the case of a definition, literals are decoded,
and a wildcard may carry the name that it captures. Patterns hold no types. -/
namespace PolyCheck

inductive Pat where
  | wild (capture : Option Name)
  | bool (value : Bool)
  | int (width : Nat) (value : Int)
  | str (bytes : Bytes)
  | tuple (elems : List Pat)
  | ctor (name : Name) (template : TemplateId) (index : Nat) (args : List Pat)
  | oneOf (alternatives : List Pat)
deriving Inhabited

inductive Head where
  | bool (value : Bool)
  | int (value : Int)
  | str (bytes : Bytes)
  | tuple (arity : Nat)
  | variant (index : Nat)
deriving DecidableEq, Inhabited

namespace Pat

/-- The pattern that matches everything and captures nothing. -/
def any : Pat := wild none

def capturing (name : Name) : Pat := wild (some name)

def anys (count : Nat) : List Pat := List.replicate count any

def ofConstant : Constant → Pat
  | .bool value => bool value
  | .int width value => int width value
  | .str bytes => str bytes

def isWild : Pat → Bool
  | wild _ => true
  | _ => false

def isOneOf : Pat → Bool
  | oneOf _ => true
  | _ => false

def head? : Pat → Option Head
  | wild _ => none
  | bool value => some (.bool value)
  | int _ value => some (.int value)
  | str bytes => some (.str bytes)
  | tuple elems => some (.tuple elems.length)
  | ctor _ _ index _ => some (.variant index)
  | oneOf _ => none

def fields : Pat → List Pat
  | tuple elems => elems
  | ctor _ _ _ args => args
  | _ => []

/-- The head of a pattern over other patterns. -/
def withFields : Pat → List Pat → Pat
  | tuple _, fields => tuple fields
  | ctor name template index _, fields => ctor name template index fields
  | other, _ => other

mutual

/-- Captured names from left to right; alternatives contribute those of the first one. -/
def captures : Pat → List Name
  | wild (some name) => [name]
  | tuple elems => capturesAll elems
  | ctor _ _ _ args => capturesAll args
  | oneOf alternatives => capturesFirst alternatives
  | _ => []

def capturesAll : List Pat → List Name
  | [] => []
  | p :: ps => captures p ++ capturesAll ps

def capturesFirst : List Pat → List Name
  | [] => []
  | p :: _ => captures p

end

mutual

/-- The patterns without alternatives at their head that a pattern stands for, in order. -/
def alternatives : Pat → List Pat
  | oneOf ps => alternativesAll ps
  | wild capture => [wild capture]
  | bool value => [bool value]
  | int width value => [int width value]
  | str bytes => [str bytes]
  | tuple elems => [tuple elems]
  | ctor name template index args => [ctor name template index args]

def alternativesAll : List Pat → List Pat
  | [] => []
  | p :: ps => alternatives p ++ alternativesAll ps

end

mutual

/-- The text of a pattern; `atom` asks for parentheses around what has parts side by side. -/
def render (atom : Bool) : Pat → String
  | wild none => "_"
  | wild (some name) => name
  | bool value => if value then "true" else "false"
  | int _ value => toString value
  | str bytes => "\"" ++ Escape.encode bytes ++ "\""
  | tuple elems => "(" ++ ", ".intercalate (renderAll false elems) ++ ")"
  | ctor name _ _ args =>
    let text := " ".intercalate (name :: renderAll true args)
    if atom && !args.isEmpty then "(" ++ text ++ ")" else text
  | oneOf ps =>
    let text := " | ".intercalate (renderAll true ps)
    if atom then "(" ++ text ++ ")" else text

def renderAll (atom : Bool) : List Pat → List String
  | [] => []
  | p :: ps => render atom p :: renderAll atom ps

end

def display (pat : Pat) : String := pat.render false

end Pat

end PolyCheck
