/-! Kinds classify types: `*` is the kind of the types that have values, an arrow the kind of a
function on types. -/
namespace PolyCheck

inductive Kind where
  | star
  | arrow (param result : Kind)
  | var (index : Nat)
deriving DecidableEq, Inhabited

namespace Kind

def function (params : List Kind) (result : Kind) : Kind :=
  params.foldr arrow result

def ofArity (count : Nat) : Kind :=
  function (List.replicate count star) star

def display : Kind → String
  | star => "*"
  | var index => "?k" ++ toString index
  | arrow (arrow p q) result => "(" ++ display (arrow p q) ++ ") -> " ++ display result
  | arrow param result => display param ++ " -> " ++ display result

def size : Kind → Nat
  | star => 1
  | var _ => 1
  | arrow param result => size param + size result + 1

end Kind

end PolyCheck
