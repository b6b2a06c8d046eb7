import PolyCheck.Name
import PolyCheck.Table

/-! A table that gives every distinct string a number, in order of first appearance. The names of
the two built-in types and of the two truth values are entered first, so their numbers are fixed. -/
namespace PolyCheck

structure Symbol where
  id : Nat
deriving DecidableEq, Inhabited

def Symbol.fallback (symbol : Symbol) : String :=
  "#" ++ toString symbol.id

structure Interner where
  strings : Array String
  symbols : Table String Symbol
  supply : NameSupply

namespace Interner

def get? (table : Interner) (text : String) : Option Symbol :=
  table.symbols.get? text

def resolve? (table : Interner) (symbol : Symbol) : Option String :=
  table.strings[symbol.id]?

/-- The handle of a string, which is entered when it is new. -/
def intern (table : Interner) (text : String) : Symbol × Interner :=
  match table.get? text with
  | some symbol => (symbol, table)
  | none =>
    let symbol : Symbol := ⟨table.strings.size⟩
    (symbol, { table with
      strings := table.strings.push text
      symbols := table.symbols.insert text symbol })

/-- Mints a name and enters it. A name that was entered before under the same spelling is not
skipped. -/
def fresh (table : Interner) (stem : String) : Symbol × Interner :=
  let (name, supply) := table.supply.mint stem
  { table with supply }.intern name

/-- The string of a handle, or its number when the table does not know it. -/
def display (table : Interner) (symbol : Symbol) : String :=
  (table.resolve? symbol).getD symbol.fallback

def isFresh (table : Interner) (symbol : Symbol) : Bool :=
  (table.resolve? symbol).any Name.isMinted

def size (table : Interner) : Nat := table.strings.size

def isEmpty (table : Interner) : Bool := table.strings.isEmpty

def builtinNames : List String := ["bool", "string", "true", "false"]

/-- The table that holds the built-in names only. -/
def initial : Interner :=
  builtinNames.foldl (fun table text => (table.intern text).2) ⟨#[], .empty, .empty⟩

end Interner

end PolyCheck
