/-! Names of a checking session and the supply of minted names. A minted name starts with a percent
sign, which no source program can spell, and ends with the value of one counter, so two names minted
from stems without digits are never the same. -/
namespace PolyCheck

abbrev Name := String

/-- Counter behind minted names. -/
structure NameSupply where
  next : Nat
deriving DecidableEq, Inhabited

def NameSupply.empty : NameSupply := ⟨0⟩

def NameSupply.mint (supply : NameSupply) (stem : String) : Name × NameSupply :=
  ("%" ++ stem ++ toString supply.next, ⟨supply.next + 1⟩)

def Name.isMinted (name : Name) : Bool :=
  name.toList.head? == some '%'

@[simp] theorem NameSupply.mint_next (supply : NameSupply) (stem : String) :
    (supply.mint stem).2.next = supply.next + 1 := rfl

end PolyCheck
