import PolyCheck.Literal
import PolyCheck.Name
import PolyCheck.Span

/-! What can be wrong with a unit. Types and kinds are held as texts, because what they refer to is
taken back together with the unit. -/
namespace PolyCheck

inductive NameKind where
  | type
  | typeVar
  | constructor
  | value
  | capture
deriving DecidableEq, Inhabited

def NameKind.display : NameKind → String
  | type => "type"
  | typeVar => "type variable"
  | constructor => "constructor"
  | value => "value"
  | capture => "pattern variable"

inductive RecursionFault where
  | notConstructive
  | immediatelyLinked
deriving DecidableEq, Inhabited

def RecursionFault.message : RecursionFault → String
  | notConstructive => "its initializer must be a function or constructor application"
  | immediatelyLinked => "its initializer is an alias of a binding in the same group"

inductive ErrorKind where
  | unificationFailure
  | scopeEscape
  | duplicateName
  | undeclaredName
  | malformedConstructor
  | illegalRecursiveBinding
  | invalidLiteral
deriving DecidableEq, Inhabited

/-- The cause of a refusal. Three of them say that a check came to no end: `unfinished` that two
types could not be compared, `endless` that a type could not be resolved, and `endlessCoverage` that
a search for values met a type that has no head. -/
inductive ErrorCause where
  | mismatch (expected found : String)
  | infiniteType (var ty : String)
  | unfinished (expected found : String)
  | endless
  | endlessCoverage
  | kindMismatch (expected found : String)
  | scopeEscape (var : String) (ty : Option String)
  | duplicateName (what : NameKind) (name : Name)
  | undeclaredName (what : NameKind) (name : Name)
  | malformedConstructor (name : Name) (expected found : Nat)
  | illegalRecursion (name : Name) (fault : RecursionFault)
  | invalidLiteral (fault : LiteralFault)
deriving DecidableEq

namespace ErrorCause

def kind : ErrorCause → ErrorKind
  | mismatch _ _ | infiniteType _ _ | unfinished _ _ | endless | endlessCoverage
  | kindMismatch _ _ => .unificationFailure
  | scopeEscape _ _ => .scopeEscape
  | duplicateName _ _ => .duplicateName
  | undeclaredName _ _ => .undeclaredName
  | malformedConstructor _ _ _ => .malformedConstructor
  | illegalRecursion _ _ => .illegalRecursiveBinding
  | invalidLiteral _ => .invalidLiteral

def description : ErrorCause → String
  | mismatch _ _ => "type mismatch"
  | infiniteType _ _ => "infinite type"
  | unfinished _ _ => "unfinished comparison"
  | endless => "unfinished resolution"
  | endlessCoverage => "unfinished coverage"
  | kindMismatch _ _ => "kind mismatch"
  | scopeEscape _ _ => "type variable escapes its scope"
  | duplicateName _ _ => "duplicate name"
  | undeclaredName _ _ => "undeclared name"
  | malformedConstructor _ _ _ => "malformed constructor"
  | illegalRecursion _ _ => "illegal recursive binding"
  | invalidLiteral _ => "invalid literal"

def message : ErrorCause → String
  | mismatch expected found => "type mismatch: expected " ++ expected ++ ", found " ++ found
  | infiniteType var ty => "infinite type: " ++ var ++ " occurs in " ++ ty
  | unfinished expected found => "unfinished comparison of " ++ expected ++ " and " ++ found
  | endless => "unfinished resolution of a type"
  | endlessCoverage => "unfinished search for values that no case takes"
  | kindMismatch expected found => "kind mismatch: expected " ++ expected ++ ", found " ++ found
  | scopeEscape var (some ty) => "type variable " ++ var ++ " is rigid and cannot be " ++ ty
  | scopeEscape var none => "type variable " ++ var ++ " escapes its scope"
  | duplicateName what name => what.display ++ " " ++ name ++ " is declared more than once"
  | undeclaredName what name => "undeclared " ++ what.display ++ ": " ++ name
  | malformedConstructor name expected found =>
    "constructor " ++ name ++ " takes " ++ toString expected ++ " field(s) but " ++
      toString found ++ " were given"
  | illegalRecursion name fault => "illegal recursive binding " ++ name ++ ": " ++ fault.message
  | invalidLiteral fault => "invalid literal: " ++ fault.message

end ErrorCause

structure TypeError where
  cause : ErrorCause
  span : Span
deriving DecidableEq

namespace TypeError

def kind (error : TypeError) : ErrorKind := error.cause.kind

def description (error : TypeError) : String := error.cause.description

def message (error : TypeError) : String := error.cause.message

end TypeError

end PolyCheck
