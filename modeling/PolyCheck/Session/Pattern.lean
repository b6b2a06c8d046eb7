import PolyCheck.Pat
import PolyCheck.Session.Elaboration

/-! Checking of patterns. The result is a checked pattern with the type of the values it matches;
the names it captures are collected with their types. A bare name of a constructor is that
constructor. The alternatives of a pattern capture the same names at the same types. -/
namespace PolyCheck

abbrev Captures := List (Name × Ty)

abbrev Capturing := StateT Captures Check

namespace Check

def addCapture (name : Name) (ty : Ty) (span : Span) : Capturing Unit := do
  let captures ← get
  if captures.any (·.1 = name) then
    (fail (.duplicateName .capture name) span : Check Unit)
  else
    set (captures ++ [(name, ty)])

/-- The first name that only one of two alternatives captures. -/
def unsharedCapture? (shared own : Captures) : Option Name :=
  ((shared.find? fun (name, _) => !own.any (·.1 = name)).or
    (own.find? fun (name, _) => !shared.any (·.1 = name))).map (·.1)

def agree (shared own : Captures) (span : Span) : Check Unit := do
  match unsharedCapture? shared own with
  | some name => fail (.undeclaredName .capture name) span
  | none =>
    own.forM fun (name, ty) =>
      match shared.lookup name with
      | some sharedTy => unify sharedTy ty span
      | none => pure ()

def wildFields (span : Span) : List Ty → Check (List Pat)
  | [] => pure []
  | field :: fields => do
    unify field (← freshVar) span
    let rest ← wildFields span fields
    pure (.any :: rest)

def ctorPattern (name : Name) (span : Span) : Check (CtorInfo × List Ty × Ty) := do
  match ← lookupCtor? name with
  | none => fail (.undeclaredName .constructor name) span
  | some info =>
    let (fields, result) ← ctorInstance info
    pure (info, fields, result)

def expectFields (name : Name) (expected found : Nat) (span : Span) : Check Unit :=
  if found = expected then pure () else fail (.malformedConstructor name expected found) span

mutual

def pattern : Surface.Pattern → Capturing (Pat × Ty)
  | .wild _ => do
    let ty ← freshVar
    pure (.any, ty)
  | .lit span value => do
    let (constant, ty) ← literal value span
    pure (.ofConstant constant, ty)
  | .bind span name => do
    match ← lookupCtor? name with
    | some _ =>
      let (info, fields, result) ← ctorPattern name span
      expectFields name fields.length 0 span
      pure (.ctor name info.template info.index [], result)
    | none =>
      let ty ← freshVar
      addCapture name ty span
      pure (.capturing name, ty)
  | .tuple _ [inner] => pattern inner
  | .tuple _ elements => do
    let elems ← elementPatterns elements
    pure (.tuple (elems.map (·.1)), .tuple (elems.map (·.2)))
  | .ctor span name args => do
    let (info, fields, result) ← ctorPattern name span
    let subpatterns ← match args with
      | [.tuple tupleSpan elements] =>
        if 1 < fields.length ∧ elements.length = fields.length then
          fieldPatterns elements fields
        else do
          expectFields name fields.length 1 span
          fieldPatterns [.tuple tupleSpan elements] fields
      | [.wild wildSpan] =>
        if 1 < fields.length then
          wildFields wildSpan fields
        else do
          expectFields name fields.length 1 span
          wildFields wildSpan fields
      | args => do
        expectFields name fields.length args.length span
        fieldPatterns args fields
    pure (.ctor name info.template info.index subpatterns, result)
  | .ascribed span inner type => do
    let (pat, found) ← pattern inner
    let expected ← writtenType type
    unify expected found span
    pure (pat, expected)
  | .oneOf _ [] => do
    let ty ← freshVar
    pure (.oneOf [], ty)
  | .oneOf span (first :: rest) => do
    let ((pat, ty), shared) ← (pattern first).run []
    let pats ← alternativePatterns ty shared rest
    shared.forM fun (name, captureTy) => addCapture name captureTy span
    if pats.isEmpty then pure (pat, ty) else pure (.oneOf (pat :: pats), ty)

def elementPatterns : List Surface.Pattern → Capturing (List (Pat × Ty))
  | [] => pure []
  | element :: rest => do
    let first ← pattern element
    let rest ← elementPatterns rest
    pure (first :: rest)

def fieldPatterns : List Surface.Pattern → List Ty → Capturing (List Pat)
  | arg :: args, field :: fields => do
    let (pat, ty) ← pattern arg
    unify field ty arg.span
    let rest ← fieldPatterns args fields
    pure (pat :: rest)
  | _, _ => pure []

/-- Further alternatives for values of the given type, with the given captures. -/
def alternativePatterns (ty : Ty) (shared : Captures) :
    List Surface.Pattern → Check (List Pat)
  | [] => pure []
  | alternative :: rest => do
    let ((pat, ownTy), own) ← (pattern alternative).run []
    unify ty ownTy alternative.span
    agree shared own alternative.span
    let rest ← alternativePatterns ty shared rest
    pure (pat :: rest)

end

end Check

end PolyCheck
