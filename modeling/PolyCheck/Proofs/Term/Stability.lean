import PolyCheck.Proofs.Registry
import PolyCheck.Proofs.Subst.Sparing
import PolyCheck.Proofs.Term.Typing

/-! Typed terms stay typed while definitions are added and as long as the variables in their types
are left unsolved. -/
namespace PolyCheck

namespace Pat

variable {registry registry' : Registry}

mutual

theorem Typed.grow (grows : registry.Grows registry') :
    ∀ {p : Pat} {ty : Ty} {captures : List (Name × Ty)},
      Typed registry p ty captures → Typed registry' p ty captures
  | .wild _, _, _, typed => by
    cases typed with
    | any => exact .any _
    | capturing => exact .capturing _ _
  | .bool _, _, _, typed => by
    cases typed with
    | bool provided => exact .bool (provided.grow grows) _
  | .int _ _, _, _, typed => by
    cases typed with
    | int provided range => exact .int (provided.grow grows) range
  | .str _, _, _, typed => by
    cases typed with
    | str provided => exact .str (provided.grow grows) _
  | .tuple _, _, _, typed => by
    cases typed with
    | tuple each => exact .tuple (TypedAll.grow grows each)
  | .ctor _ _ _ _, _, _, typed => by
    cases typed with
    | ctor declares each =>
      refine .ctor (declares.grow grows) ?_
      rw [declares.fieldsAt_grow grows]
      exact TypedAll.grow grows each
  | .oneOf [], ty, _, typed => by
    cases typed
    exact .never ty
  | .oneOf (_ :: _), _, _, typed => by
    cases typed with
    | oneOf here others => exact .oneOf (Typed.grow grows here) (TypedChoice.grow grows others)

theorem TypedAll.grow (grows : registry.Grows registry') :
    ∀ {ps : List Pat} {types : List Ty} {captures : List (Name × Ty)},
      TypedAll registry ps types captures → TypedAll registry' ps types captures
  | [], _, _, typed => by
    cases typed
    exact .nil
  | _ :: _, _, _, typed => by
    cases typed with
    | cons first rest => exact .cons (Typed.grow grows first) (TypedAll.grow grows rest)

theorem TypedChoice.grow (grows : registry.Grows registry') :
    ∀ {ps : List Pat} {ty : Ty} {captures : List (Name × Ty)},
      TypedChoice registry ps ty captures → TypedChoice registry' ps ty captures
  | [], _, _, _ => .nil
  | _ :: _, _, _, typed => by
    cases typed with
    | cons first same rest =>
      exact .cons (Typed.grow grows first) same (TypedChoice.grow grows rest)

end

end Pat

namespace Term

variable {subst after : Subst} {registry registry' : Registry} {context : Context} {term : Term}
  {ty : Ty}

theorem resolved_later (size_le : subst.size ≤ after.size)
    (unsolved : ∀ v, subst.Unsolved v → after.Unsolved v) (resolved : subst.Resolved ty) :
    after.Resolved ty :=
  ⟨resolved.1.mono size_le, fun v member => unsolved v (resolved.2 v member)⟩

/-- The rules speak of variables only as unsolved ones. -/
theorem Typed.later (typed : Typed subst registry context term) (size_le : subst.size ≤ after.size)
    (unsolved : ∀ v, subst.Unsolved v → after.Unsolved v) (grows : registry.Grows registry') :
    Typed after registry' context term := by
  have keeps : ∀ {ty : Ty}, subst.Resolved ty → after.Resolved ty :=
    fun resolved => resolved_later size_le unsolved resolved
  induction typed with
  | var named known resolved isInstance resolvedTy =>
    exact .var named known (keeps resolved) isInstance (keeps resolvedTy)
  | bool provided value => exact .bool (provided.grow grows) value
  | int provided range => exact .int (provided.grow grows) range
  | str provided bytes => exact .str (provided.grow grows) bytes
  | tuple _ ih => exact .tuple ih
  | constant declares empty resolved =>
    exact .constant (declares.grow grows) empty (keeps resolved)
  | ctor declares nonempty resolved _ fields ih =>
    refine .ctor (declares.grow grows) nonempty (keeps resolved) ih ?_
    rw [declares.fieldsAt_grow grows]
    exact fields
  | lambda named resolved _ ih => exact .lambda named (keeps resolved) ih
  | app _ _ fits ihFunction ihArg => exact .app ihFunction ihArg fits
  | letIn named _ types general _ ihValues ihBody =>
    exact .letIn named ihValues types general ihBody
  | matchOn captures _ pats distinct named _ results resolved ihScrutinee ihBodies =>
    exact .matchOn captures ihScrutinee (fun arm member => (pats arm member).grow grows)
      distinct named ihBodies results (keeps resolved)

end Term

end PolyCheck
