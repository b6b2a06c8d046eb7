import PolyCheck.Proofs.Pat.Capture
import PolyCheck.Session.Pattern

/-! The types of the places in a pattern. Values of a type have components or fields of known types,
and the alternatives of a choice are all for values of the same type; so the type of a pattern gives
a type to each place in it, and each recorded name is asked to have the type of its place, wherever
the name stands. -/
namespace PolyCheck

/-- For values of the given type, the recorded type of every captured name is that of each place
where the pattern captures it. -/
inductive Pat.Sited (same : Ty → Ty → Prop) (registry : Registry) (captures : Captures) :
    Pat → Ty → Prop where
  | any (ty : Ty) : Sited same registry captures .any ty
  | capturing {name : Name} {recorded ty : Ty} (member : (name, recorded) ∈ captures)
      (equal : same recorded ty) : Sited same registry captures (.capturing name) ty
  | constant (constant : Constant) (ty : Ty) : Sited same registry captures
      (.ofConstant constant) ty
  | tuple {elems : List Pat} {types : List Ty} {ty : Ty} (equal : same ty (.tuple types))
    (length : elems.length = types.length) (each : ∀ entry ∈ elems.zip types,
      Sited same registry captures entry.1 entry.2) :
    Sited same registry captures (.tuple elems) ty
  | ctor {name : Name} {template : TemplateId} {index : Nat} {args : List Pat}
      {typeArgs : List Ty} {ty : Ty} (equal : same ty (.nominal template typeArgs))
    (length : args.length = (registry.fieldsAt template index typeArgs).length)
    (each : ∀ entry ∈ args.zip (registry.fieldsAt template index typeArgs),
      Sited same registry captures entry.1 entry.2) :
    Sited same registry captures (.ctor name template index args) ty
  | oneOf {alternatives : List Pat} {ty : Ty} (each : ∀ p ∈ alternatives,
      Sited same registry captures p ty) : Sited same registry captures (.oneOf alternatives) ty

namespace Pat.Sited

variable {same : Ty → Ty → Prop} {registry : Registry} {captures captures' : Captures} {p : Pat}
  {ty ty' : Ty}

theorem rerecord (sited : p.Sited same registry captures ty)
    (records : ∀ {name recorded ty}, (name, recorded) ∈ captures → same recorded ty →
      ∃ recorded', (name, recorded') ∈ captures' ∧ same recorded' ty) :
        p.Sited same registry captures' ty := by
  induction sited with
  | any ty => exact .any ty
  | capturing member equal =>
    obtain ⟨recorded', member', equal'⟩ := records member equal
    exact .capturing member' equal'
  | constant constant ty => exact .constant constant ty
  | tuple equal length _ ih => exact .tuple equal length ih
  | ctor equal length _ ih => exact .ctor equal length ih
  | oneOf _ ih => exact .oneOf ih

theorem mono (sited : p.Sited same registry captures ty) (more : captures ⊆ captures') :
    p.Sited same registry captures' ty :=
  sited.rerecord fun member equal => ⟨_, more member, equal⟩

theorem retype (sited : p.Sited same registry captures ty)
    (trans : ∀ {first second third}, same first second → same second third → same first third)
    (symm : ∀ {first second}, same first second → same second first) (equal : same ty' ty) :
    p.Sited same registry captures ty' := by
  induction sited generalizing ty' with
  | any ty => exact .any ty'
  | capturing member known => exact .capturing member (trans known (symm equal))
  | constant constant ty => exact .constant constant ty'
  | tuple known length each _ => exact .tuple (trans equal known) length each
  | ctor known length each _ => exact .ctor (trans equal known) length each
  | oneOf _ ih => exact .oneOf fun p member => ih p member equal

end Pat.Sited

end PolyCheck
