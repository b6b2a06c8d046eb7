import Mathlib
import PolyCheck.Term

/-! What holds of every type that a term carries, and of every scheme of a name that it defines. -/
namespace PolyCheck

mutual

def Term.Everywhere (typed : Ty → Prop) (bound : Scheme → Prop) : Term → Prop
  | .var _ ty | .lit _ ty | .failure ty => typed ty
  | .tuple elems ty => Term.EverywhereAll typed bound elems ∧ typed ty
  | .ctor _ _ _ arg ty => Term.EverywhereOption typed bound arg ∧ typed ty
  | .lambda _ paramTy body ty => typed paramTy ∧ body.Everywhere typed bound ∧ typed ty
  | .app func arg ty => func.Everywhere typed bound ∧ arg.Everywhere typed bound ∧ typed ty
  | .letIn _ definitions body ty =>
    Term.EverywhereDefinitions typed bound definitions ∧ body.Everywhere typed bound ∧ typed ty
  | .matchOn scrutinee arms ty =>
    scrutinee.Everywhere typed bound ∧ Term.EverywhereArms typed bound arms ∧ typed ty

def Term.EverywhereAll (typed : Ty → Prop) (bound : Scheme → Prop) : List Term → Prop
  | [] => True
  | term :: rest => term.Everywhere typed bound ∧ Term.EverywhereAll typed bound rest

def Term.EverywhereOption (typed : Ty → Prop) (bound : Scheme → Prop) : Option Term → Prop
  | none => True
  | some term => term.Everywhere typed bound

def Term.EverywhereDefinitions (typed : Ty → Prop) (bound : Scheme → Prop) : List Definition → Prop
  | [] => True
  | ⟨_, scheme, value⟩ :: rest =>
    bound scheme ∧ value.Everywhere typed bound ∧ Term.EverywhereDefinitions typed bound rest

def Term.EverywhereArms (typed : Ty → Prop) (bound : Scheme → Prop) : List Arm → Prop
  | [] => True
  | ⟨_, body⟩ :: rest => body.Everywhere typed bound ∧ Term.EverywhereArms typed bound rest

end

namespace Term

variable {typed typed' : Ty → Prop} {bound bound' : Scheme → Prop}

theorem Everywhere.ty {term : Term} (holds : term.Everywhere typed bound) : typed term.ty := by
  cases term <;> simp only [Everywhere] at holds <;> simp only [Term.ty] <;> tauto

theorem Everywhere.withTy {term : Term} (holds : term.Everywhere typed bound) {ty : Ty}
    (new : typed ty) : (term.withTy ty).Everywhere typed bound := by
  cases term <;> simp only [Everywhere] at holds <;> simp only [Term.withTy, Everywhere] <;> tauto

theorem everywhereAll_iff {terms : List Term} :
    EverywhereAll typed bound terms ↔ ∀ term ∈ terms, term.Everywhere typed bound := by
  induction terms with
  | nil => simp [EverywhereAll]
  | cons term terms ih => simp [EverywhereAll, ih]

theorem everywhereArms_iff {arms : List Arm} :
    EverywhereArms typed bound arms ↔ ∀ arm ∈ arms, arm.body.Everywhere typed bound := by
  induction arms with
  | nil => simp [EverywhereArms]
  | cons arm arms ih =>
    obtain ⟨pat, body⟩ := arm
    simp [EverywhereArms, ih]

theorem everywhereDefinitions_iff {definitions : List Definition} :
    EverywhereDefinitions typed bound definitions ↔ ∀ definition ∈ definitions,
      bound definition.scheme ∧ definition.value.Everywhere typed bound := by
  induction definitions with
  | nil => simp [EverywhereDefinitions]
  | cons definition definitions ih =>
    obtain ⟨name, scheme, value⟩ := definition
    simp [EverywhereDefinitions, ih, and_assoc]

mutual

theorem Everywhere.zonk {subst : Subst} (types : ∀ ty, typed ty → typed' (subst.zonk ty))
    (schemes : ∀ scheme, bound scheme → bound' (scheme.zonk subst)) :
    ∀ {term : Term}, term.Everywhere typed bound → (term.zonk subst).Everywhere typed' bound'
  | .var _ ty, holds | .lit _ ty, holds | .failure ty, holds => types ty holds
  | .tuple _ ty, holds => ⟨EverywhereAll.zonk types schemes holds.1, types ty holds.2⟩
  | .ctor _ _ _ none ty, holds => ⟨trivial, types ty holds.2⟩
  | .ctor _ _ _ (some _) ty, holds => ⟨Everywhere.zonk types schemes holds.1, types ty holds.2⟩
  | .lambda _ paramTy _ ty, holds =>
    ⟨types paramTy holds.1, Everywhere.zonk types schemes holds.2.1, types ty holds.2.2⟩
  | .app _ _ ty, holds => ⟨Everywhere.zonk types schemes holds.1,
    Everywhere.zonk types schemes holds.2.1, types ty holds.2.2⟩
  | .letIn _ _ _ ty, holds => ⟨EverywhereDefinitions.zonk types schemes holds.1,
    Everywhere.zonk types schemes holds.2.1, types ty holds.2.2⟩
  | .matchOn _ _ ty, holds => ⟨Everywhere.zonk types schemes holds.1,
    EverywhereArms.zonk types schemes holds.2.1, types ty holds.2.2⟩

theorem EverywhereAll.zonk {subst : Subst} (types : ∀ ty, typed ty → typed' (subst.zonk ty))
    (schemes : ∀ scheme, bound scheme → bound' (scheme.zonk subst)) :
    ∀ {terms : List Term}, EverywhereAll typed bound terms →
      EverywhereAll typed' bound' (zonkAll subst terms)
  | [], _ => trivial
  | _ :: _, holds =>
    ⟨Everywhere.zonk types schemes holds.1, EverywhereAll.zonk types schemes holds.2⟩

theorem EverywhereDefinitions.zonk {subst : Subst} (types : ∀ ty, typed ty → typed' (subst.zonk ty))
    (schemes : ∀ scheme, bound scheme → bound' (scheme.zonk subst)) :
    ∀ {definitions : List Definition}, EverywhereDefinitions typed bound definitions →
      EverywhereDefinitions typed' bound' (zonkDefinitions subst definitions)
  | [], _ => trivial
  | ⟨_, scheme, _⟩ :: _, holds => ⟨schemes scheme holds.1, Everywhere.zonk types schemes holds.2.1,
    EverywhereDefinitions.zonk types schemes holds.2.2⟩

theorem EverywhereArms.zonk {subst : Subst} (types : ∀ ty, typed ty → typed' (subst.zonk ty))
    (schemes : ∀ scheme, bound scheme → bound' (scheme.zonk subst)) :
    ∀ {arms : List Arm}, EverywhereArms typed bound arms →
      EverywhereArms typed' bound' (zonkArms subst arms)
  | [], _ => trivial
  | ⟨_, _⟩ :: _, holds =>
    ⟨Everywhere.zonk types schemes holds.1, EverywhereArms.zonk types schemes holds.2⟩

end

mutual

theorem Everywhere.imp (types : ∀ ty, typed ty → typed' ty)
    (schemes : ∀ scheme, bound scheme → bound' scheme) :
    ∀ {term : Term}, term.Everywhere typed bound → term.Everywhere typed' bound'
  | .var _ ty, holds | .lit _ ty, holds | .failure ty, holds => types ty holds
  | .tuple _ ty, holds => ⟨EverywhereAll.imp types schemes holds.1, types ty holds.2⟩
  | .ctor _ _ _ none ty, holds => ⟨trivial, types ty holds.2⟩
  | .ctor _ _ _ (some _) ty, holds => ⟨Everywhere.imp types schemes holds.1, types ty holds.2⟩
  | .lambda _ paramTy _ ty, holds =>
    ⟨types paramTy holds.1, Everywhere.imp types schemes holds.2.1, types ty holds.2.2⟩
  | .app _ _ ty, holds => ⟨Everywhere.imp types schemes holds.1,
    Everywhere.imp types schemes holds.2.1, types ty holds.2.2⟩
  | .letIn _ _ _ ty, holds => ⟨EverywhereDefinitions.imp types schemes holds.1,
    Everywhere.imp types schemes holds.2.1, types ty holds.2.2⟩
  | .matchOn _ _ ty, holds => ⟨Everywhere.imp types schemes holds.1,
    EverywhereArms.imp types schemes holds.2.1, types ty holds.2.2⟩

theorem EverywhereAll.imp (types : ∀ ty, typed ty → typed' ty)
    (schemes : ∀ scheme, bound scheme → bound' scheme) :
    ∀ {terms : List Term}, EverywhereAll typed bound terms → EverywhereAll typed' bound' terms
  | [], _ => trivial
  | _ :: _, holds => ⟨Everywhere.imp types schemes holds.1, EverywhereAll.imp types schemes holds.2⟩

theorem EverywhereDefinitions.imp (types : ∀ ty, typed ty → typed' ty)
    (schemes : ∀ scheme, bound scheme → bound' scheme) :
    ∀ {definitions : List Definition}, EverywhereDefinitions typed bound definitions →
      EverywhereDefinitions typed' bound' definitions
  | [], _ => trivial
  | ⟨_, scheme, _⟩ :: _, holds => ⟨schemes scheme holds.1, Everywhere.imp types schemes holds.2.1,
    EverywhereDefinitions.imp types schemes holds.2.2⟩

theorem EverywhereArms.imp (types : ∀ ty, typed ty → typed' ty)
    (schemes : ∀ scheme, bound scheme → bound' scheme) :
    ∀ {arms : List Arm}, EverywhereArms typed bound arms → EverywhereArms typed' bound' arms
  | [], _ => trivial
  | ⟨_, _⟩ :: _, holds =>
    ⟨Everywhere.imp types schemes holds.1, EverywhereArms.imp types schemes holds.2⟩

end

end Term

end PolyCheck
