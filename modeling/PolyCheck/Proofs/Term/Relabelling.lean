import PolyCheck.Proofs.Ty.Relabelling
import PolyCheck.Term.Recursion

/-! Terms under other numbers of the variables in their types. Whether a recursive group can be
built does not depend on types at all. -/
namespace PolyCheck

variable {label : TyVar → TyVar} {group : List Name}

def Scheme.relabel (label : TyVar → TyVar) (scheme : Scheme) : Scheme :=
  ⟨scheme.vars.map label, scheme.ty.relabel label⟩

namespace Term

mutual

def relabel (label : TyVar → TyVar) : Term → Term
  | var name ty => var name (ty.relabel label)
  | lit value ty => lit value (ty.relabel label)
  | tuple elems ty => tuple (relabelAll label elems) (ty.relabel label)
  | ctor name template index arg ty =>
    ctor name template index (relabelOption label arg) (ty.relabel label)
  | lambda param paramTy body ty =>
    lambda param (paramTy.relabel label) (relabel label body) (ty.relabel label)
  | app func arg ty => app (relabel label func) (relabel label arg) (ty.relabel label)
  | letIn recursive definitions body ty =>
    letIn recursive (relabelDefinitions label definitions) (relabel label body) (ty.relabel label)
  | matchOn scrutinee arms ty =>
    matchOn (relabel label scrutinee) (relabelArms label arms) (ty.relabel label)
  | failure ty => failure (ty.relabel label)

def relabelAll (label : TyVar → TyVar) : List Term → List Term
  | [] => []
  | term :: terms => relabel label term :: relabelAll label terms

def relabelOption (label : TyVar → TyVar) : Option Term → Option Term
  | none => none
  | some term => some (relabel label term)

def relabelDefinitions (label : TyVar → TyVar) : List Definition → List Definition
  | [] => []
  | ⟨name, scheme, value⟩ :: rest =>
    ⟨name, scheme.relabel label, relabel label value⟩ :: relabelDefinitions label rest

def relabelArms (label : TyVar → TyVar) : List Arm → List Arm
  | [] => []
  | ⟨pat, body⟩ :: rest => ⟨pat, relabel label body⟩ :: relabelArms label rest

end

end Term

def Definition.relabel (label : TyVar → TyVar) (definition : Definition) : Definition :=
  ⟨definition.name, definition.scheme.relabel label, definition.value.relabel label⟩

def Arm.relabel (label : TyVar → TyVar) (arm : Arm) : Arm :=
  ⟨arm.pat, arm.body.relabel label⟩

namespace Term

theorem relabelAll_eq_map (terms : List Term) : relabelAll label terms = terms.map
    (relabel label) := by
  induction terms with
  | nil => rfl
  | cons term terms ih => rw [relabelAll, ih, List.map_cons]

theorem relabelDefinitions_eq_map (definitions : List Definition) :
    relabelDefinitions label definitions = definitions.map (Definition.relabel label) := by
  induction definitions with
  | nil => rfl
  | cons definition rest ih =>
    obtain ⟨name, scheme, value⟩ := definition
    exact congrArg (_ :: ·) ih

theorem relabelArms_eq_map (arms : List Arm) : relabelArms label arms = arms.map
    (Arm.relabel label) := by
  induction arms with
  | nil => rfl
  | cons arm rest ih =>
    obtain ⟨pat, body⟩ := arm
    exact congrArg (_ :: ·) ih

@[simp] theorem ty_relabel (term : Term) : (term.relabel label).ty = term.ty.relabel label := by
  cases term <;> rfl

theorem withTy_relabel (ty : Ty) (term : Term) :
    (term.relabel label).withTy (ty.relabel label) = (term.withTy ty).relabel label := by
  cases term <;> rfl

theorem names_relabel (definitions : List Definition) :
    (relabelDefinitions label definitions).map (·.name) = definitions.map (·.name) := by
  rw [relabelDefinitions_eq_map, List.map_map]
  rfl

mutual

theorem mentions_relabel : ∀ (term : Term) (shadowed : List Name),
    (term.relabel label).mentions group shadowed = term.mentions group shadowed
  | var _ _, _ | lit _ _, _ | failure _, _ | ctor _ _ _ none _, _ => rfl
  | tuple elems _, _ => mentionsAny_relabel elems _
  | ctor _ _ _ (some arg) _, _ => mentions_relabel arg _
  | lambda _ _ body _, _ => mentions_relabel body _
  | app func arg _, _ => congrArg₂ or (mentions_relabel func _) (mentions_relabel arg _)
  | letIn recursive definitions body _, shadowed => by
    rw [relabel, mentions, mentions, names_relabel, mentions_relabel body,
      mentionsDefinitions_relabel definitions]
  | matchOn scrutinee arms _, _ =>
    congrArg₂ or (mentions_relabel scrutinee _) (mentionsArms_relabel arms _)

theorem mentionsAny_relabel : ∀ (terms : List Term) (shadowed : List Name),
    mentionsAny group shadowed (relabelAll label terms) = mentionsAny group shadowed terms
  | [], _ => rfl
  | term :: terms, _ => congrArg₂ or (mentions_relabel term _) (mentionsAny_relabel terms _)

theorem mentionsDefinitions_relabel : ∀ (definitions : List Definition) (shadowed : List Name),
    mentionsDefinitions group shadowed (relabelDefinitions label definitions) =
      mentionsDefinitions group shadowed definitions
  | [], _ => rfl
  | ⟨_, _, value⟩ :: rest, _ =>
    congrArg₂ or (mentions_relabel value _) (mentionsDefinitions_relabel rest _)

theorem mentionsArms_relabel : ∀ (arms : List Arm) (shadowed : List Name),
    mentionsArms group shadowed (relabelArms label arms) = mentionsArms group shadowed arms
  | [], _ => rfl
  | ⟨_, body⟩ :: rest, _ => congrArg₂ or (mentions_relabel body _) (mentionsArms_relabel rest _)

end

mutual

theorem constructive_relabel : ∀ term : Term,
    (term.relabel label).constructive group = term.constructive group
  | lambda _ _ _ _ | var _ _ | lit _ _ | app _ _ _ | matchOn _ _ _ | failure _ | ctor _ _ _
      none _ => rfl
  | tuple elems _ => constructiveAll_relabel elems
  | ctor _ _ _ (some arg) _ => constructive_relabel arg
  | letIn _ definitions body _ =>
    congrArg₂ and (constructiveDefinitions_relabel definitions) (constructive_relabel body)

theorem constructiveAll_relabel : ∀ terms : List Term,
    constructiveAll group (relabelAll label terms) = constructiveAll group terms
  | [] => rfl
  | term :: terms => congrArg₂ and (constructive_relabel term) (constructiveAll_relabel terms)

theorem constructiveDefinitions_relabel : ∀ definitions : List Definition,
    constructiveDefinitions group (relabelDefinitions label definitions) = constructiveDefinitions
      group definitions
  | [] => rfl
  | ⟨_, _, value⟩ :: rest => by
    rw [relabelDefinitions, constructiveDefinitions, constructiveDefinitions, mentions_relabel,
      constructive_relabel value, constructiveDefinitions_relabel rest]

end

mutual

theorem definitionCount_relabel : ∀ term : Term,
    (term.relabel label).definitionCount = term.definitionCount
  | var _ _ | lit _ _ | failure _ | ctor _ _ _ none _ => rfl
  | tuple elems _ => definitionCountAll_relabel elems
  | ctor _ _ _ (some arg) _ => definitionCount_relabel arg
  | app func arg _ => congrArg₂ (· + ·) (definitionCount_relabel func) (definitionCount_relabel arg)
  | lambda _ _ body _ => definitionCount_relabel body
  | letIn _ definitions body _ =>
    congrArg₂ (· + ·) (definitionCountIn_relabel definitions) (definitionCount_relabel body)
  | matchOn scrutinee arms _ =>
    congrArg₂ (· + ·) (definitionCount_relabel scrutinee) (definitionCountArms_relabel arms)

theorem definitionCountAll_relabel : ∀ terms : List Term,
    definitionCountAll (relabelAll label terms) = definitionCountAll terms
  | [] => rfl
  | term :: terms =>
    congrArg₂ (· + ·) (definitionCount_relabel term) (definitionCountAll_relabel terms)

theorem definitionCountIn_relabel : ∀ definitions : List Definition,
    definitionCountIn (relabelDefinitions label definitions) = definitionCountIn definitions
  | [] => rfl
  | ⟨_, _, value⟩ :: rest =>
    congrArg₂ (· + · + 1) (definitionCount_relabel value) (definitionCountIn_relabel rest)

theorem definitionCountArms_relabel : ∀ arms : List Arm,
    definitionCountArms (relabelArms label arms) = definitionCountArms arms
  | [] => rfl
  | ⟨_, body⟩ :: rest =>
    congrArg₂ (· + ·) (definitionCount_relabel body) (definitionCountArms_relabel rest)

end

theorem peelLets_relabel : ∀ term : Term, (term.relabel label).peelLets =
    (term.peelLets.1.map (Definition.relabel label), term.peelLets.2.relabel label)
  | letIn recursive definitions body ty => by
    rw [relabel, peelLets, peelLets, peelLets_relabel body, relabelDefinitions_eq_map]
    simp only [List.map_append]
  | var _ _ | lit _ _ | failure _ | tuple _ _ | ctor _ _ _ _ _ | app _ _ _ | lambda _ _ _
      _ | matchOn _ _ _ => rfl

theorem find?_relabel (aliases : List Definition) (name : Name) :
    (aliases.map (Definition.relabel label)).find? (·.name = name) =
      (aliases.find? (·.name = name)).map (Definition.relabel label) := by
  rw [List.find?_map]
  rfl

theorem linkWithin_relabel (steps : Nat) : ∀ (aliases : List Definition) (visited : List Name)
    (term : Term),
    linkWithin group steps (aliases.map (Definition.relabel label)) visited (term.relabel label) =
      linkWithin group steps aliases visited term := by
  induction steps with
  | zero =>
    intro aliases visited term
    unfold linkWithin
    rw [peelLets_relabel]
    dsimp only
    rw [← List.map_reverse, ← List.map_append]
    cases term.peelLets.2 with
    | var name ty =>
      simp only [relabel, find?_relabel]
      cases (term.peelLets.1.reverse ++ aliases).find? (·.name = name) <;> rfl
    | _ => rfl
  | succ steps ih =>
    intro aliases visited term
    unfold linkWithin
    rw [peelLets_relabel]
    dsimp only
    rw [← List.map_reverse, ← List.map_append]
    cases term.peelLets.2 with
    | var name ty =>
      simp only [relabel, find?_relabel]
      cases (term.peelLets.1.reverse ++ aliases).find? (·.name = name) with
      | some next =>
        have further := ih (term.peelLets.1.reverse ++ aliases) (name :: visited) next.value
        exact congrArg (fun found => if visited.contains name then none else found) further
      | none => rfl
    | _ => rfl

theorem recursionFault?_relabel (value : Term) :
    recursionFault? group (value.relabel label) = recursionFault? group value := by
  have linked := @linkWithin_relabel label group (value.definitionCount + 1) [] [] value
  rw [List.map_nil] at linked
  rw [recursionFault?, recursionFault?, linkedMember?, linkedMember?, mentions_relabel,
    constructive_relabel, definitionCount_relabel, linked]

theorem validateGroup_relabel (definitions : List Definition) (spans : List Span) :
    validateGroup (definitions.map (Definition.relabel label)) spans =
      validateGroup definitions spans := by
  have names : (definitions.map (Definition.relabel label)).map (·.name) =
      definitions.map (·.name) := by
    rw [List.map_map]
    rfl
  rw [validateGroup, validateGroup, names, List.zipIdx_map, List.forM_eq_forM, List.forM_map]
  refine congrArg (forM definitions.zipIdx) (funext fun entry => ?_)
  simp only [Prod.map, Definition.relabel, recursionFault?_relabel, id]

end Term

end PolyCheck
