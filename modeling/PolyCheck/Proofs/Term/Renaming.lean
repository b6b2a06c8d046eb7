import Mathlib
import PolyCheck.Term.Recursion

/-! Terms under other names. When different names stay different, a recursive group is refused under
the new names exactly when it is under the old ones, and for the same reason. -/
namespace PolyCheck

abbrev Renaming := Name → Name

mutual

def Pat.rename (naming : Renaming) : Pat → Pat
  | wild capture => wild (capture.map naming)
  | bool value => bool value
  | int width value => int width value
  | str bytes => str bytes
  | tuple elems => tuple (renameAll naming elems)
  | ctor name template index args => ctor name template index (renameAll naming args)
  | oneOf alternatives => oneOf (renameAll naming alternatives)

def Pat.renameAll (naming : Renaming) : List Pat → List Pat
  | [] => []
  | p :: ps => p.rename naming :: renameAll naming ps

end

namespace Term

mutual

/-- A term whose variables, parameters and definitions have other names. -/
def rename (naming : Renaming) : Term → Term
  | var name ty => var (naming name) ty
  | lit value ty => lit value ty
  | tuple elems ty => tuple (renameAll naming elems) ty
  | ctor name template index arg ty => ctor name template index (renameOption naming arg) ty
  | lambda param paramTy body ty => lambda (naming param) paramTy (rename naming body) ty
  | app func arg ty => app (rename naming func) (rename naming arg) ty
  | letIn recursive definitions body ty =>
    letIn recursive (renameDefinitions naming definitions) (rename naming body) ty
  | matchOn scrutinee arms ty => matchOn (rename naming scrutinee) (renameArms naming arms) ty
  | failure ty => failure ty

def renameAll (naming : Renaming) : List Term → List Term
  | [] => []
  | term :: terms => rename naming term :: renameAll naming terms

def renameOption (naming : Renaming) : Option Term → Option Term
  | none => none
  | some term => some (rename naming term)

def renameDefinitions (naming : Renaming) : List Definition → List Definition
  | [] => []
  | ⟨name, scheme, value⟩ :: rest =>
    ⟨naming name, scheme, rename naming value⟩ :: renameDefinitions naming rest

def renameArms (naming : Renaming) : List Arm → List Arm
  | [] => []
  | ⟨pat, body⟩ :: rest => ⟨pat.rename naming, rename naming body⟩ :: renameArms naming rest

end

end Term

def Definition.rename (naming : Renaming) (definition : Definition) : Definition :=
  ⟨naming definition.name, definition.scheme, definition.value.rename naming⟩

def Arm.rename (naming : Renaming) (arm : Arm) : Arm :=
  ⟨arm.pat.rename naming, arm.body.rename naming⟩

def CheckedDecl.rename (naming : Renaming) : CheckedDecl → CheckedDecl
  | define recursive definitions => define recursive (definitions.map (Definition.rename naming))
  | eval term => eval (term.rename naming)
  | other => other

variable {naming : Renaming}

theorem Pat.renameAll_eq_map (pats : List Pat) : renameAll naming pats = pats.map
    (rename naming) := by
  induction pats with
  | nil => rfl
  | cons p ps ih => rw [renameAll, ih, List.map_cons]

mutual

theorem Pat.captures_rename : ∀ pat : Pat, (pat.rename naming).captures = pat.captures.map naming
  | wild none => rfl
  | wild (some _) => rfl
  | bool _ => rfl
  | int _ _ => rfl
  | str _ => rfl
  | tuple elems => Pat.capturesAll_rename elems
  | ctor _ _ _ args => Pat.capturesAll_rename args
  | oneOf [] => rfl
  | oneOf (first :: _) => Pat.captures_rename first

theorem Pat.capturesAll_rename : ∀ pats : List Pat,
    capturesAll (renameAll naming pats) = (capturesAll pats).map naming
  | [] => rfl
  | p :: ps => by
    rw [renameAll, capturesAll, capturesAll, List.map_append, Pat.captures_rename p,
      Pat.capturesAll_rename ps]

end

namespace Term

theorem renameAll_eq_map (terms : List Term) : renameAll naming terms = terms.map
    (rename naming) := by
  induction terms with
  | nil => rfl
  | cons term terms ih => rw [renameAll, ih, List.map_cons]

theorem renameDefinitions_eq_map (definitions : List Definition) :
    renameDefinitions naming definitions = definitions.map (Definition.rename naming) := by
  induction definitions with
  | nil => rfl
  | cons definition rest ih =>
    obtain ⟨name, scheme, value⟩ := definition
    rw [renameDefinitions, ih, List.map_cons]
    rfl

theorem renameArms_eq_map (arms : List Arm) : renameArms naming arms = arms.map
    (Arm.rename naming) := by
  induction arms with
  | nil => rfl
  | cons arm rest ih =>
    obtain ⟨pat, body⟩ := arm
    rw [renameArms, ih, List.map_cons]
    rfl

@[simp] theorem ty_rename (term : Term) : (term.rename naming).ty = term.ty := by
  cases term <;> rfl

theorem withTy_rename (ty : Ty) (term : Term) :
    (term.rename naming).withTy ty = (term.withTy ty).rename naming := by
  cases term <;> rfl

mutual

theorem zonk_rename (subst : Subst) : ∀ term : Term,
    (term.rename naming).zonk subst = (term.zonk subst).rename naming
  | var _ _ => rfl
  | lit _ _ => rfl
  | failure _ => rfl
  | tuple elems _ => by rw [rename, zonk, zonk, rename, zonkAll_rename subst elems]
  | ctor _ _ _ none _ => rfl
  | ctor _ _ _ (some arg) _ => by
    rw [rename, renameOption, zonk, zonkOption, zonk, zonkOption, rename, renameOption,
      zonk_rename subst arg]
  | lambda _ _ body _ => by rw [rename, zonk, zonk, rename, zonk_rename subst body]
  | app func arg _ => by
    rw [rename, zonk, zonk, rename, zonk_rename subst func, zonk_rename subst arg]
  | letIn _ definitions body _ => by
    rw [rename, zonk, zonk, rename, zonkDefinitions_rename subst definitions,
      zonk_rename subst body]
  | matchOn scrutinee arms _ => by
    rw [rename, zonk, zonk, rename, zonk_rename subst scrutinee, zonkArms_rename subst arms]

theorem zonkAll_rename (subst : Subst) : ∀ terms : List Term,
    zonkAll subst (renameAll naming terms) = renameAll naming (zonkAll subst terms)
  | [] => rfl
  | term :: terms => by
    rw [renameAll, zonkAll, zonkAll, renameAll, zonk_rename subst term, zonkAll_rename subst terms]

theorem zonkDefinitions_rename (subst : Subst) : ∀ definitions : List Definition,
    zonkDefinitions subst (renameDefinitions naming definitions) =
      renameDefinitions naming (zonkDefinitions subst definitions)
  | [] => rfl
  | ⟨_, _, value⟩ :: rest => by
    rw [renameDefinitions, zonkDefinitions, zonkDefinitions, renameDefinitions,
      zonk_rename subst value, zonkDefinitions_rename subst rest]

theorem zonkArms_rename (subst : Subst) : ∀ arms : List Arm,
    zonkArms subst (renameArms naming arms) = renameArms naming (zonkArms subst arms)
  | [] => rfl
  | ⟨_, body⟩ :: rest => by
    rw [renameArms, zonkArms, zonkArms, renameArms, zonk_rename subst body,
      zonkArms_rename subst rest]

end

mutual

theorem resolves_rename (subst : Subst) : ∀ term : Term,
    (term.rename naming).resolves subst = term.resolves subst
  | var _ _ => rfl
  | lit _ _ => rfl
  | failure _ => rfl
  | tuple elems _ => by rw [rename, resolves, resolves, resolvesAll_rename subst elems]
  | ctor _ _ _ none _ => rfl
  | ctor _ _ _ (some arg) _ => by
    rw [rename, renameOption, resolves, resolvesOption, resolves, resolvesOption,
      resolves_rename subst arg]
  | lambda _ _ body _ => by rw [rename, resolves, resolves, resolves_rename subst body]
  | app func arg _ => by
    rw [rename, resolves, resolves, resolves_rename subst func, resolves_rename subst arg]
  | letIn _ definitions body _ => by
    rw [rename, resolves, resolves, resolvesDefinitions_rename subst definitions,
      resolves_rename subst body]
  | matchOn scrutinee arms _ => by
    rw [rename, resolves, resolves, resolves_rename subst scrutinee, resolvesArms_rename subst arms]

theorem resolvesAll_rename (subst : Subst) : ∀ terms : List Term,
    resolvesAll subst (renameAll naming terms) = resolvesAll subst terms
  | [] => rfl
  | term :: terms => by
    rw [renameAll, resolvesAll, resolvesAll, resolves_rename subst term,
      resolvesAll_rename subst terms]

theorem resolvesDefinitions_rename (subst : Subst) : ∀ definitions : List Definition,
    resolvesDefinitions subst (renameDefinitions naming definitions) =
    resolvesDefinitions subst definitions
  | [] => rfl
  | ⟨_, _, value⟩ :: rest => by
    rw [renameDefinitions, resolvesDefinitions, resolvesDefinitions, resolves_rename subst value,
      resolvesDefinitions_rename subst rest]

theorem resolvesArms_rename (subst : Subst) : ∀ arms : List Arm,
    resolvesArms subst (renameArms naming arms) = resolvesArms subst arms
  | [] => rfl
  | ⟨_, body⟩ :: rest => by
    rw [renameArms, resolvesArms, resolvesArms, resolves_rename subst body,
      resolvesArms_rename subst rest]

end

section Recursion

variable {group : List Name}

theorem contains_map (distinct : Function.Injective naming) (names : List Name) (name : Name) :
    (names.map naming).contains (naming name) = names.contains name := by
  rw [Bool.eq_iff_iff, List.contains_iff_mem, List.contains_iff_mem,
    List.mem_map_of_injective distinct]

mutual

theorem mentions_rename (distinct : Function.Injective naming) :
    ∀ (term : Term) (shadowed : List Name),
      (term.rename naming).mentions (group.map naming) (shadowed.map naming) =
        term.mentions group shadowed
  | var name _, shadowed => by
    rw [rename, mentions, mentions, contains_map distinct, contains_map distinct]
  | lit _ _, _ => rfl
  | failure _, _ => rfl
  | tuple elems _, shadowed => by rw [rename, mentions, mentions, mentionsAny_rename distinct elems]
  | ctor _ _ _ none _, _ => rfl
  | ctor _ _ _ (some arg) _, shadowed => by
    rw [rename, renameOption, mentions, mentions, mentionsOption, mentionsOption,
      mentions_rename distinct arg]
  | app func arg _, shadowed => by
    rw [rename, mentions, mentions, mentions_rename distinct func, mentions_rename distinct arg]
  | lambda param _ body _, shadowed => by
    rw [rename, mentions, mentions, ← List.map_cons, mentions_rename distinct body]
  | letIn recursive definitions body _, shadowed => by
    have names : (renameDefinitions naming definitions).map (·.name) ++ shadowed.map naming =
        (definitions.map (·.name) ++ shadowed).map naming := by
      rw [renameDefinitions_eq_map, List.map_map, List.map_append, List.map_map]
      rfl
    rw [rename, mentions, mentions, names, mentions_rename distinct body]
    cases recursive with
    | true => rw [if_pos rfl, if_pos rfl, mentionsDefinitions_rename distinct definitions]
    | false =>
      rw [if_neg Bool.false_ne_true, if_neg Bool.false_ne_true,
        mentionsDefinitions_rename distinct definitions]
  | matchOn scrutinee arms _, shadowed => by
    rw [rename, mentions, mentions, mentions_rename distinct scrutinee,
      mentionsArms_rename distinct arms]

theorem mentionsAny_rename (distinct : Function.Injective naming) :
    ∀ (terms : List Term) (shadowed : List Name),
      mentionsAny (group.map naming) (shadowed.map naming) (renameAll naming terms) =
      mentionsAny group shadowed terms
  | [], _ => rfl
  | term :: terms, shadowed => by
    rw [renameAll, mentionsAny, mentionsAny, mentions_rename distinct term,
      mentionsAny_rename distinct terms]

theorem mentionsDefinitions_rename (distinct : Function.Injective naming) :
    ∀ (definitions : List Definition) (shadowed : List Name),
      mentionsDefinitions (group.map naming) (shadowed.map naming)
        (renameDefinitions naming definitions) =
      mentionsDefinitions group shadowed definitions
  | [], _ => rfl
  | ⟨_, _, value⟩ :: rest, shadowed => by
    rw [renameDefinitions, mentionsDefinitions, mentionsDefinitions, mentions_rename distinct value,
      mentionsDefinitions_rename distinct rest]

theorem mentionsArms_rename (distinct : Function.Injective naming) :
    ∀ (arms : List Arm) (shadowed : List Name),
      mentionsArms (group.map naming) (shadowed.map naming) (renameArms naming arms) =
      mentionsArms group shadowed arms
  | [], _ => rfl
  | ⟨pat, body⟩ :: rest, shadowed => by
    rw [renameArms, mentionsArms, mentionsArms, Pat.captures_rename, ← List.map_append,
      mentions_rename distinct body, mentionsArms_rename distinct rest]

end

mutual

theorem constructive_rename (distinct : Function.Injective naming) :
    ∀ term : Term,
      (term.rename naming).constructive (group.map naming) = term.constructive group
  | lambda _ _ _ _ | var _ _ | lit _ _ | app _ _ _ | matchOn _ _ _ | failure _ => rfl
  | tuple elems _ => by
    rw [rename, constructive, constructive, constructiveAll_rename distinct elems]
  | ctor _ _ _ none _ => rfl
  | ctor _ _ _ (some arg) _ => by
    rw [rename, renameOption, constructive, constructive, constructiveOption, constructiveOption,
      constructive_rename distinct arg]
  | letIn _ definitions body _ => by
    rw [rename, constructive, constructive, constructiveDefinitions_rename distinct definitions,
      constructive_rename distinct body]

theorem constructiveAll_rename (distinct : Function.Injective naming) :
    ∀ terms : List Term,
      constructiveAll (group.map naming) (renameAll naming terms) = constructiveAll group terms
  | [] => rfl
  | term :: terms => by
    rw [renameAll, constructiveAll, constructiveAll, constructive_rename distinct term,
      constructiveAll_rename distinct terms]

theorem constructiveDefinitions_rename (distinct : Function.Injective naming) :
    ∀ definitions : List Definition,
      constructiveDefinitions (group.map naming) (renameDefinitions naming definitions) =
      constructiveDefinitions group definitions
  | [] => rfl
  | ⟨_, _, value⟩ :: rest => by
    have mentions := @mentions_rename naming group distinct value []
    rw [List.map_nil] at mentions
    rw [renameDefinitions, constructiveDefinitions, constructiveDefinitions, mentions,
      constructive_rename distinct value, constructiveDefinitions_rename distinct rest]

end

mutual

theorem definitionCount_rename : ∀ term : Term,
    (term.rename naming).definitionCount = term.definitionCount
  | var _ _ | lit _ _ | failure _ => rfl
  | tuple elems _ => by
    rw [rename, definitionCount, definitionCount, definitionCountAll_rename elems]
  | ctor _ _ _ none _ => rfl
  | ctor _ _ _ (some arg) _ => by
    rw [rename, renameOption, definitionCount, definitionCount, definitionCountOption,
      definitionCountOption, definitionCount_rename arg]
  | app func arg _ => by
    rw [rename, definitionCount, definitionCount, definitionCount_rename func,
      definitionCount_rename arg]
  | lambda _ _ body _ => by
    rw [rename, definitionCount, definitionCount, definitionCount_rename body]
  | letIn _ definitions body _ => by
    rw [rename, definitionCount, definitionCount, definitionCountIn_rename definitions,
      definitionCount_rename body]
  | matchOn scrutinee arms _ => by
    rw [rename, definitionCount, definitionCount, definitionCount_rename scrutinee,
      definitionCountArms_rename arms]

theorem definitionCountAll_rename : ∀ terms : List Term,
    definitionCountAll (renameAll naming terms) = definitionCountAll terms
  | [] => rfl
  | term :: terms => by
    rw [renameAll, definitionCountAll, definitionCountAll, definitionCount_rename term,
      definitionCountAll_rename terms]

theorem definitionCountIn_rename : ∀ definitions : List Definition,
    definitionCountIn (renameDefinitions naming definitions) = definitionCountIn definitions
  | [] => rfl
  | ⟨_, _, value⟩ :: rest => by
    rw [renameDefinitions, definitionCountIn, definitionCountIn, definitionCount_rename value,
      definitionCountIn_rename rest]

theorem definitionCountArms_rename : ∀ arms : List Arm,
    definitionCountArms (renameArms naming arms) = definitionCountArms arms
  | [] => rfl
  | ⟨_, body⟩ :: rest => by
    rw [renameArms, definitionCountArms, definitionCountArms, definitionCount_rename body,
      definitionCountArms_rename rest]

end

theorem peelLets_rename : ∀ term : Term, (term.rename naming).peelLets =
    (term.peelLets.1.map (Definition.rename naming), term.peelLets.2.rename naming)
  | letIn recursive definitions body ty => by
    rw [rename, peelLets, peelLets, peelLets_rename body, renameDefinitions_eq_map]
    simp only [List.map_append]
  | var _ _ | lit _ _ | failure _ | tuple _ _ | ctor _ _ _ _ _ | app _ _ _ | lambda _ _ _
      _ | matchOn _ _ _ => rfl

theorem find?_rename (distinct : Function.Injective naming) (aliases : List Definition)
    (name : Name) : (aliases.map (Definition.rename naming)).find? (·.name = naming name) =
      (aliases.find? (·.name = name)).map (Definition.rename naming) := by
  rw [List.find?_map]
  congr 1
  refine congrArg (List.find? · aliases) (funext fun definition => ?_)
  exact decide_eq_decide.mpr distinct.eq_iff

theorem linkWithin_rename (distinct : Function.Injective naming) (steps : Nat) :
    ∀ (aliases : List Definition) (visited : List Name) (term : Term),
      linkWithin (group.map naming) steps (aliases.map (Definition.rename naming))
      (visited.map naming)
        (term.rename naming) = (linkWithin group steps aliases visited term).map naming := by
  induction steps with
  | zero =>
    intro aliases visited term
    unfold linkWithin
    rw [peelLets_rename]
    dsimp only
    rw [← List.map_reverse, ← List.map_append]
    cases term.peelLets.2 with
    | var name ty =>
      simp only [rename, find?_rename distinct, contains_map distinct]
      cases (term.peelLets.1.reverse ++ aliases).find? (·.name = name) with
      | some next => rfl
      | none => simp only [Option.map_none, apply_ite (Option.map naming), Option.map_some]
    | _ => rfl
  | succ steps ih =>
    intro aliases visited term
    unfold linkWithin
    rw [peelLets_rename]
    dsimp only
    rw [← List.map_reverse, ← List.map_append]
    cases term.peelLets.2 with
    | var name ty =>
      simp only [rename, find?_rename distinct, contains_map distinct]
      cases (term.peelLets.1.reverse ++ aliases).find? (·.name = name) with
      | some next =>
        simp only [Option.map_some, apply_ite (Option.map naming), Option.map_none]
        rw [← ih, List.map_cons]
        rfl
      | none => simp only [Option.map_none, apply_ite (Option.map naming), Option.map_some]
    | _ => rfl

theorem recursionFault?_rename (distinct : Function.Injective naming) (value : Term) :
    recursionFault? (group.map naming) (value.rename naming) = recursionFault? group value := by
  have mentions := @mentions_rename naming group distinct value []
  have linked := @linkWithin_rename naming group distinct (value.definitionCount + 1) [] [] value
  rw [List.map_nil] at mentions
  rw [List.map_nil, List.map_nil] at linked
  rw [recursionFault?, recursionFault?, linkedMember?, linkedMember?, mentions,
    constructive_rename distinct, definitionCount_rename, linked, Option.isSome_map]

/-- A group whose own names stay is refused under other names of what is inside for the same
reason. -/
theorem validateGroup_rename (distinct : Function.Injective naming) {definitions : List Definition}
    (kept : ∀ definition ∈ definitions, naming definition.name = definition.name)
    (spans : List Span) :
    validateGroup (definitions.map (Definition.rename naming)) spans =
      validateGroup definitions spans := by
  have names : (definitions.map (·.name)).map naming = definitions.map (·.name) := by
    rw [List.map_map]
    exact List.map_congr_left kept
  have same : (definitions.map (Definition.rename naming)).map (·.name) =
      definitions.map (·.name) := by
    rw [List.map_map]
    exact List.map_congr_left kept
  have fixed : ∀ entry ∈ definitions.zipIdx, naming entry.1.name = entry.1.name :=
    fun entry member => kept _ (List.fst_mem_of_mem_zipIdx member)
  rw [validateGroup, validateGroup, same, List.zipIdx_map, List.forM_eq_forM, List.forM_map]
  generalize definitions.zipIdx = entries at fixed
  induction entries with
  | nil => rfl
  | cons entry entries ih =>
    obtain ⟨here, others⟩ := List.forall_mem_cons.mp fixed
    have fault := @recursionFault?_rename naming (definitions.map (·.name)) distinct entry.1.value
    rw [names] at fault
    rw [List.forM_cons, List.forM_cons, ih others]
    simp only [Prod.map, Definition.rename, fault, here]
    rfl

end Recursion

end Term

theorem CheckedDecl.zonk_rename (subst : Subst) (checked : CheckedDecl) :
    (checked.rename naming).zonk subst = (checked.zonk subst).rename naming := by
  cases checked with
  | data _ | synonym _ => rfl
  | define recursive definitions =>
    rw [rename, zonk, zonk, rename, ← Term.renameDefinitions_eq_map,
      ← Term.renameDefinitions_eq_map, Term.zonkDefinitions_rename]
  | eval term => rw [rename, zonk, zonk, rename, Term.zonk_rename]

theorem CheckedDecl.resolves_rename (subst : Subst) (checked : CheckedDecl) :
    (checked.rename naming).resolves subst = checked.resolves subst := by
  cases checked with
  | data _ | «synonym» _ => rfl
  | define recursive definitions =>
    rw [rename, resolves, resolves, ← Term.renameDefinitions_eq_map,
      Term.resolvesDefinitions_rename]
  | eval term => rw [rename, resolves, resolves, Term.resolves_rename]

theorem CheckedDecl.definitions_rename (checked : CheckedDecl) :
    (checked.rename naming).definitions = checked.definitions.map (Definition.rename naming) := by
  cases checked <;> rfl

section Identity

mutual

theorem Pat.rename_id : ∀ pat : Pat, pat.rename id = pat
  | wild capture => congrArg wild (congrFun Option.map_id capture)
  | bool _ => rfl
  | int _ _ => rfl
  | str _ => rfl
  | tuple elems => congrArg tuple (Pat.renameAll_id elems)
  | ctor name template index args => congrArg (ctor name template index) (Pat.renameAll_id args)
  | oneOf alternatives => congrArg oneOf (Pat.renameAll_id alternatives)

theorem Pat.renameAll_id : ∀ pats : List Pat, renameAll id pats = pats
  | [] => rfl
  | p :: ps => congrArg₂ List.cons (Pat.rename_id p) (Pat.renameAll_id ps)

end

mutual

theorem Term.rename_id : ∀ term : Term, term.rename id = term
  | var _ _ => rfl
  | lit _ _ => rfl
  | failure _ => rfl
  | tuple elems ty => congrArg (tuple · ty) (Term.renameAll_id elems)
  | ctor _ _ _ none _ => rfl
  | ctor name template index (some arg) ty =>
    congrArg (fun arg => ctor name template index (some arg) ty) (Term.rename_id arg)
  | lambda param paramTy body ty => congrArg (lambda param paramTy · ty) (Term.rename_id body)
  | app func arg ty => congrArg₂ (app · · ty) (Term.rename_id func) (Term.rename_id arg)
  | letIn recursive definitions body ty =>
    congrArg₂ (letIn recursive · · ty) (Term.renameDefinitions_id definitions) (Term.rename_id body)
  | matchOn scrutinee arms ty =>
    congrArg₂ (matchOn · · ty) (Term.rename_id scrutinee) (Term.renameArms_id arms)

theorem Term.renameAll_id : ∀ terms : List Term, renameAll id terms = terms
  | [] => rfl
  | term :: terms => congrArg₂ List.cons (Term.rename_id term) (Term.renameAll_id terms)

theorem Term.renameDefinitions_id : ∀ definitions : List Definition,
    renameDefinitions id definitions = definitions
  | [] => rfl
  | ⟨name, scheme, value⟩ :: rest =>
    congrArg₂ List.cons (congrArg (Definition.mk name scheme) (Term.rename_id value))
      (Term.renameDefinitions_id rest)

theorem Term.renameArms_id : ∀ arms : List Arm, renameArms id arms = arms
  | [] => rfl
  | ⟨pat, body⟩ :: rest =>
    congrArg₂ List.cons (congrArg₂ Arm.mk (Pat.rename_id pat) (Term.rename_id body))
      (Term.renameArms_id rest)

end

theorem CheckedDecl.rename_id (checked : CheckedDecl) : checked.rename id = checked := by
  cases checked with
  | data _ | synonym _ => rfl
  | define recursive definitions =>
    rw [rename, ← Term.renameDefinitions_eq_map, Term.renameDefinitions_id]
  | eval term => rw [rename, Term.rename_id]

end Identity

end PolyCheck
