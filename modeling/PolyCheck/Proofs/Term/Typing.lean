import PolyCheck.Proofs.Name
import PolyCheck.Proofs.Pat.Capture
import PolyCheck.Proofs.Subst.Resolution
import PolyCheck.Proofs.Template

/-! Types of patterns and of terms, as rules about resolved types. A name has the types that its
scheme gives at any types for the quantified variables; a group is quantified over variables that
are not free in the scope around it. The names that a term binds are of a kind that is chosen with
the rules. -/
namespace PolyCheck

namespace Pat

mutual

/-- A pattern for the values of a type, with the types of the names that it captures. -/
inductive Typed (registry : Registry) : Pat → Ty → List (Name × Ty) → Prop where
  | any (ty : Ty) : Typed registry (.wild none) ty []
  | capturing (name : Name) (ty : Ty) : Typed registry (.wild (some name)) ty [(name, ty)]
  | bool {ty : Ty} (provided : registry.Provides .bool ty) (value : Bool) :
    Typed registry (.bool value) ty []
  | int {ty : Ty} {width : Nat} {value : Int} (provided : registry.Provides (.int width) ty)
    (range : InWidth width value) : Typed registry (.int width value) ty []
  | str {ty : Ty} (provided : registry.Provides .str ty) (bytes : Bytes) :
    Typed registry (.str bytes) ty []
  | tuple {elems : List Pat} {types : List Ty} {captures : List (Name × Ty)}
    (each : TypedAll registry elems types captures) :
    Typed registry (.tuple elems) (.tuple types) captures
  | ctor {id : TemplateId} {index : Nat} {dataCase : DataCase} {typeArgs : List Ty}
      {args : List Pat}
    {captures : List (Name × Ty)} (declares : registry.Declares id index dataCase typeArgs)
    (each : TypedAll registry args (registry.fieldsAt id index typeArgs) captures) :
    Typed registry (.ctor dataCase.name id index args) (.nominal id typeArgs) captures
  | never (ty : Ty) : Typed registry (.oneOf []) ty []
  | oneOf {first : Pat} {rest : List Pat} {ty : Ty} {captures : List (Name × Ty)}
    (here : Typed registry first ty captures) (others : TypedChoice registry rest ty captures) :
    Typed registry (.oneOf (first :: rest)) ty captures

inductive TypedAll (registry : Registry) : List Pat → List Ty → List (Name × Ty) → Prop where
  | nil : TypedAll registry [] [] []
  | cons {p : Pat} {ps : List Pat} {ty : Ty} {types : List Ty} {own captures : List (Name × Ty)}
    (first : Typed registry p ty own) (rest : TypedAll registry ps types captures) :
    TypedAll registry (p :: ps) (ty :: types) (own ++ captures)

/-- Alternatives that capture the same names at the same types, in any order. -/
inductive TypedChoice (registry : Registry) : List Pat → Ty → List (Name × Ty) → Prop where
  | nil {ty : Ty} {captures : List (Name × Ty)} : TypedChoice registry [] ty captures
  | cons {p : Pat} {ps : List Pat} {ty : Ty} {own captures : List (Name × Ty)}
    (first : Typed registry p ty own) (same : own.Perm captures)
    (rest : TypedChoice registry ps ty captures) : TypedChoice registry (p :: ps) ty captures

end

section Families

variable {registry : Registry} {subst : Subst} {ty : Ty}

theorem shallow_of_head {ty : Ty} (head : ∀ depth, subst.shallowWithin (depth + 1) ty = some ty) :
    subst.shallow ty = ty := by
  rw [Subst.shallow, Subst.shallow?_of_head head, Option.getD_some]

theorem family_unsolved {v : TyVar} (unsolved : subst.Unsolved v) :
    Family.of (.var v) subst registry = .unknown := by
  obtain ⟨-, root, notBound⟩ := unsolved
  have free : ∀ ty, subst.rootCell v ≠ .bound ty := by rwa [Subst.rootCell, root]
  obtain ⟨depth, bound⟩ : ∃ depth, subst.depthBound (Ty.var v).size = depth + 1 :=
    Nat.exists_eq_succ_of_ne_zero (by simp [Subst.depthBound, Subst.reductionAllowance])
  have head : subst.shallow (.var v) = .var (subst.root v) := by
    rw [Subst.shallow, Subst.shallow?, bound, Subst.shallowWithin_free free, Option.getD_some]
  rw [Family.of, head]
  rfl

theorem family_arrow (subst : Subst) (registry : Registry) (param result : Ty) :
    Family.of (.arrow param result) subst registry = .unknown := by
  rw [Family.of, shallow_of_head fun _ => rfl]
  rfl

theorem family_tuple (subst : Subst) (registry : Registry) (types : List Ty) :
    Family.of (.tuple types) subst registry = .tuple types := by
  rw [Family.of, shallow_of_head fun _ => rfl, Family.ofHead]

def builtinFamily : Builtin → Family
  | .bool => .bool
  | .str => .str
  | .int width => .int width

theorem family_provided {builtin : Builtin} (provided : registry.Provides builtin ty) :
    Family.of ty subst registry = builtinFamily builtin := by
  obtain ⟨id, ⟨_, _, _, _, _⟩, rfl, known, rfl⟩ := provided
  rw [Family.of, Ty.named, shallow_of_head fun _ => rfl, Family.ofHead]
  simp only [known]
  cases builtin <;> rfl

theorem family_declared {id : TemplateId} {index : Nat} {dataCase : DataCase} {args : List Ty}
    (declares : registry.Declares id index dataCase args) :
    Family.of (.nominal id args) subst registry = .enum id args := by
  obtain ⟨⟨_, _, _, _, _⟩, known, rfl, -, -⟩ := declares
  rw [Family.of, shallow_of_head fun _ => rfl, Family.ofHead]
  simp only [known]

end Families

variable {registry : Registry}

mutual

/-- The rules for patterns agree with the families of heads, whatever is solved. -/
theorem Typed.hasType (subst : Subst) : ∀ {p : Pat} {ty : Ty} {captures : List (Name × Ty)},
    Typed registry p ty captures → p.HasType subst registry ty
  | .wild capture, ty, _, _ => .wild capture ty
  | .bool value, _, _, typed => by
    cases typed with
    | bool provided => exact .bool (family_provided provided) value
  | .int _ _, _, _, typed => by
    cases typed with
    | int provided range => exact .int (family_provided provided) range
  | .str bytes, _, _, typed => by
    cases typed with
    | str provided => exact .str (family_provided provided) bytes
  | .tuple _, _, _, typed => by
    cases typed with
    | tuple each => exact .tuple (family_tuple subst registry _) (TypedAll.hasType subst each)
  | .ctor _ _ _ _, _, _, typed => by
    cases typed with
    | ctor declares each =>
      exact .ctor (family_declared declares) declares.case? (TypedAll.hasType subst each)
  | .oneOf [], _, _, _ => .oneOf nofun
  | .oneOf (_ :: _), _, _, typed => by
    cases typed with
    | oneOf here others =>
      exact .oneOf (List.forall_mem_cons.mpr
        ⟨Typed.hasType subst here, TypedChoice.hasType subst others⟩)

theorem TypedAll.hasType (subst : Subst) :
    ∀ {ps : List Pat} {types : List Ty} {captures : List (Name × Ty)},
      TypedAll registry ps types captures → List.Forall₂ (HasType subst registry) ps types
  | [], _, _, typed => by
    cases typed
    exact .nil
  | _ :: _, _, _, typed => by
    cases typed with
    | cons first rest => exact .cons (Typed.hasType subst first) (TypedAll.hasType subst rest)

theorem TypedChoice.hasType (subst : Subst) :
    ∀ {ps : List Pat} {ty : Ty} {captures : List (Name × Ty)},
      TypedChoice registry ps ty captures → ∀ p ∈ ps, p.HasType subst registry ty
  | [], _, _, _ => nofun
  | _ :: _, _, _, typed => by
    cases typed with
    | cons first _ rest =>
      exact List.forall_mem_cons.mpr
        ⟨Typed.hasType subst first, TypedChoice.hasType subst rest⟩

end

mutual

theorem Typed.captured : ∀ {p : Pat} {ty : Ty} {captures : List (Name × Ty)},
    Typed registry p ty captures → (captures.map (·.1)).Perm p.captures ∧ p.Uniform
  | .wild _, _, _, typed => by
    cases typed with
    | any => exact ⟨.refl _, nofun⟩
    | capturing => exact ⟨.refl _, nofun⟩
  | .bool _, _, _, typed => by
    cases typed
    exact ⟨.refl _, nofun⟩
  | .int _ _, _, _, typed => by
    cases typed
    exact ⟨.refl _, nofun⟩
  | .str _, _, _, typed => by
    cases typed
    exact ⟨.refl _, nofun⟩
  | .tuple _, _, _, typed => by
    cases typed with
    | tuple each =>
      obtain ⟨names, uniform⟩ := TypedAll.captured each
      rw [captures]
      exact ⟨names, nofun, everyAll_iff.mpr uniform⟩
  | .ctor _ _ _ _, _, _, typed => by
    cases typed with
    | ctor _ each =>
      obtain ⟨names, uniform⟩ := TypedAll.captured each
      rw [captures]
      exact ⟨names, nofun, everyAll_iff.mpr uniform⟩
  | .oneOf [], _, _, typed => by
    cases typed
    exact ⟨.refl _, nofun, trivial⟩
  | .oneOf (_ :: _), _, _, typed => by
    cases typed with
    | oneOf here others =>
      obtain ⟨names, uniform⟩ := Typed.captured here
      have rest := TypedChoice.captured others
      rw [captures, capturesFirst]
      refine ⟨names, fun first' rest' same other member => ?_, everyAll_iff.mpr ?_⟩
      · obtain ⟨rfl, rfl⟩ := List.cons.inj (Pat.oneOf.inj same)
        exact (rest other member).1.symm.trans names
      · exact List.forall_mem_cons.mpr ⟨uniform, fun p member => (rest p member).2⟩

theorem TypedAll.captured : ∀ {ps : List Pat} {types : List Ty} {captures : List (Name × Ty)},
    TypedAll registry ps types captures →
      (captures.map (·.1)).Perm (capturesAll ps) ∧ ∀ p ∈ ps, p.Uniform
  | [], _, _, typed => by
    cases typed
    exact ⟨.refl _, nofun⟩
  | _ :: _, _, _, typed => by
    cases typed with
    | cons first rest =>
      obtain ⟨names, uniform⟩ := Typed.captured first
      obtain ⟨names', uniform'⟩ := TypedAll.captured rest
      rw [List.map_append, capturesAll]
      exact ⟨names.append names', List.forall_mem_cons.mpr ⟨uniform, uniform'⟩⟩

theorem TypedChoice.captured : ∀ {ps : List Pat} {ty : Ty} {captures : List (Name × Ty)},
    TypedChoice registry ps ty captures →
      ∀ p ∈ ps, (captures.map (·.1)).Perm p.captures ∧ p.Uniform
  | [], _, _, _ => nofun
  | _ :: _, _, _, typed => by
    cases typed with
    | cons first same rest =>
      obtain ⟨names, uniform⟩ := Typed.captured first
      exact List.forall_mem_cons.mpr
        ⟨⟨(same.map (·.1)).symm.trans names, uniform⟩, TypedChoice.captured rest⟩

end

end Pat

/-- Nothing is known about the variables of a type. -/
def Subst.Resolved (subst : Subst) (ty : Ty) : Prop :=
  ty.FirstOrder subst.size ∧ ∀ v ∈ ty.leaves, subst.Unsolved v

theorem resolved_of_provides {registry : Registry} {builtin : Builtin} {ty : Ty}
    (provides : registry.Provides builtin ty) (subst : Subst) : subst.Resolved ty := by
  obtain ⟨id, template, rfl, -⟩ := provides
  exact ⟨.nominal nofun, nofun⟩

abbrev Context := Name → Option Scheme

/-- The scope with more names, of which the latest counts. -/
def Context.extend (context : Context) (bindings : List (Name × Scheme)) : Context :=
  fun name => (bindings.reverse.lookup name).or (context name)

theorem Context.extend_nil (context : Context) : context.extend [] = context := rfl

/-- Variables that no name in scope has free in its type. -/
def Context.Closed (context : Context) (v : TyVar) : Prop :=
  ∀ name scheme, context name = some scheme → v ∈ scheme.ty.leaves → v ∈ scheme.vars

/-- A type that a scheme gives at some types for its quantified variables. -/
def Scheme.Instance (scheme : Scheme) (ty : Ty) : Prop :=
  ∃ images : TyVar → Ty, (∀ v, v ∉ scheme.vars → images v = .var v) ∧ ty = scheme.ty.under images

def Definition.schemes (definitions : List Definition) : List (Name × Scheme) :=
  definitions.map fun definition => (definition.name, definition.scheme)

/-- The names of a recursive group inside its own values. -/
def Definition.monoSchemes (definitions : List Definition) : List (Name × Scheme) :=
  definitions.map fun definition => (definition.name, .mono definition.scheme.ty)

/-- The names that a group is in scope of itself with. -/
def Definition.inside (recursive : Bool) (definitions : List Definition) : List (Name × Scheme) :=
  if recursive then monoSchemes definitions else []

def Scheme.monos (captures : List (Name × Ty)) : List (Name × Scheme) :=
  captures.map fun (name, ty) => (name, .mono ty)

namespace Term

/-- A term whose types are resolved and fit together at every node. -/
inductive Typed (subst : Subst) (registry : Registry) : Context → Term → Prop where
  | var {context : Context} {name : Name} {ty : Ty} {scheme : Scheme} (named : name.Apart)
    (known : context name = some scheme) (resolved : subst.Resolved scheme.ty)
    (isInstance : scheme.Instance ty) (resolvedTy : subst.Resolved ty) :
    Typed subst registry context (.var name ty)
  | bool {context : Context} {ty : Ty} (provided : registry.Provides .bool ty) (value : Bool) :
    Typed subst registry context (.lit (.bool value) ty)
  | int {context : Context} {ty : Ty} {width : Nat} {value : Int}
    (provided : registry.Provides (.int width) ty) (range : InWidth width value) :
    Typed subst registry context (.lit (.int width value) ty)
  | str {context : Context} {ty : Ty} (provided : registry.Provides .str ty) (bytes : Bytes) :
    Typed subst registry context (.lit (.str bytes) ty)
  | tuple {context : Context} {elems : List Term}
    (each : ∀ term ∈ elems, Typed subst registry context term) :
    Typed subst registry context (.tuple elems (.tuple (elems.map Term.ty)))
  | constant {context : Context} {id : TemplateId} {index : Nat} {dataCase : DataCase}
    {args : List Ty} (declares : registry.Declares id index dataCase args)
    (empty : dataCase.fields = []) (resolved : subst.Resolved (.nominal id args)) :
    Typed subst registry context (.ctor dataCase.name id index none (.nominal id args))
  | ctor {context : Context} {id : TemplateId} {index : Nat} {dataCase : DataCase}
    {args : List Ty} {arg : Term} (declares : registry.Declares id index dataCase args)
    (nonempty : dataCase.fields ≠ []) (resolved : subst.Resolved (.nominal id args))
    (typed : Typed subst registry context arg)
    (fields : arg.ty = Ty.tupled (registry.fieldsAt id index args)) :
    Typed subst registry context (.ctor dataCase.name id index (some arg) (.nominal id args))
  | lambda {context : Context} {param : Name} {paramTy : Ty} {body : Term} (named : param.Apart)
    (resolved : subst.Resolved paramTy)
    (typed : Typed subst registry (context.extend [(param, .mono paramTy)]) body) :
    Typed subst registry context (.lambda param paramTy body (.arrow paramTy body.ty))
  | app {context : Context} {func arg : Term} {ty : Ty}
    (function : Typed subst registry context func) (typed : Typed subst registry context arg)
    (fits : func.ty = .arrow arg.ty ty) : Typed subst registry context (.app func arg ty)
  | letIn {context : Context} {recursive : Bool} {definitions : List Definition} {body : Term}
    (named : ∀ definition ∈ definitions, definition.name.Apart)
    (values : ∀ definition ∈ definitions, Typed subst registry
      (context.extend (Definition.inside recursive definitions)) definition.value)
    (types : ∀ definition ∈ definitions, definition.value.ty = definition.scheme.ty)
    (general : ∀ definition ∈ definitions, ∀ v ∈ definition.scheme.vars, context.Closed v)
    (typed : Typed subst registry (context.extend (Definition.schemes definitions)) body) :
    Typed subst registry context (.letIn recursive definitions body body.ty)
  | matchOn {context : Context} {scrutinee : Term} {arms : List Arm} {ty : Ty}
    (captures : Arm → List (Name × Ty)) (typed : Typed subst registry context scrutinee)
    (pats : ∀ arm ∈ arms, Pat.Typed registry arm.pat scrutinee.ty (captures arm))
    (distinct : ∀ arm ∈ arms, ((captures arm).map (·.1)).Nodup)
    (named : ∀ arm ∈ arms, ∀ capture ∈ captures arm, capture.1.Apart)
    (bodies : ∀ arm ∈ arms,
      Typed subst registry (context.extend (Scheme.monos (captures arm))) arm.body)
    (results : ∀ arm ∈ arms, arm.body.ty = ty) (resolved : subst.Resolved ty) :
    Typed subst registry context (.matchOn scrutinee arms ty)

variable {subst : Subst} {registry : Registry} {context : Context} {term : Term}

theorem Typed.resolved (typed : Typed subst registry context term) : subst.Resolved term.ty := by
  induction typed with
  | var _ _ _ _ resolvedTy => exact resolvedTy
  | bool provided _ => exact resolved_of_provides provided subst
  | int provided _ => exact resolved_of_provides provided subst
  | str provided _ => exact resolved_of_provides provided subst
  | tuple _ ih =>
    refine ⟨.tuple fun ty member => ?_, fun v member => ?_⟩
    · obtain ⟨term, inside, rfl⟩ := List.mem_map.mp member
      exact (ih term inside).1
    · obtain ⟨ty, inTypes, inLeaves⟩ := Ty.mem_leavesAll.mp member
      obtain ⟨term, inside, rfl⟩ := List.mem_map.mp inTypes
      exact (ih term inside).2 v inLeaves
  | constant _ _ resolved => exact resolved
  | ctor _ _ resolved _ _ _ => exact resolved
  | lambda _ resolved _ ih =>
    refine ⟨.arrow resolved.1 ih.1, fun v member => ?_⟩
    exact (List.mem_append.mp member).elim (resolved.2 v) (ih.2 v)
  | app _ _ fits ihFunction _ =>
    rw [fits] at ihFunction
    obtain ⟨plain, unsolved⟩ := ihFunction
    cases plain with
    | arrow _ snd => exact ⟨snd, fun v member => unsolved v (List.mem_append_right _ member)⟩
  | letIn _ _ _ _ _ _ ih => exact ih
  | matchOn _ _ _ _ _ _ _ resolved _ _ => exact resolved

section Zonk

variable (subst : Subst)

@[simp] theorem ty_zonk (term : Term) : (term.zonk subst).ty = subst.zonk term.ty := by
  cases term <;> simp only [zonk, ty]

theorem zonkAll_eq_map (terms : List Term) : zonkAll subst terms = terms.map (zonk subst) := by
  induction terms with
  | nil => simp only [zonkAll, List.map_nil]
  | cons term terms ih => simp only [zonkAll, List.map_cons, ih]

theorem zonkArms_eq_map (arms : List Arm) :
    zonkArms subst arms = arms.map fun arm => ⟨arm.pat, arm.body.zonk subst⟩ := by
  induction arms with
  | nil => simp only [zonkArms, List.map_nil]
  | cons arm arms ih =>
    obtain ⟨pat, body⟩ := arm
    simp only [zonkArms, List.map_cons, ih]

theorem zonkDefinitions_eq_map (definitions : List Definition) :
    zonkDefinitions subst definitions = definitions.map fun definition =>
      ⟨definition.name, definition.scheme.zonk subst, definition.value.zonk subst⟩ := by
  induction definitions with
  | nil => simp only [zonkDefinitions, List.map_nil]
  | cons definition definitions ih =>
    obtain ⟨name, scheme, value⟩ := definition
    simp only [zonkDefinitions, List.map_cons, ih]

end Zonk

end Term

end PolyCheck
