import PolyCheck.Proofs.Kind.Table
import PolyCheck.Proofs.Session.Declarations
import PolyCheck.Proofs.Session.Discipline
import PolyCheck.Proofs.Subst.Hereditary
import PolyCheck.Proofs.Ty.Kinded

/-! Sessions without type applications. Fields, aliases, schemes and solutions hold none, and an
alias leaves none when it is given as many types as its kind takes. The elementary checks lead from
such sessions to such sessions, and to types of that kind. -/
namespace PolyCheck

open Run

/-- No field of the definition applies a type. -/
def Template.Unapplied (template : Template) : Prop :=
  ∀ dataCase ∈ template.cases, ∀ field ∈ dataCase.fields, field.Unapplied

/-- What a type name stands for can be given the types that its kind takes. -/
def TypeDef.Unapplied : TypeDef → Prop
  | .synonym ty kind => ∀ count, kind.Admits count → ty.Absorbs count
  | .data _ => True

structure Registry.Unapplied (registry : Registry) : Prop where
  template : ∀ {id template}, registry.template? id = some template → template.Unapplied
  type : ∀ {name meaning}, registry.types.get? name = some meaning → meaning.Unapplied

/-- A session in the given scopes without type applications. Nothing else is known about it. -/
structure Session.Unapplied (env : Env) (_ : Unit) (session : Session) : Prop where
  subst : session.subst.Solutions Ty.Unapplied
  scopes : session.env = env
  schemes : ∀ scheme ∈ env.schemes, scheme.ty.Unapplied
  registry : session.registry.Unapplied

namespace Registry.Unapplied

variable {registry after : Registry} {template : Template} {id : TemplateId}

theorem of_templates (unapplied : registry.Unapplied)
    (templates : after.templates = registry.templates)
    (type : ∀ {name meaning}, after.types.get? name = some meaning → meaning.Unapplied) :
      after.Unapplied where
  template {id found} known := by
    rw [template?, templates] at known
    exact unapplied.template known
  type := type

theorem alloc (unapplied : registry.Unapplied) (made : template.Unapplied) :
    (registry.alloc template).2.Unapplied where
  template known := by
    rw [template?_alloc] at known
    split at known
    · exact Option.some.inj known ▸ made
    · exact unapplied.template known
  type := unapplied.type

theorem intTemplate (unapplied : registry.Unapplied) (width : Nat) :
    (registry.intTemplate width).2.Unapplied := by
  cases known : registry.ints.get? width with
  | some id => rwa [intTemplate_of_some known]
  | none =>
    have made : (Template.ofBuiltin ("i" ++ toString width) (.int width)).Unapplied :=
      List.forall_mem_nil _
    rw [intTemplate_of_none known]
    refine (unapplied.alloc made).of_templates (templates_record _ _) fun {name meaning} found => ?_
    rw [types_record] at found
    exact unapplied.type found

theorem modifyTemplate (unapplied : registry.Unapplied) {change : Template → Template}
    (changed : ∀ template, registry.template? id = some template → (change template).Unapplied) :
    (registry.modifyTemplate id change).Unapplied where
  template {other found} known := by
    rw [template?_modify] at known
    split at known
    · rename_i same
      subst same
      obtain ⟨old, there, rfl⟩ := Option.map_eq_some_iff.mp known
      exact changed old there
    · exact unapplied.template known
  type := unapplied.type

theorem defineType (unapplied : registry.Unapplied) (name : Name) {meaning : TypeDef}
    (made : meaning.Unapplied) : (registry.defineType name meaning).Unapplied := by
  refine unapplied.of_templates (templates_record _ _) fun {other found} known => ?_
  rw [Registry.defineType, types_record, Table.get?_insert] at known
  split at known
  · exact Option.some.inj known ▸ made
  · exact unapplied.type known

theorem foldl_defineCtor (unapplied : registry.Unapplied) (infos : List CtorInfo) :
    (infos.foldl Registry.defineCtor registry).Unapplied := by
  induction infos generalizing registry with
  | nil => exact unapplied
  | cons info infos ih =>
    refine ih (unapplied.of_templates (templates_record _ _) fun {name meaning} known => ?_)
    rw [Registry.defineCtor, types_record] at known
    exact unapplied.type known

theorem fieldsAt (unapplied : registry.Unapplied) (id : TemplateId) (index : Nat) {args : List Ty}
    (each : ∀ t ∈ args, t.Unapplied) : ∀ t ∈ registry.fieldsAt id index args, t.Unapplied := by
  refine Registry.forall_mem_fieldsAt fun known inside field member => ?_
  exact (Ty.hereditary_applied False).substitute_ofLists
    (unapplied.template known _ (List.mem_of_getElem? inside) field member) each

theorem absorbs_selfTy (template : Template) (id : TemplateId) {count : Nat}
    (admits : template.kind.Admits count) :
    (Ty.quantified template.paramVars (template.selfTy id)).Absorbs count := by
  obtain ⟨rest, taken, le⟩ := Kind.admits_function admits
  cases rest with
  | succ rest => exact taken.elim
  | zero =>
    refine .quantified (.none (.nominal (List.forall_mem_map.mpr fun v _ => .var v))) ?_
    rwa [Template.paramVars, List.length_map, ← List.length_map (f := Prod.snd)]

end Registry.Unapplied

namespace Session.Unapplied

variable {env : Env} {session inside : Session} {bindings : List (Name × Scheme)} {world : Unit}

theorem withSubst (here : session.Unapplied env world) {subst : Subst}
    (solutions : subst.Solutions Ty.Unapplied) : { session with subst }.Unapplied env world :=
  ⟨solutions, here.scopes, here.schemes, here.registry⟩

theorem withRegistry (here : session.Unapplied env world) {registry : Registry}
    (unapplied : registry.Unapplied) : { session with registry }.Unapplied env world :=
  ⟨here.subst, here.scopes, here.schemes, unapplied⟩

theorem enter (here : session.Unapplied env world)
    (each : ∀ binding ∈ bindings, binding.2.ty.Unapplied) :
    { session with env := env.enter bindings }.Unapplied (env.enter bindings) world where
  subst := here.subst
  scopes := rfl
  schemes := Env.forall_mem_schemes_enter here.schemes each
  registry := here.registry

theorem leave (outer : session.Unapplied env world)
    (here : inside.Unapplied (env.enter bindings) world) :
    { inside with env := inside.env.pop.2 }.Unapplied env world where
  subst := here.subst
  scopes := by rw [here.scopes, Env.pop_enter]
  schemes := outer.schemes
  registry := here.registry

section Checks

variable {α : Type} {post : Unit → α → Prop}

theorem stays_onSubst {change : Subst → α × Subst}
    (changed : ∀ {subst}, subst.Solutions Ty.Unapplied →
      (change subst).2.Solutions Ty.Unapplied ∧ post world (change subst).1) :
    Stays (Session.Unapplied env) world post (Check.onSubst change) :=
  .modifyGet fun here => ⟨world, le_rfl, here.withSubst (changed here.subst).1,
    (changed here.subst).2⟩

theorem stays_onRegistry {change : Registry → α × Registry}
    (changed : ∀ {registry}, registry.Unapplied → (change registry).2.Unapplied ∧
      post world (change registry).1) :
    Stays (Session.Unapplied env) world post (Check.onRegistry change) :=
  .modifyGet fun here => ⟨world, le_rfl, here.withRegistry (changed here.registry).1,
    (changed here.registry).2⟩

theorem stays_fresh {change : Subst → TyVar × Subst} {cell : Cell} (isNew : cell.IsNew)
    (pushes : ∀ subst, change subst = subst.push cell) :
    Stays (Session.Unapplied env) world unsaid (Check.onSubst change) :=
  stays_onSubst fun {subst} here => ⟨pushes subst ▸ here.push isNew, trivial⟩

theorem stays_freshVar : Stays (Session.Unapplied env) world
    (fun _ ty => ty.Unapplied) Check.freshVar :=
  stays_onSubst fun here => ⟨here.push Cell.isNew_unbound, .var _⟩

theorem stays_freshVars (count : Nat) :
    Stays (Session.Unapplied env) world (fun _ types => ∀ ty ∈ types, ty.Unapplied)
    (Check.freshVars count) :=
  stays_onSubst fun here => ⟨here.pushMany Cell.isNew_unbound count,
    List.forall_mem_map.mpr fun v _ => .var v⟩

theorem stays_unify {expected found : Ty} (unapplied : expected.Unapplied)
    (unapplied' : found.Unapplied)
    (span : Span) : Stays (Session.Unapplied env) world unsaid
    (Check.unify expected found span) := by
  intro session here
  have arrived := Subst.stays_unify_hereditary (Ty.hereditary_applied False) unapplied unapplied'
    session.subst here.subst
  simp only [Check.unify]
  cases result : Subst.unify expected found session.subst with
  | ok value subst =>
    rw [result] at arrived
    obtain ⟨_, -, there, -⟩ := arrived
    exact ⟨world, le_rfl, here.withSubst there, trivial⟩
  | error error subst =>
    rw [result] at arrived
    intro count
    obtain ⟨_, -, there⟩ := arrived count
    exact ⟨world, le_rfl, here.withSubst there⟩

theorem opened {subst : Subst} (here : subst.Solutions Ty.Unapplied) {body : Ty}
    (unapplied : body.Unapplied) (vars copies : List TyVar) :
    ((subst.zonk body).substitute (.ofLists vars (copies.map .var))).Unapplied :=
  (Ty.hereditary_applied False).substitute_ofLists
    (here.zonk (Ty.hereditary_applied False) unapplied) (List.forall_mem_map.mpr fun v _ => .var v)

theorem stays_openFlexible {ty : Ty} {span : Span} (unapplied : ty.Unapplied) :
    Stays (Session.Unapplied env) world (fun _ ty => ty.Unapplied)
    (Check.openFlexible ty span) := by
  refine .ensure (stays_onSubst fun {subst} here => ?_)
  have shallow := here.shallow (Ty.hereditary_applied False) unapplied
  split
  · rename_i vars body found
    rw [found] at shallow
    have there := here.pushMany Cell.isNew_unbound vars.length
    exact ⟨there, opened there ((Ty.hereditary_applied False).quantified.mp shallow) vars _⟩
  · exact ⟨here, shallow⟩

theorem solutions_rigidCopies {vars : List TyVar} {subst : Subst}
    (here : subst.Solutions Ty.Unapplied) :
    (Check.rigidCopies subst vars).2.Solutions Ty.Unapplied := by
  induction vars generalizing subst with
  | nil => exact here
  | cons var vars ih => exact ih (here.push (Cell.isNew_rigid (subst.rigidName? var)))

theorem stays_openRigid {vars : List TyVar} {body : Ty} {span : Span}
    (unapplied : (Ty.quantified vars body).Unapplied) :
    Stays (Session.Unapplied env) world (fun _ found => found.2.Unapplied)
      (Check.openRigid vars body span) :=
  .ensure (stays_onSubst fun here => ⟨solutions_rigidCopies here,
    opened (solutions_rigidCopies here) ((Ty.hereditary_applied False).quantified.mp unapplied)
      vars _⟩)

theorem stays_instantiate {scheme : Scheme} (unapplied : scheme.ty.Unapplied) :
    Stays (Session.Unapplied env) world (fun _ ty => ty.Unapplied)
    (Check.onSubst scheme.instantiate) := by
  refine stays_onSubst fun {subst} here => ?_
  have resolved := here.zonk (Ty.hereditary_applied False) unapplied
  unfold Scheme.instantiate
  dsimp only
  split
  · exact ⟨here, resolved⟩
  · refine ⟨here.pushMany Cell.isNew_unbound _,
      (Ty.hereditary_applied False).substitute_ofLists resolved ?_⟩
    exact List.forall_mem_map.mpr fun v _ => .var v

theorem stays_intTy (width : Nat) :
    Stays (Session.Unapplied env) world (fun _ ty => ty.Unapplied) (Check.intTy width) :=
  stays_onRegistry fun here => ⟨here.intTemplate width, .nominal (List.forall_mem_nil _)⟩

theorem stays_literal (value : Literal) (span : Span) :
    Stays (Session.Unapplied env) world (fun _ result => result.2.Unapplied)
    (Check.literal value span) := by
  unfold Check.literal
  split
  · exact .pure (.nominal (List.forall_mem_nil _))
  · refine .get fun session _ => ?_
    dsimp only
    split
    · exact .throw _
    · exact (stays_intTy _).bind fun _ unapplied => .pure unapplied
  · split
    · exact .throw _
    · exact .pure (.nominal (List.forall_mem_nil _))

theorem stays_ctorInstance (info : CtorInfo) :
    Stays (Session.Unapplied env) world
    (fun _ result => (∀ ty ∈ result.1, ty.Unapplied) ∧ result.2.Unapplied)
      (Check.ctorInstance info) := by
  refine .get fun session here => (stays_freshVars _).bind fun _ each => .pure ?_
  exact ⟨here.registry.fieldsAt _ _ each, .nominal each⟩

end Checks

end Session.Unapplied

end PolyCheck
