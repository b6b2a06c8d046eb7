import PolyCheck.Proofs.Registry
import PolyCheck.Proofs.Session.Scope
import PolyCheck.Proofs.Subst.Local
import PolyCheck.Session.Inference

/-! Checks between types in play. Definitions are closed over their parameters, aliases have no free
variables, and the schemes in scope are made of variables in play and of what they quantify; so
whatever a check starts from, the types it compares are in play, and the cells of earlier units stay
as they are. -/
namespace PolyCheck

open Run

/-- Apart from what the scheme quantifies, its type is in play; quantified variables are in play, or
they are parameters, or they are new variables of an earlier unit. -/
structure Scheme.Local (base : Subst) (world : World) (scheme : Scheme) : Prop where
  ty : scheme.ty.Confined world.binder fun v => world.own v ∨ v ∈ scheme.vars
  vars : ∀ v ∈ scheme.vars, world.own v ∨ world.binder v ∨ v.index < base.size ∧ (base.cell v).IsNew

/-- The fields are types over the parameters, up to loose variables. -/
structure Template.Closed (binder loose : TyVar → Prop) (template : Template) : Prop where
  params : ∀ v ∈ template.paramVars, binder v
  fields : ∀ dataCase ∈ template.cases, ∀ field ∈ dataCase.fields,
    field.Confined binder fun v => loose v ∨ v ∈ template.paramVars

/-- The type is one over what is quantified, up to loose variables. -/
structure Scheme.Closed (binder loose : TyVar → Prop) (scheme : Scheme) : Prop where
  vars : ∀ v ∈ scheme.vars, binder v
  ty : scheme.ty.Confined binder fun v => loose v ∨ v ∈ scheme.vars

/-- Definitions over their parameters, closed aliases, and closed signatures of constructors, up to
loose variables. -/
structure Registry.Closed (binder loose : TyVar → Prop) (registry : Registry) : Prop where
  template : ∀ {id : TemplateId} {template : Template}, registry.template? id = some template →
    template.Closed binder loose
  synonym : ∀ {name : Name} {ty : Ty} {kind : Kind},
    registry.types.get? name = some (.synonym ty kind) → ty.Confined binder loose
  ctor : ∀ {name : Name} {info : CtorInfo}, registry.ctors.get? name = some info →
    info.scheme.Closed binder loose

/-- Variables in play that types may be left with when they need not be closed. -/
def World.Loose (closed : Prop) (world : World) (v : TyVar) : Prop := ¬ closed ∧ world.own v

/-- What is known of the tables outlasts new integer types. -/
def Registry.TakesInts (kept : Registry → Prop) : Prop :=
  ∀ (registry : Registry) (width : Nat), kept registry → kept (registry.intTemplate width).2

/-- A session whose scopes and tables keep to what is in play. The tables may have to be closed. -/
structure Session.Local (closed : Prop) (base : Subst) (env : Env) (kept : Registry → Prop)
    (world : World) (session : Session) : Prop where
  subst : base.Local world session.subst
  scopes : session.env = env
  schemes : ∀ scheme ∈ env.schemes, scheme.Local base world
  registry : session.registry.Closed world.binder (world.Loose closed)
  kept : kept session.registry

section Later

variable {closed : Prop} {base : Subst} {world next : World}
  {binder binder' loose loose' : TyVar → Prop}

theorem Scheme.Local.later {scheme : Scheme} (here : scheme.Local base world)
    (grown : world ≤ next) : scheme.Local base next where
  ty := here.ty.mono grown.2 fun v => Or.imp_left (grown.1 v)
  vars v member := (here.vars v member).imp (grown.1 v) (Or.imp_left (grown.2 v))

theorem World.Owns.mono {ty : Ty} (owns : world.Owns ty) : Scheme.Local base world (.mono ty) where
  ty := owns.imp fun _ => .inl
  vars := nofun

theorem World.Loose.later {v : TyVar} (isLoose : world.Loose closed v) (grown : world ≤ next) :
    next.Loose closed v :=
  ⟨isLoose.1, grown.1 v isLoose.2⟩

theorem Template.Closed.mono {template : Template} (closed : template.Closed binder loose)
    (wider : ∀ v, binder v → binder' v) (looser : ∀ v, loose v → loose' v) :
    template.Closed binder' loose' where
  params v member := wider v (closed.params v member)
  fields dataCase inCases field inFields :=
    (closed.fields dataCase inCases field inFields).mono wider fun v => Or.imp_left (looser v)

theorem Scheme.Closed.mono {scheme : Scheme} (closed : scheme.Closed binder loose)
    (wider : ∀ v, binder v → binder' v) (looser : ∀ v, loose v → loose' v) :
    scheme.Closed binder' loose' where
  vars v member := wider v (closed.vars v member)
  ty := closed.ty.mono wider fun v => Or.imp_left (looser v)

theorem Registry.Closed.mono {registry : Registry} (closed : registry.Closed binder loose)
    (wider : ∀ v, binder v → binder' v) (looser : ∀ v, loose v → loose' v) :
    registry.Closed binder' loose' where
  template known := (closed.template known).mono wider looser
  synonym known := (closed.synonym known).mono wider looser
  ctor known := (closed.ctor known).mono wider looser

/-- A table with the same aliases and constructors, and new definitions at most. -/
theorem Registry.Closed.of_tables {registry after : Registry}
    (closed : registry.Closed binder loose)
    (templates : ∀ {id template}, after.template? id = some template →
      registry.template? id = some template ∨ template.Closed binder loose)
    (types : after.types = registry.types) (ctors : after.ctors = registry.ctors) :
    after.Closed binder loose where
  template known := (templates known).elim closed.template id
  synonym known := closed.synonym (types ▸ known)
  ctor known := closed.ctor (ctors ▸ known)

theorem Template.closed_ofBuiltin (binder loose : TyVar → Prop) (name : Name) (builtin : Builtin) :
    (Template.ofBuiltin name builtin).Closed binder loose := ⟨nofun, nofun⟩

theorem Registry.Closed.intTemplate {registry : Registry} (closed : registry.Closed binder loose)
    (width : Nat) : (registry.intTemplate width).2.Closed binder loose := by
  rw [Registry.intTemplate]
  cases known : registry.ints.get? width with
  | some id => exact closed
  | none =>
    refine closed.of_tables (fun {id template} found => ?_) (types_record _ _) (ctors_record _ _)
    rw [template?_record] at found
    change (registry.alloc _).2.template? id = some template at found
    rw [template?_alloc] at found
    split at found
    · obtain rfl := Option.some.inj found
      exact .inr (Template.closed_ofBuiltin _ _ _ _)
    · exact .inl found

theorem Scheme.Local.confines {subst : Subst} {scheme : Scheme} (here : scheme.Local base world)
    (cells : base.Local world subst) :
    subst.Confines world.binder fun v => world.own v ∨ v ∈ scheme.vars := by
  have same : (fun v => world.own v ∨ v ∈ scheme.vars) =
      fun v => world.own v ∨ v ∈ scheme.vars ∧ ¬ world.own v := by
    funext v
    exact propext (by tauto)
  rw [same]
  refine cells.confines.extend ?_
  rintro v ⟨member, outside⟩
  rcases here.vars v member with own | param | ⟨inside, isNew⟩
  · exact absurd own outside
  · exact cells.confines.binders param
  · rwa [cells.cells inside]

end Later

namespace Session

variable {closed : Prop} {base : Subst} {env : Env} {kept : Registry → Prop} {world next : World}
  {session : Session}

theorem Local.change (here : session.Local closed base env kept world) (grown : world ≤ next)
    {subst : Subst}
    (cells : base.Local next subst) : { session with subst }.Local closed base env kept next where
  subst := cells
  scopes := here.scopes
  schemes scheme member := (here.schemes scheme member).later grown
  registry := here.registry.mono grown.2 fun _ isLoose => isLoose.later grown
  kept := here.kept

theorem Local.enter (here : session.Local closed base env kept world)
    {bindings : List (Name × Scheme)} (each : ∀ binding ∈ bindings, binding.2.Local base world) :
    { session with env := env.enter bindings }.Local closed base
    (env.enter bindings) kept world where
  subst := here.subst
  scopes := rfl
  schemes := Env.forall_mem_schemes_enter here.schemes each
  registry := here.registry
  kept := here.kept

theorem Local.leave (outer : session.Local closed base env kept world) (grown : world ≤ next)
    {inside : Session}
    {bindings : List (Name × Scheme)}
    (here : inside.Local closed base (env.enter bindings) kept next) :
    { inside with env := inside.env.pop.2 }.Local closed base env kept next where
  subst := here.subst
  scopes := by rw [here.scopes, Env.pop_enter]
  schemes scheme member := (outer.schemes scheme member).later grown
  registry := here.registry
  kept := here.kept

end Session

namespace Check

variable {closed : Prop} {base : Subst} {env : Env} {kept : Registry → Prop}
  {world : World} {α : Type} {post : World → α → Prop}

theorem reaches_onSubst {change : Subst → α × Subst}
    (changed : ∀ {subst}, base.Local world subst →
      ∃ later, world ≤ later ∧ base.Local later (change subst).2 ∧ post later (change subst).1) :
    Reaches (Session.Local closed base env kept) world post (onSubst change) :=
  .modifyGet fun here => by
    obtain ⟨later, grown, cells, holds⟩ := changed here.subst
    exact ⟨later, grown, here.change grown cells, holds⟩

theorem reaches_freshVar : Reaches (Session.Local closed base env kept) world World.Owns freshVar :=
  reaches_onSubst fun here =>
    ⟨_, world.le_withOwn _, here.push_own Cell.isNew_unbound, .var (.inr rfl)⟩

theorem reaches_freshVars (count : Nat) :
    Reaches (Session.Local closed base env kept) world
      (fun later types => types.length = count ∧ ∀ ty ∈ types, later.Owns ty) (freshVars count) :=
  reaches_onSubst fun here => by
    obtain ⟨later, grown, there, length, each⟩ := here.pushMany_own Cell.isNew_unbound count
    exact ⟨later, grown, there, (List.length_map _).trans length,
      List.forall_mem_map.mpr fun v member => .var (each v member)⟩

theorem reaches_distinct (what : NameKind) (names : List Name) (span : Span) :
    Reaches (Session.Local closed base env kept) world unsaid (distinct what names span) := by
  unfold distinct
  split
  · exact .throw _
  · exact .pure trivial

theorem reaches_unify {expected found : Ty} (owns : world.Owns expected) (owns' : world.Owns found)
    (span : Span) : Reaches (Session.Local closed base env kept) world unsaid
    (unify expected found span) := by
  refine reaches_of_ok fun session after value here run => ?_
  obtain ⟨subst, equal, rfl⟩ := Session.unify_eq_ok.mp run
  obtain ⟨later, grown, cells, -⟩ := (Subst.reaches_unify owns owns').ok here.subst equal
  exact ⟨later, grown, here.change grown cells, trivial⟩

/-- Opening a quantifier stays among types in play, when the variables put in are in play. -/
theorem opened_local {later : World} {subst : Subst} (there : base.Local later subst)
    {vars fresh : List TyVar}
    {body : Ty} (owns : later.Owns (.quantified vars body)) (length : fresh.length = vars.length)
    (each : ∀ v ∈ fresh, later.own v) :
    later.Owns ((subst.zonk body).substitute (.ofLists vars (fresh.map .var))) := by
  obtain ⟨binders, inside⟩ := Ty.Confined.quantified_inv owns
  have confines := there.confines.extend fun v member => there.confines.binders (binders v member)
  refine (confines.zonk inside).instantiate ?_ ?_
  · rw [List.length_map, length]
  · exact List.forall_mem_map.mpr fun v member => .var (each v member)

theorem reaches_openFlexible {ty : Ty} {span : Span} (owns : world.Owns ty) :
    Reaches (Session.Local closed base env kept) world World.Owns (openFlexible ty span) := by
  refine .ensure (reaches_onSubst fun {subst} here => ?_)
  have shallow := here.confines.shallow owns
  split
  · rename_i vars body found
    rw [found] at shallow
    obtain ⟨later, grown, there, length, each⟩ := here.pushMany_own Cell.isNew_unbound vars.length
    exact ⟨later, grown, there, opened_local there (World.Owns.later shallow grown) length each⟩
  · exact ⟨world, le_rfl, here, shallow⟩

theorem rigidCopies_local {vars : List TyVar} {subst : Subst} (here : base.Local world subst) :
    ∃ later, world ≤ later ∧ base.Local later (rigidCopies subst vars).2 ∧
      (rigidCopies subst vars).1.length = vars.length ∧
      ∀ v ∈ (rigidCopies subst vars).1, later.own v := by
  induction vars generalizing subst world with
  | nil => exact ⟨world, le_rfl, here, rfl, nofun⟩
  | cons var vars ih =>
    obtain ⟨later, grown, there, length, each⟩ := ih (here.push_own (Cell.isNew_rigid _))
    refine ⟨later, (world.le_withOwn _).trans grown, there, congrArg Nat.succ length, ?_⟩
    exact List.forall_mem_cons.mpr ⟨grown.1 _ (.inr rfl), each⟩

theorem reaches_openRigid {vars : List TyVar} {body : Ty} {span : Span}
    (owns : world.Owns (.quantified vars body)) :
    Reaches (Session.Local closed base env kept) world (fun later opened => later.Owns opened.2)
      (openRigid vars body span) := by
  refine .ensure (reaches_onSubst fun {subst} here => ?_)
  obtain ⟨later, grown, there, length, each⟩ := rigidCopies_local here
  exact ⟨later, grown, there, opened_local there (World.Owns.later owns grown) length each⟩

theorem reaches_instantiate {scheme : Scheme} (shared : scheme.Local base world) :
    Reaches (Session.Local closed base env kept) world World.Owns (onSubst scheme.instantiate) := by
  refine reaches_onSubst fun {subst} here => ?_
  have resolved := (shared.confines here).zonk shared.ty
  unfold Scheme.instantiate
  dsimp only
  split
  · rename_i empty
    refine ⟨world, le_rfl, here, resolved.imp fun v shown => shown.resolve_right ?_⟩
    rw [List.isEmpty_iff.mp empty]
    exact List.not_mem_nil
  · obtain ⟨later, grown, there, length, each⟩ :=
      here.pushMany_own Cell.isNew_unbound scheme.vars.length
    have wider : (subst.zonk scheme.ty).Confined later.binder fun v => later.own v ∨
        v ∈ scheme.vars :=
      resolved.mono grown.2 fun v => Or.imp_left (grown.1 v)
    refine ⟨later, grown, there, wider.instantiate ?_ ?_⟩
    · rw [List.length_map, length]
    · exact List.forall_mem_map.mpr fun v member => .var (each v member)

theorem owns_fieldsAt {registry : Registry}
    (tables : registry.Closed world.binder (world.Loose closed)) (id : TemplateId)
    (index : Nat) {args : List Ty} (length : args.length = registry.paramCount id)
    (each : ∀ ty ∈ args, world.Owns ty) : ∀ ty ∈ registry.fieldsAt id index args,
      world.Owns ty := by
  refine Registry.forall_mem_fieldsAt fun known inside field member => ?_
  have confined := (tables.template known).fields _ (List.mem_of_getElem? inside) field member
  refine (confined.imp fun v => Or.imp_left And.right).instantiate ?_ each
  rw [length, Registry.paramCount, known, Option.map_some, Option.getD_some, Template.paramVars,
    List.length_map]

section Registering

variable (int : Registry.TakesInts kept)
include int

theorem reaches_intTy (width : Nat) :
    Reaches (Session.Local closed base env kept) world (fun _ ty => ∃ id, ty = .named id)
    (intTy width) :=
  .modifyGet fun here => ⟨world, le_rfl, ⟨here.subst, here.scopes, here.schemes,
    here.registry.intTemplate width, int _ width here.kept⟩, _, rfl⟩

theorem reaches_literal (value : Literal) (span : Span) :
    Reaches (Session.Local closed base env kept) world (fun later result => later.Owns result.2)
      (literal value span) := by
  unfold literal
  split
  · exact .pure (.named _)
  · refine .get fun session _ => ?_
    dsimp only
    split
    · exact .throw _
    · refine (reaches_intTy int _).bind fun _ named => .pure ?_
      obtain ⟨id, rfl⟩ := named
      exact .named id
  · split
    · exact .throw _
    · exact .pure (.named _)

end Registering

theorem reaches_ctorInstance (info : CtorInfo) :
    Reaches (Session.Local closed base env kept) world
      (fun later result => (∀ ty ∈ result.1, later.Owns ty) ∧ later.Owns result.2)
      (ctorInstance info) := by
  refine .get fun session here => (reaches_freshVars _).bind fun grown fresh => .pure ?_
  obtain ⟨length, each⟩ := fresh
  exact ⟨owns_fieldsAt (here.registry.mono grown.2 fun _ isLoose => isLoose.later grown)
    info.template info.index length each, .nominal each⟩

end Check

end PolyCheck
