import PolyCheck.Proofs.Session.Fits
import PolyCheck.Proofs.Subst.Relabelling
import PolyCheck.Proofs.Term.Relabelling

/-! Sessions whose types have other numbers for their variables. They hold the same definitions,
bind the same names and have corresponding cells, so a check of the one matches the check of the
other: both succeed, with corresponding results in such sessions again, or neither does, unless one
of them is stopped. -/
namespace PolyCheck

open Run

variable {label : TyVar → TyVar} {subst subst' : Subst}

section Environments

theorem Scheme.freeVars_relabel (here : subst.Corresponds label subst') {scheme : Scheme}
    (ended : (subst.freeVars? scheme.ty).isSome = true)
    (ended' : (subst'.freeVars? (scheme.relabel label).ty).isSome = true) :
    (scheme.relabel label).freeVars subst' = (scheme.freeVars subst).map label := by
  obtain ⟨free, search⟩ := Option.isSome_iff_exists.mp ended
  obtain ⟨free', search'⟩ := Option.isSome_iff_exists.mp ended'
  obtain rfl := here.freeVars_eq search search'
  rw [freeVars, freeVars, Subst.freeVars, Subst.freeVars, search, search', Option.getD_some,
    Option.getD_some, List.filter_map]
  refine congrArg (List.map label) (List.filter_congr fun v _ => congrArg not ?_)
  simp [Scheme.relabel, here.injective.eq_iff]

def Scope.relabel (label : TyVar → TyVar) (scope : Scope) : Scope :=
  ⟨scope.entries.map fun (name, scheme) => (name, scheme.relabel label)⟩

def Env.relabel (label : TyVar → TyVar) (env : Env) : Env :=
  ⟨env.inner.map (Scope.relabel label), Scope.relabel label env.globals⟩

theorem Env.relabel_eq {label : TyVar → TyVar} {env : Env}
    (each : ∀ scheme ∈ env.schemes, scheme.relabel label = scheme) : env.relabel label = env := by
  have scopes : ∀ scope : Scope, (∀ scheme ∈ scope.values, scheme.relabel label = scheme) →
      scope.relabel label = scope := by
    rintro ⟨entries⟩ each
    refine congrArg Table.mk ((List.map_congr_left fun entry member => ?_).trans (List.map_id _))
    exact congrArg (Prod.mk entry.1) (each entry.2 (List.mem_map_of_mem member))
  obtain ⟨inner, globals⟩ := env
  simp only [Env.mem_schemes] at each
  rw [Env.relabel, scopes globals fun scheme member => each scheme (.inl member)]
  refine congrArg (Env.mk · globals)
    ((List.map_congr_left fun scope member => ?_).trans (List.map_id _))
  exact scopes scope fun scheme inside => each scheme (.inr ⟨scope, member, inside⟩)

def relabelBindings (label : TyVar → TyVar) (bindings : List (Name × Scheme)) :
    List (Name × Scheme) :=
  bindings.map fun (name, scheme) => (name, scheme.relabel label)

theorem Scope.get?_relabel (scope : Scope) (name : Name) :
    (scope.relabel label).get? name = (scope.get? name).map (Scheme.relabel label) := by
  obtain ⟨entries⟩ := scope
  induction entries with
  | nil => rfl
  | cons entry entries ih =>
    obtain ⟨bound, scheme⟩ := entry
    change List.lookup name ((bound, scheme.relabel label) :: _) =
      (List.lookup name ((bound, scheme) :: _)).map _
    rw [List.lookup_cons, List.lookup_cons]
    cases name == bound with
    | true => rfl
    | false => exact ih

theorem Scope.relabel_insert (scope : Scope) (name : Name) (scheme : Scheme) :
    Scope.relabel label (scope.insert name scheme) = (scope.relabel label).insert name
    (scheme.relabel label) := by
  obtain ⟨entries⟩ := scope
  refine congrArg Table.mk ?_
  change List.map _ (Table.insertEntry name scheme entries) = Table.insertEntry name _
    (List.map _ entries)
  induction entries with
  | nil => rfl
  | cons entry entries ih =>
    obtain ⟨bound, other⟩ := entry
    rw [List.map_cons, Table.insertEntry, Table.insertEntry]
    split
    · rfl
    · rw [List.map_cons, ih]

theorem Scope.values_relabel (scope : Scope) :
    (scope.relabel label).values = scope.values.map (Scheme.relabel label) := by
  rw [Table.values, Table.values, Scope.relabel, List.map_map, List.map_map]
  rfl

namespace Env

theorem relabel_enter (env : Env) (bindings : List (Name × Scheme)) :
    (env.enter bindings).relabel label = (env.relabel label).enter
    (relabelBindings label bindings) := by
  have scopes : ∀ (bindings : List (Name × Scheme)) (scope : Scope),
      (scopeOf scope bindings).relabel label = scopeOf (scope.relabel label)
        (relabelBindings label bindings) := by
    intro bindings
    induction bindings with
    | nil => exact fun _ => rfl
    | cons binding bindings ih =>
      intro scope
      change Scope.relabel label (scopeOf (scope.insert binding.1 binding.2) bindings) = _
      rw [ih, Scope.relabel_insert]
      rfl
  rw [enter_eq, enter_eq, relabel, List.map_cons, scopes]
  rfl

theorem relabel_pop (env : Env) : env.pop.2.relabel label = (env.relabel label).pop.2 := by
  obtain ⟨inner, globals⟩ := env
  cases inner <;> rfl

theorem depth_relabel (env : Env) : (env.relabel label).depth = env.depth := by
  rw [depth, depth, relabel, List.length_map]

theorem lookup?_relabel (env : Env) (name : Name) :
    (env.relabel label).lookup? name = (env.lookup? name).map (Scheme.relabel label) := by
  have scopes : ((·.get? name) ∘ Scope.relabel label : Scope → Option Scheme) =
      fun scope => (scope.get? name).map (Scheme.relabel label) :=
        funext fun scope => scope.get?_relabel name
  have globals : (Scope.relabel label env.globals).get? name = _ := env.globals.get?_relabel name
  have inner : env.inner.findSome? (fun scope => (scope.get? name).map (Scheme.relabel label)) =
      (env.inner.findSome? (·.get? name)).map (Scheme.relabel label) := List.map_findSome?.symm
  rw [lookup?, lookup?, relabel, List.findSome?_map, scopes, globals, inner, Option.map_or]

theorem values_relabel (env : Env) (depth : Nat) :
    ((env.relabel label).scopes.take depth).flatMap Table.values =
    ((env.scopes.take depth).flatMap Table.values).map (Scheme.relabel label) := by
  have same : (env.relabel label).scopes = env.scopes.map (Scope.relabel label) := by
    rw [scopes, scopes, relabel, List.map_cons, List.map_reverse]
  rw [same, ← List.map_take, List.flatMap_map, List.map_flatMap]
  exact congrArg (List.flatMap · _) (funext Scope.values_relabel)

theorem freeVarsBelow_relabel (here : subst.Corresponds label subst') (env : Env) {depth : Nat}
    (walkable : env.walkableBelow depth subst = true)
    (walkable' : (env.relabel label).walkableBelow depth subst' = true) :
    (env.relabel label).freeVarsBelow depth subst' = (env.freeVarsBelow depth subst).map label := by
  rw [walkableBelow, List.all_eq_true] at walkable
  rw [walkableBelow, values_relabel, List.all_eq_true, List.forall_mem_map] at walkable'
  have each : ∀ scheme ∈ (env.scopes.take depth).flatMap Table.values,
      (scheme.relabel label).freeVars subst' = (scheme.freeVars subst).map label :=
    fun scheme member => Scheme.freeVars_relabel here (walkable scheme member)
      (walkable' scheme member)
  rw [freeVarsBelow, freeVarsBelow, values_relabel, List.flatMap_map,
    ← eraseDups_map here.injective, List.map_flatMap]
  exact congrArg List.eraseDups (List.flatMap_congr each)

end Env

end Environments

section Definitions

/-- Definitions over variables that keep their numbers. -/
structure Registry.Fixed (label : TyVar → TyVar) (registry : Registry) : Prop where
  params : ∀ {id template}, registry.template? id = some template → ∀ v ∈ template.paramVars,
    label v = v
  fields : ∀ {id template}, registry.template? id = some template →
    ∀ dataCase ∈ template.cases, ∀ field ∈ dataCase.fields, field.relabel label = field
  aliases : ∀ {name ty kind}, registry.types.get? name = some (.synonym ty kind) →
    ty.relabel label = ty

namespace Registry

variable {registry : Registry} {shape : Shape}

theorem Fits.fixed (fits : registry.Fits shape) (keeps : ∀ v, v.index < shape.cells → label v = v) :
    registry.Fixed label where
  params known v member := keeps v ((fits.template known).params v member)
  fields known dataCase inCases field member :=
    ((fits.template known).fields dataCase inCases field member).relabel keeps
  aliases known := by
    cases fits.type known with
    | synonym fits _ => exact fits.relabel keeps

theorem Fixed.intTemplate (fixed : registry.Fixed label) (width : Nat) :
    (registry.intTemplate width).2.Fixed label := by
  cases known : registry.ints.get? width with
  | some id =>
    rw [intTemplate_of_some known]
    exact fixed
  | none =>
    rw [intTemplate_of_none known]
    have templates : ∀ {id template},
      (registry.alloc (.ofBuiltin ("i" ++ toString width) (.int width))).2.template? id =
        some template → template = .ofBuiltin ("i" ++ toString width) (.int width) ∨
        registry.template? id = some template := by
      intro id template found
      rw [template?_alloc] at found
      split at found
      · exact .inl (Option.some.inj found).symm
      · exact .inr found
    refine ⟨fun found => ?_, fun found => ?_, fun found => ?_⟩
    · rw [template?_record] at found
      rcases templates found with rfl | old
      · exact List.forall_mem_nil _
      · exact fixed.params old
    · rw [template?_record] at found
      rcases templates found with rfl | old
      · exact List.forall_mem_nil _
      · exact fixed.fields old
    · rw [types_record] at found
      exact fixed.aliases found

theorem Fixed.fieldsAt (fixed : registry.Fixed label) (injective : Function.Injective label)
    (id : TemplateId) (index : Nat) (args : List Ty) :
    registry.fieldsAt id index (args.map (Ty.relabel label)) = (registry.fieldsAt id index args).map
    (Ty.relabel label) := by
  rw [Registry.fieldsAt, Registry.fieldsAt]
  cases known : registry.template? id with
  | none => rfl
  | some template =>
    rw [Option.bind_some, Option.bind_some, Template.fieldsAt?, Template.fieldsAt?]
    cases inside : template.cases[index]? with
    | none => rfl
    | some dataCase =>
      rw [Option.map_some, Option.map_some, Option.getD_some, Option.getD_some, List.map_map]
      refine List.map_congr_left fun field member => ?_
      have params : template.paramVars.map label = template.paramVars :=
        (List.map_congr_left (fixed.params known)).trans (List.map_id _)
      rw [Function.comp_apply, Ty.relabel_instance injective, params,
        fixed.fields known dataCase (List.mem_of_getElem? inside) field member]

end Registry

end Definitions

/-- The second session is the first one under other numbers of the variables. What has been reported
is left open. -/
structure Session.Relabelled (label : TyVar → TyVar) (session session' : Session) : Prop where
  subst : session.subst.Relabelled label session'.subst
  registry : session'.registry = session.registry
  fixed : session.registry.Fixed label
  env : session'.env = session.env.relabel label
  names : session'.names = session.names
  options : session'.options = session.options

/-- Whether a check was stopped because something did not come to an end. -/
def ErrorCause.runsOut : ErrorCause → Bool
  | unfinished _ _ | endless | endlessCoverage => true
  | _ => false

namespace Check

variable {α β γ δ τ τ' : Type} {image : α → γ} {image' : β → δ}

/-- Checks of relabelled sessions match, unless one of them is stopped. -/
abbrev Mirrored (label : TyVar → TyVar) (image : α → γ) :
    EStateM.Result TypeError Session α → EStateM.Result TypeError Session γ → Prop :=
  Run.Matched (·.cause.runsOut = true) (Session.Relabelled label) image

def Completes (check : Check α) (session : Session) : Prop :=
  ∀ error after, check session = .error error after → error.cause.runsOut = false

namespace Completes

variable {check : Check α} {next : α → Check β} {session after : Session} {value : α}

theorem first (completes : Completes (check >>= next) session) : Completes check session :=
  fun error after run => completes error after (bind_eq_error.mpr (.inl run))

theorem rest (completes : Completes (check >>= next) session)
    (run : check session = .ok value after) : Completes (next value) after :=
  fun error last rest => completes error last (bind_eq_error.mpr (.inr ⟨value, after, run, rest⟩))

theorem guarded {cause : ErrorCause} {ends : Session → Bool} {span : Span} {next : Unit → Check β}
    (completes : Completes (ending cause ends span >>= next) session)
    (stops : cause.runsOut = true) :
    ends session = true ∧ Completes (next ()) session := by
  cases ended : ends session with
  | false =>
    have run : ending cause ends span session = .error ⟨cause, span⟩ session := by
      rw [ending_apply, ended, if_neg Bool.false_ne_true]
    exact absurd stops (Bool.eq_false_iff.mp (completes.first _ _ run))
  | true => exact ⟨rfl, completes.rest (by rw [ending_apply, ended, if_pos rfl])⟩

end Completes

/-- Two checks that match and are not stopped both succeed, or neither does. -/
theorem Mirrored.both {check : Check α} {check' : Check γ} {session session' : Session}
    (matched : Mirrored label image (check session) (check' session'))
    (completes : Completes check session)
    (completes' : Completes check' session') :
    (∃ value after after', check session = .ok value after ∧
      check' session' = .ok (image value) after' ∧ after.Relabelled label after') ∨
    (∀ value after, check session ≠ .ok value after) ∧ ∀ value after,
      check' session' ≠ .ok value after := by
  cases run : check session with
  | ok value after =>
    cases run' : check' session' with
    | ok value' after' =>
      rw [run, run'] at matched
      cases matched with
      | ok here => exact .inl ⟨value, after, after', rfl, rfl, here⟩
    | error error after' =>
      rw [run, run'] at matched
      cases matched with
      | stopped' stop => exact absurd stop (Bool.eq_false_iff.mp (completes' error after' run'))
  | error error after =>
    cases run' : check' session' with
    | ok value' after' =>
      rw [run, run'] at matched
      cases matched with
      | stopped stop => exact absurd stop (Bool.eq_false_iff.mp (completes error after run))
    | error error' after' => exact .inr ⟨nofun, nofun⟩

/-- Two checks that match from all relabelled sessions. -/
def Matches (label : TyVar → TyVar) (image : α → γ) (check : Check α) (check' : Check γ) : Prop :=
  ∀ session session', session.Relabelled label session' →
  Mirrored label image (check session) (check' session')

namespace Matches

variable {check : Check α} {check' : Check γ} {next : α → Check β} {next' : γ → Check δ}

theorem pure (value : α) : Matches label image (Pure.pure value) (Pure.pure (image value)) :=
  fun _ _ here => .ok here

theorem pure_of {value : α} {value' : γ} (same : value' = image value) :
    Matches label image (Pure.pure value) (Pure.pure value') := by
  rw [same]
  exact Matches.pure value

theorem throw (error error' : TypeError) : Matches label image (throw error)
    (MonadExcept.throw error') :=
  fun _ _ _ => .failed

theorem fail (cause cause' : ErrorCause) (span span' : Span) :
    Matches label image (Check.fail cause span) (Check.fail cause' span') :=
  .throw _ _

theorem bind (first : Matches label image check check')
    (then_ : ∀ value, Matches label image' (next value) (next' (image value))) :
    Matches label image' (check >>= next) (check' >>= next') :=
  fun _ _ here => (first _ _ here).bind fun {value _ _} there => then_ value _ _ there

theorem map {change : α → β} {change' : γ → δ} (first : Matches label image check check')
    (same : ∀ value, change' (image value) = image' (change value)) :
    Matches label image' (change <$> check) (change' <$> check') := by
  rw [map_eq_pure_bind, map_eq_pure_bind]
  exact first.bind fun value => .pure_of (same value)

theorem get {next : Session → Check β} {next' : Session → Check δ}
    (then_ : ∀ {session session'}, session.Relabelled label session' →
      Matches label image' (next session) (next' session')) :
    Matches label image' (MonadState.get >>= next) (MonadState.get >>= next') :=
  fun _ _ here => then_ here _ _ here

theorem ending {cause : ErrorCause} (stops : cause.runsOut = true) {ends ends' : Session → Bool}
    {span span' : Span} {next : Unit → Check β} {next' : Unit → Check δ}
    (then_ : ∀ {session session'}, session.Relabelled label session' → ends session = true →
      ends' session' = true → Mirrored label image' (next () session) (next' () session')) :
    Matches label image' (Check.ending cause ends span >>= next)
    (Check.ending cause ends' span' >>= next') := by
  intro session session' here
  rw [bind_apply, bind_apply, ending_apply, ending_apply]
  cases ended : ends session with
  | false => exact .of_stopped (by exact stops) _
  | true =>
    cases ended' : ends' session' with
    | false => exact .of_stopped' (by exact stops) _
    | true => exact then_ here ended ended'

theorem forM {items : List α} {visit : α → Check PUnit} {visit' : γ → Check PUnit}
    (each : ∀ item ∈ items, Matches label id (visit item) (visit' (image item))) :
    Matches label id (forM items visit) (forM (items.map image) visit') :=
  fun _ _ here => .forM (fun item member _ _ there => each item member _ _ there) here

theorem mapM {items : List α} {visit : α → Check β} {visit' : α → Check δ}
    (each : ∀ item, Matches label image' (visit item) (visit' item)) :
    Matches label (List.map image') (items.mapM visit) (items.mapM visit') := by
  induction items with
  | nil => exact .pure []
  | cons item items ih =>
    rw [List.mapM_cons, List.mapM_cons]
    exact (each item).bind fun value => ih.bind fun values => .pure (value :: values)

end Matches

section State

variable {own : τ} {own' : τ'} {carried : τ → τ'} {check : StateT τ Check α}
  {check' : StateT τ' Check γ}
  {next : α → StateT τ Check β} {next' : γ → StateT τ' Check δ} {run : Check α} {run' : Check γ}

/-- Two checks with states of their own, from corresponding ones. -/
abbrev StateMatches (label : TyVar → TyVar) (image : α → γ) (carried : τ → τ')
    (check : StateT τ Check α) (check' : StateT τ' Check γ) : Prop :=
  ∀ own, Matches label (Prod.map image carried) (check own) (check' (carried own))

namespace StateMatches

theorem pure (value : α) : StateMatches label image carried (Pure.pure value)
    (Pure.pure (image value)) :=
  fun own => Matches.pure (value, own)

theorem pure_of {value : α} {value' : γ} (same : value' = image value) :
    StateMatches label image carried (Pure.pure value) (Pure.pure value') := by
  rw [same]
  exact .pure value

theorem bind (first : StateMatches label image carried check check')
    (then_ : ∀ value, StateMatches label image' carried (next value) (next' (image value))) :
    StateMatches label image' carried (check >>= next) (check' >>= next') :=
  fun own => (first own).bind fun (value, own) => then_ value own

theorem lift (matched : Matches label image run run') :
    StateMatches label image carried (liftM run : StateT τ Check α)
    (liftM run' : StateT τ' Check γ) :=
  fun own => matched.bind fun value => .pure (value, own)

theorem get {next : τ → StateT τ Check β} {next' : τ' → StateT τ' Check δ}
    (then_ : ∀ own,
      Matches label (Prod.map image' carried) (next own own) (next' (carried own) (carried own))) :
    StateMatches label image' carried (MonadState.get >>= next) (MonadState.get >>= next') :=
  fun own => then_ own

theorem read {next : Session → StateT τ Check β} {next' : Session → StateT τ' Check δ}
    (then_ : ∀ {session session'}, session.Relabelled label session' →
      StateMatches label image' carried (next session) (next' session')) :
    StateMatches label image' carried
    ((liftM (MonadState.get : Check Session) : StateT τ Check Session) >>= next)
      ((liftM (MonadState.get : Check Session) : StateT τ' Check Session) >>= next') :=
  fun own _ _ here => then_ here own _ _ here

theorem replaced {kept : τ} {kept' : τ'} (same : kept' = carried kept) :
    StateMatches label id carried (set kept : StateT τ Check PUnit) (set kept') := by
  rw [same]
  exact fun _ => Matches.pure (PUnit.unit, kept)

theorem modified {change : τ → τ} {change' : τ' → τ'} {next : PUnit → StateT τ Check β}
    {next' : PUnit → StateT τ' Check δ} (same : ∀ own, change' (carried own) = carried (change own))
    (then_ : StateMatches label image' carried (next ⟨⟩) (next' ⟨⟩)) :
    StateMatches label image' carried (modify change >>= next) (modify change' >>= next') := by
  intro own session session' here
  change Mirrored label _ (next ⟨⟩ (change own) session) (next' ⟨⟩ (change' (carried own)) session')
  rw [same]
  exact then_ _ _ _ here

theorem mapM {items : List α} {visit : α → StateT τ Check β} {visit' : α → StateT τ' Check δ}
    (each : ∀ item, StateMatches label image' carried (visit item) (visit' item)) :
    StateMatches label (List.map image') carried (items.mapM visit) (items.mapM visit') := by
  induction items with
  | nil => exact .pure []
  | cons item items ih =>
    rw [List.mapM_cons, List.mapM_cons]
    exact (each item).bind fun value => ih.bind fun values => .pure (value :: values)

theorem forM {items : List α} {visit : α → StateT τ Check PUnit}
    {visit' : γ → StateT τ' Check PUnit}
    (each : ∀ item ∈ items, StateMatches label id carried (visit item) (visit' (image item))) :
    StateMatches label id carried (List.forM items visit) (List.forM (items.map image) visit') := by
  induction items with
  | nil => exact .pure ()
  | cons item items ih =>
    obtain ⟨first, rest⟩ := List.forall_mem_cons.mp each
    exact first.bind fun _ => ih rest

theorem dropped (matched : StateMatches label image carried check check') (own : τ) :
    Matches label image (check.run' own) (check'.run' (carried own)) :=
  (matched own).map fun _ => rfl

end StateMatches

end State

section Basic

theorem matches_onSubst {change : Subst → α × Subst} {change' : Subst → γ × Subst}
    (changed : ∀ {subst subst'}, subst.Relabelled label subst' →
      (change subst).2.Relabelled label (change' subst').2 ∧ (change' subst').1 = image
      (change subst).1) :
    Matches label image (onSubst change) (onSubst change') := by
  intro session session' here
  obtain ⟨there, same⟩ := changed here.subst
  change Mirrored label image (.ok _ _) (.ok _ _)
  rw [same]
  exact .ok ⟨there, here.registry, here.fixed, here.env, here.names, here.options⟩

theorem matches_freshVar : Matches label (Ty.relabel label) freshVar freshVar :=
  matches_onSubst fun here => (here.push Cell.isNew_unbound rfl).imp_right (congrArg Ty.var)

theorem matches_freshVars (count : Nat) : Matches label (List.map (Ty.relabel label))
    (freshVars count) (freshVars count) :=
  matches_onSubst fun here => (here.pushMany Cell.isNew_unbound rfl count).imp_right fun same => by
    dsimp only
    rw [Ty.relabel_vars, same]

theorem matches_mint (stem : String) : Matches label id (mint stem) (mint stem) := by
  intro session session' here
  change Mirrored label id (.ok _ _) (.ok _ _)
  rw [here.names]
  exact .ok ⟨here.subst, here.registry, here.fixed, here.env, rfl, here.options⟩

theorem matches_lookupCtor? (name : Name) : Matches label id (lookupCtor? name)
    (lookupCtor? name) :=
  .get fun here => .pure_of (by rw [here.registry, id])

theorem matches_intTy (width : Nat) : Matches label (Ty.relabel label) (intTy width)
    (intTy width) := by
  intro session session' here
  change Mirrored label _ (.ok _ _) (.ok _ _)
  rw [here.registry]
  exact .ok ⟨here.subst, rfl, here.fixed.intTemplate width, here.env, here.names, here.options⟩

theorem matches_unify (expected found : Ty) (span : Span) :
    Matches label id (unify expected found span)
    (unify (expected.relabel label) (found.relabel label) span) := by
  intro session session' here
  have matched := here.subst.unify expected found
  unfold unify
  cases run : Subst.unify expected found session.subst with
  | ok _ subst =>
    cases run' : Subst.unify (expected.relabel label) (found.relabel label) session'.subst with
    | ok _ subst' =>
      rw [run, run'] at matched
      cases matched with
      | ok there => exact .ok ⟨there, here.registry, here.fixed, here.env, here.names, here.options⟩
    | error error' subst' =>
      rw [run, run'] at matched
      cases matched with
      | stopped' stop =>
        subst stop
        exact .stopped' rfl
  | error error subst =>
    cases run' : Subst.unify (expected.relabel label) (found.relabel label) session'.subst with
    | ok _ subst' =>
      rw [run, run'] at matched
      cases matched with
      | stopped stop =>
        subst stop
        exact .stopped rfl
    | error error' subst' => exact .failed

theorem matches_inScope {check : Check α} {check' : Check γ}
    (matched : Matches label image check check') (bindings : List (Name × Scheme)) :
    Matches label image (inScope bindings check)
    (inScope (relabelBindings label bindings) check') := by
  intro session session' here
  have inside : { session with env := session.env.enter bindings }.Relabelled label
      { session' with env := session'.env.enter (relabelBindings label bindings) } :=
    ⟨here.subst, here.registry, here.fixed, by rw [here.env, Env.relabel_enter], here.names,
      here.options⟩
  have body := matched _ _ inside
  rw [inScope, inScope, ← Env.enter, ← Env.enter]
  cases run : check { session with env := session.env.enter bindings } with
  | ok value after =>
    cases run' :
      check' { session' with env := session'.env.enter (relabelBindings label bindings) } with
    | ok value' after' =>
      rw [run, run'] at body
      cases body with
      | ok there =>
        exact .ok ⟨there.subst, there.registry, there.fixed, by rw [there.env, Env.relabel_pop],
          there.names, there.options⟩
    | error error' after' =>
      rw [run, run'] at body
      cases body with
      | stopped' stop => exact .stopped' stop
  | error error after =>
    cases run' :
      check' { session' with env := session'.env.enter (relabelBindings label bindings) } with
    | ok value' after' =>
      rw [run, run'] at body
      cases body with
      | stopped stop => exact .stopped stop
    | error error' after' => exact .failed

theorem matches_distinct (what : NameKind) (names : List Name) (span : Span) :
    Matches label id (distinct what names span) (distinct what names span) := by
  unfold distinct
  split
  · exact .fail _ _ _ _
  · exact .pure _

theorem matches_literal (value : Literal) (span : Span) :
    Matches label (Prod.map id (Ty.relabel label)) (literal value span) (literal value span) := by
  unfold literal
  cases value with
  | bool value => exact .pure (_, Registry.boolTy)
  | int magnitude width =>
    refine .get fun {session session'} here => ?_
    rw [here.options]
    dsimp only
    cases intValue magnitude (width.getD session.options.defaultIntWidth) with
    | error fault => exact .fail _ _ _ _
    | ok number => exact (matches_intTy _).bind fun ty => .pure (_, ty)
  | str raw =>
    dsimp only
    cases Escape.decode raw with
    | error fault => exact .fail _ _ _ _
    | ok bytes => exact .pure (_, Registry.stringTy)

theorem matches_ctorInstance (info : CtorInfo) :
    Matches label (Prod.map (List.map (Ty.relabel label)) (Ty.relabel label)) (ctorInstance info)
    (ctorInstance info) := by
  refine .get fun {session session'} here => ?_
  rw [here.registry]
  refine (matches_freshVars _).bind fun args => .pure_of ?_
  rw [Prod.map, here.fixed.fieldsAt here.subst.injective, Ty.relabel, Ty.relabelAll_eq_map]

end Basic

end Check

def TypeBinding.relabel (label : TyVar → TyVar) (binding : TypeBinding) : TypeBinding :=
  { binding with var := label binding.var }

/-- The type variables in scope are other ones. -/
def Elaborator.relabel (label : TyVar → TyVar) (state : Elaborator) : Elaborator where
  kinds := state.kinds
  scope := state.scope.map (TypeBinding.relabel label)
  free := state.free.map (List.map (TypeBinding.relabel label))

def relabelKinded (label : TyVar → TyVar) : Ty × Kind → Ty × Kind := Prod.map (Ty.relabel label) id

namespace Elaborate

open Check

variable {α γ : Type} {image : α → γ}

/-- The reading of a type in corresponding states of an elaborator. -/
abbrev Matches (label : TyVar → TyVar) (image : α → γ) (read : Elaborate α)
    (read' : Elaborate γ) : Prop :=
  StateMatches label image (Elaborator.relabel label) read read'

theorem matches_fail (cause : ErrorCause) (span : Span) : Matches label image (fail cause span)
    (fail cause span) :=
  .lift (.fail _ _ _ _)

theorem matches_freshKind : Matches label id freshKind freshKind :=
  fun state => Check.Matches.pure (state.kinds.fresh.1, { state with kinds := state.kinds.fresh.2 })

theorem matches_expectKind (expected found : Kind) (span : Span) :
    Matches label id (expectKind expected found span) (expectKind expected found span) := by
  unfold expectKind
  refine .get fun state => ?_
  have same : (state.relabel label).kinds = state.kinds := rfl
  rw [same]
  obtain ⟨equal, kinds⟩ := state.kinds.unify expected found
  have kept : { state.relabel label with kinds } = Elaborator.relabel label { state with kinds } :=
    rfl
  refine (StateMatches.replaced kept).bind (fun _ => ?_) state
  cases equal with
  | true => exact .pure _
  | false => exact matches_fail _ _

theorem matches_expectStar (result : Ty × Kind) (span : Span) : Matches label (Ty.relabel label)
    (expectStar result span) (expectStar (relabelKinded label result) span) :=
  (matches_expectKind _ _ _).bind fun _ => .pure result.1

theorem matches_typeName (name : Name) (span : Span) :
    Matches label (relabelKinded label) (typeName name span) (typeName name span) := by
  refine .read fun {session session'} here => ?_
  dsimp only
  rw [here.registry]
  have named : ∀ id, (Ty.named id, Kind.star) = relabelKinded label (Ty.named id, Kind.star) :=
    fun _ => rfl
  cases known : session.registry.types.get? name with
  | none =>
    cases intWidth? name with
    | none => exact matches_fail _ _
    | some width =>
      exact (StateMatches.lift (matches_intTy width)).bind fun ty => .pure (ty, Kind.star)
  | some meaning =>
    cases meaning with
    | «synonym» ty kind =>
      refine .pure_of ?_
      rw [relabelKinded, Prod.map, here.fixed.aliases known]
      rfl
    | data id =>
      dsimp only
      cases declared : session.registry.template? id with
      | none => exact .pure_of (named id)
      | some template =>
        dsimp only
        split
        · exact .pure_of (named id)
        · have params : template.paramVars.map label = template.paramVars :=
            (List.map_congr_left (here.fixed.params declared)).trans (List.map_id _)
          refine .pure_of ?_
          rw [relabelKinded, Prod.map, Template.selfTy, Ty.relabel, Ty.relabel,
            Ty.relabelAll_eq_map, Ty.relabel_vars, params]
          rfl

theorem find?_relabel (bindings : List TypeBinding) (name : Name) :
    (bindings.map (TypeBinding.relabel label)).find? (·.name = name) =
      (bindings.find? (·.name = name)).map (TypeBinding.relabel label) := by
  rw [List.find?_map]
  rfl

theorem matches_typeVar (name : Name) (span : Span) :
    Matches label (relabelKinded label) (typeVar name span) (typeVar name span) := by
  refine .get fun state => ?_
  have scope : (state.relabel label).scope = state.scope.map (TypeBinding.relabel label) := rfl
  have free : (state.relabel label).free = state.free.map (List.map (TypeBinding.relabel label)) :=
    rfl
  rw [scope, free, find?_relabel]
  cases state.scope.find? (·.name = name) with
  | some binding => exact StateMatches.pure (Ty.var binding.var, binding.kind) state
  | none =>
    cases state.free with
    | none => exact matches_fail _ _ state
    | some free =>
      simp only [Option.map_none, Option.map_some]
      rw [find?_relabel]
      cases free.find? (·.name = name) with
      | some binding => exact StateMatches.pure (Ty.var binding.var, binding.kind) state
      | none =>
        have made : Check.Matches label label (onSubst Subst.fresh) (onSubst Subst.fresh) :=
          matches_onSubst fun here => here.push Cell.isNew_unbound rfl
        refine matches_freshKind.bind
          (fun kind => (StateMatches.lift made).bind fun var => ?_) state
        exact .modified (fun _ => rfl) (.pure (Ty.var var, kind))

theorem matches_bindParam (name : Name) : Matches label (Prod.map label id) (bindParam name)
    (bindParam name) := by
  have made : Check.Matches label label (onSubst (·.freshRigid name))
      (onSubst (·.freshRigid name)) :=
    matches_onSubst fun here => here.push (Cell.isNew_rigid _) rfl
  refine (StateMatches.lift made).bind fun var => matches_freshKind.bind fun kind => ?_
  exact .modified (fun _ => rfl) (.pure (var, kind))

theorem tupled (elems : List Ty) : (Ty.tuple (elems.map (Ty.relabel label)), Kind.star) =
    relabelKinded label (Ty.tuple elems, Kind.star) := by
  rw [relabelKinded, Prod.map, Ty.relabel, Ty.relabelAll_eq_map]
  rfl

mutual

theorem matches_type : ∀ written : Surface.TypeExpr, Matches label (relabelKinded label)
    (type written) (type written)
  | .name span name => matches_typeName name span
  | .var span name => matches_typeVar name span
  | .app span head args => by
    unfold type
    refine (matches_type head).bind fun (headTy, headKind) => (matches_types args).bind
      fun args => ?_
    refine matches_freshKind.bind fun result => ?_
    have kinds : (args.map (relabelKinded label)).map (·.2) = args.map (·.2) := by
      rw [List.map_map]
      rfl
    have types : (args.map (relabelKinded label)).map (·.1) = (args.map (·.1)).map
        (Ty.relabel label) := by
      rw [List.map_map, List.map_map]
      rfl
    simp only [kinds, types]
    refine (matches_expectKind _ _ _).bind fun _ => ?_
    intro state session session' here
    refine StateMatches.pure_of ?_ state session session' here
    rw [relabelKinded, Prod.map, Ty.relabel_apply here.subst.injective, id]
  | .arrow _ param result => by
    unfold type
    refine (matches_type param).bind fun _ => (matches_expectStar _ _).bind fun param => ?_
    refine (matches_type result).bind fun _ => (matches_expectStar _ _).bind fun result => ?_
    exact .pure (Ty.arrow param result, Kind.star)
  | .tuple _ [inner] => by
    unfold type
    exact matches_type inner
  | .tuple _ [] => by
    unfold type
    exact (matches_starTypes []).bind fun elems => .pure_of (tupled elems)
  | .tuple _ (first :: second :: rest) => by
    unfold type
    exact (matches_starTypes (first :: second :: rest)).bind fun elems => .pure_of (tupled elems)
  | .quantified span params body => by
    unfold type
    refine (StateMatches.lift (matches_distinct _ _ _)).bind fun _ => .get fun state => ?_
    refine ((StateMatches.mapM matches_bindParam).bind fun vars => (matches_type body).bind fun _ =>
      ?_) state
    refine (matches_expectStar _ _).bind fun body => ?_
    have vacant : (vars.map (Prod.map label id)).isEmpty = vars.isEmpty := by cases vars <;> rfl
    have binders : (vars.map (Prod.map label id)).map (·.1) = (vars.map (·.1)).map label := by
      rw [List.map_map, List.map_map]
      rfl
    rw [vacant, binders]
    refine .modified (fun _ => rfl) ?_
    split
    · exact .pure (body, Kind.star)
    · exact .pure (Ty.quantified (vars.map (·.1)) body, Kind.star)
  | .hole _ => by
    unfold type
    exact matches_freshKind.bind fun kind => (StateMatches.lift matches_freshVar).bind fun ty =>
      .pure (ty, kind)

theorem matches_types : ∀ written : List Surface.TypeExpr,
    Matches label (List.map (relabelKinded label)) (types written) (types written)
  | [] => by
    unfold types
    exact .pure []
  | written :: rest => by
    unfold types
    exact (matches_type written).bind
      fun first => (matches_types rest).bind fun rest => .pure (first :: rest)

theorem matches_starTypes : ∀ written : List Surface.TypeExpr,
    Matches label (List.map (Ty.relabel label)) (starTypes written) (starTypes written)
  | [] => by
    unfold starTypes
    exact .pure []
  | written :: rest => by
    unfold starTypes
    refine (matches_type written).bind fun _ => (matches_expectStar _ _).bind fun first => ?_
    exact (matches_starTypes rest).bind fun rest => .pure (first :: rest)

end

end Elaborate

theorem Check.matches_writtenType (written : Surface.TypeExpr) :
    Check.Matches label (Ty.relabel label) (Check.writtenType written)
    (Check.writtenType written) :=
  StateMatches.dropped ((Elaborate.matches_type written).bind fun _ => Elaborate.matches_expectStar
    _ _) .forUse

end PolyCheck
