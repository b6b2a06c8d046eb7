import PolyCheck.Proofs.Run
import PolyCheck.Proofs.Session.Scope
import PolyCheck.Proofs.Term.Renaming
import PolyCheck.Session.Declaration
import PolyCheck.Session.Warning

/-! Two runs side by side. The session of the second run mirrors that of the first: the names bound
inside the top level are other names, the names to be minted are later ones, and other findings are
reported. A check of the first run is followed by one of the second that leaves the sessions
mirrored and gives the mirrored answer. -/
namespace PolyCheck

open Run

section Environments

variable {naming : Renaming}

/-- A scope with other names for what it binds. -/
def Scope.rename (naming : Renaming) (scope : Scope) : Scope :=
  ⟨scope.entries.map fun (name, scheme) => (naming name, scheme)⟩

/-- Other names for what is bound inside the top level. -/
def Env.rename (naming : Renaming) (env : Env) : Env :=
  { env with inner := env.inner.map (Scope.rename naming) }

theorem Scope.get?_rename (distinct : Function.Injective naming) (scope : Scope) (name : Name) :
    (scope.rename naming).get? (naming name) = scope.get? name := by
  obtain ⟨entries⟩ := scope
  induction entries with
  | nil => rfl
  | cons entry entries ih =>
    obtain ⟨bound, scheme⟩ := entry
    change List.lookup (naming name) ((naming bound, scheme) :: _) =
      List.lookup name ((bound, scheme) :: _)
    rw [List.lookup_cons, List.lookup_cons]
    by_cases same : name = bound
    · rw [same, beq_self_eq_true, beq_self_eq_true]
    · rw [beq_false_of_ne same, beq_false_of_ne (distinct.ne same)]
      exact ih

theorem Scope.rename_insert (distinct : Function.Injective naming) (scope : Scope) (name : Name)
    (scheme : Scheme) :
    Scope.rename naming (scope.insert name scheme) = (scope.rename naming).insert
    (naming name) scheme := by
  obtain ⟨entries⟩ := scope
  refine congrArg Table.mk ?_
  change List.map _ (Table.insertEntry name scheme entries) = Table.insertEntry (naming name) scheme
    (List.map _ entries)
  induction entries with
  | nil => rfl
  | cons entry entries ih =>
    obtain ⟨bound, other⟩ := entry
    rw [List.map_cons, Table.insertEntry, Table.insertEntry]
    by_cases same : bound = name
    · rw [if_pos same, if_pos (congrArg naming same), List.map_cons]
    · rw [if_neg same, if_neg (distinct.ne same), List.map_cons, ih]

theorem Scope.values_rename (scope : Scope) : (scope.rename naming).values = scope.values := by
  rw [Table.values, Table.values, Scope.rename, List.map_map]
  rfl

namespace Env

theorem rename_enter (distinct : Function.Injective naming) (env : Env)
    (bindings : List (Name × Scheme)) : (env.enter bindings).rename naming =
      (env.rename naming).enter (bindings.map fun (name, scheme) => (naming name, scheme)) := by
  have scopes : ∀ (bindings : List (Name × Scheme)) (scope : Scope),
      (scopeOf scope bindings).rename naming =
        scopeOf (scope.rename naming) (bindings.map fun (name, scheme) =>
          (naming name, scheme)) := by
    intro bindings
    induction bindings with
    | nil => exact fun _ => rfl
    | cons binding bindings ih =>
      intro scope
      change Scope.rename naming (scopeOf (scope.insert binding.1 binding.2) bindings) = _
      rw [ih, Scope.rename_insert distinct]
      rfl
  rw [enter_eq, enter_eq, rename, rename, List.map_cons, scopes]
  rfl

theorem rename_pop (env : Env) : env.pop.2.rename naming = (env.rename naming).pop.2 := by
  obtain ⟨inner, globals⟩ := env
  cases inner <;> rfl

theorem depth_rename (env : Env) : (env.rename naming).depth = env.depth := by
  rw [depth, depth, rename, List.length_map]

/-- A name that stays the same is found in the scope where it was found. -/
theorem lookup?_rename (distinct : Function.Injective naming) (env : Env) {name : Name}
    (kept : naming name = name) : (env.rename naming).lookup? name = env.lookup? name := by
  have scopes : ∀ scope : Scope, (scope.rename naming).get? name = scope.get? name :=
      fun scope => by
    have found := scope.get?_rename distinct name
    rwa [kept] at found
  rw [lookup?, lookup?, rename, List.findSome?_map]
  exact congrArg (Option.or · _) (congrArg (List.findSome? · env.inner) (funext scopes))

theorem values_rename (env : Env) (depth : Nat) :
    (((env.rename naming).scopes.take depth).flatMap Table.values) =
      ((env.scopes.take depth).flatMap Table.values) := by
  have scopes : ∀ scopes : List Scope, (scopes.map (Scope.rename naming)).flatMap Table.values =
      scopes.flatMap Table.values := fun scopes => by
    rw [List.flatMap_map]
    exact congrArg (List.flatMap · scopes) (funext Scope.values_rename)
  cases depth with
  | zero => rfl
  | succ depth =>
    rw [Env.scopes, Env.scopes, List.take_succ_cons, List.take_succ_cons, List.flatMap_cons,
      List.flatMap_cons, rename, ← List.map_reverse, ← List.map_take, scopes]

theorem walkableBelow_rename (env : Env) (depth : Nat) (subst : Subst) :
    (env.rename naming).walkableBelow depth subst = env.walkableBelow depth subst := by
  rw [walkableBelow, walkableBelow, values_rename]

theorem freeVarsBelow_rename (env : Env) (depth : Nat) (subst : Subst) :
    (env.rename naming).freeVarsBelow depth subst = env.freeVarsBelow depth subst := by
  rw [freeVarsBelow, freeVarsBelow, values_rename]

theorem freeVars_rename (env : Env) (subst : Subst) :
    (env.rename naming).freeVars subst = env.freeVars subst := by
  rw [freeVars, freeVars, depth_rename, freeVarsBelow_rename]

end Env

end Environments

/-- What the second of two runs has in place of the first: names, a supply that has minted `shift`
names more, options, and findings. Findings that were there before stay, and of the later ones some
are left out. -/
structure Mirror where
  naming : Renaming
  distinct : Function.Injective naming
  shift : Nat
  options : Options
  options' : Options
  /-- Literals have the width they had. -/
  width : options'.defaultIntWidth = options.defaultIntWidth
  shows : Diagnostic → Bool
  warnings : ∀ subst registry cases ty span,
    Coverage.warnings options' subst registry cases ty span =
      (Coverage.warnings options subst registry cases ty span).filter shows
  /-- The second run searches for nothing that the first does not search for. -/
  searches : ∀ subst registry pats ty, Coverage.ends options subst registry pats ty = true →
    Coverage.ends options' subst registry pats ty = true
  /-- Why the first run may be refused if the second has to be refused as well. -/
  counts : ErrorCause → Prop
  refuses : counts .endlessCoverage → ∀ subst registry pats ty,
    Coverage.ends options' subst registry pats ty = true →
    Coverage.ends options subst registry pats ty = true
  /-- Findings of the first run from which on they count. -/
  since : Nat
  earlier : List Diagnostic

/-- The stems of the names that are minted when a unit is checked. -/
def checkStems : List String := ["a", "c"]

namespace Mirror

variable (mirror : Mirror) {α β γ δ τ : Type}

def session (session : Session) : Session where
  subst := session.subst
  registry := session.registry
  env := session.env.rename mirror.naming
  names := ⟨session.names.next + mirror.shift⟩
  options := mirror.options'
  pending := mirror.earlier ++ (session.pending.drop mirror.since).filter mirror.shows

structure Admits (session : Session) : Prop where
  options : session.options = mirror.options
  since : mirror.since ≤ session.pending.length

structure Leads (session after : Session) : Prop where
  names : session.names.next ≤ after.names.next
  admits : mirror.Admits after

/-- The names that are minted from one number up to another become the later ones. -/
def Shifts (first last : Nat) : Prop :=
  ∀ stem ∈ checkStems, ∀ number, first ≤ number → number < last →
    mirror.naming ("%" ++ stem ++ toString number) = "%" ++ stem ++ toString (number + mirror.shift)

variable {mirror}

theorem Shifts.narrow {first last first' last' : Nat} (shifts : mirror.Shifts first last)
    (above : first ≤ first') (below : last' ≤ last) : mirror.Shifts first' last' :=
  fun stem inChecks number after before =>
    shifts stem inChecks number (above.trans after) (Nat.lt_of_lt_of_le before below)

theorem Leads.refl {session : Session} (admits : mirror.Admits session) :
    mirror.Leads session session :=
  ⟨Nat.le_refl _, admits⟩

theorem Leads.trans {before middle after : Session} (first : mirror.Leads before middle)
    (second : mirror.Leads middle after) : mirror.Leads before after :=
  ⟨first.names.trans second.names, second.admits⟩

variable (mirror)

/-- The second run gives the mirrored answer in the mirrored session. The answer of the first is as
described. -/
def Follows (said : α → Prop) (image : α → β) (check : Check α) (check' : Check β) : Prop :=
  ∀ session, mirror.Admits session →
    match check session with
    | .ok value after => mirror.Leads session after ∧ said value ∧
        (mirror.Shifts session.names.next after.names.next →
          check' (mirror.session session) = .ok (image value) (mirror.session after))
    | .error error after => mirror.Leads session after ∧
        (mirror.counts error.cause → mirror.Shifts session.names.next after.names.next →
          check' (mirror.session session) = .error error (mirror.session after))

/-- Both runs do the same, with an answer as described. -/
abbrev Gives (said : α → Prop) (check : Check α) : Prop :=
  mirror.Follows said id check check

abbrev Fixes (check : Check α) : Prop :=
  mirror.Gives anything check

variable {mirror} {said : α → Prop} {said' : β → Prop} {image : α → γ} {image' : β → δ}
  {check : Check α} {check' : Check γ} {next : α → Check β} {next' : γ → Check δ}

namespace Follows

theorem pure {value : α} (holds : said value) :
    mirror.Follows said image (Pure.pure value) (Pure.pure (image value)) :=
  fun _ admits => ⟨.refl admits, holds, fun _ => rfl⟩

theorem throw (error : TypeError) : mirror.Follows said image (throw error)
    (MonadExcept.throw error) :=
  fun _ admits => ⟨.refl admits, fun _ _ => rfl⟩

theorem bind (first : mirror.Follows said image check check')
    (then_ : ∀ {value},
      said value → mirror.Follows said' image' (next value) (next' (image value))) :
    mirror.Follows said' image' (check >>= next) (check' >>= next') := by
  intro session admits
  have followed := first session admits
  rw [bind_apply, bind_apply]
  cases run : check session with
  | error error middle =>
    rw [run] at followed
    refine ⟨followed.1, fun counts shifts => ?_⟩
    rw [followed.2 counts shifts]
  | ok value middle =>
    rw [run] at followed
    obtain ⟨leads, holds, mirrored⟩ := followed
    have followed' := then_ holds middle leads.admits
    dsimp only
    cases run' : next value middle with
    | error error after =>
      rw [run'] at followed'
      refine ⟨leads.trans followed'.1, fun counts shifts => ?_⟩
      rw [mirrored (shifts.narrow (Nat.le_refl _) followed'.1.names)]
      exact followed'.2 counts (shifts.narrow leads.names (Nat.le_refl _))
    | ok value' after =>
      rw [run'] at followed'
      refine ⟨leads.trans followed'.1, followed'.2.1, fun shifts => ?_⟩
      rw [mirrored (shifts.narrow (Nat.le_refl _) followed'.1.names)]
      exact followed'.2.2 (shifts.narrow leads.names (Nat.le_refl _))

theorem map {change : α → β} {change' : γ → δ} (follows : mirror.Follows said image check check')
    (described : ∀ {value}, said value → said' (change value) ∧
      change' (image value) = image' (change value)) :
    mirror.Follows said' image' (change <$> check) (change' <$> check') := by
  rw [map_eq_pure_bind, map_eq_pure_bind]
  refine follows.bind fun holds => ?_
  rw [(described holds).2]
  exact .pure (described holds).1

theorem get {next : Session → Check β} {next' : Session → Check δ}
    (then_ : ∀ session, mirror.Admits session →
      mirror.Follows said' image' (next session) (next' (mirror.session session))) :
    mirror.Follows said' image' (MonadState.get >>= next) (MonadState.get >>= next') :=
  fun session admits => then_ session admits session admits

theorem forM {items : List α} {visit : α → Check PUnit}
    (visits : ∀ item ∈ items, mirror.Fixes (visit item)) : mirror.Fixes (forM items visit) := by
  induction items with
  | nil => exact .pure trivial
  | cons item items ih =>
    rw [List.forM_cons]
    exact (visits item List.mem_cons_self).bind fun _ =>
      ih fun other member => visits other (List.mem_cons_of_mem item member)

theorem mapM {items : List α} {visit : α → Check β}
    (visits : ∀ item ∈ items, mirror.Fixes (visit item)) : mirror.Fixes (items.mapM visit) := by
  induction items with
  | nil => exact .pure trivial
  | cons item items ih =>
    rw [List.mapM_cons]
    refine (visits item List.mem_cons_self).bind fun _ => ?_
    exact (ih fun other member => visits other (List.mem_cons_of_mem item member)).bind fun _ =>
      .pure trivial

end Follows

section State

variable {said : α × τ → Prop} {said' : β × τ → Prop} {check : StateT τ Check α}
  {next : α → StateT τ Check β} {own : τ} {run : Check α}

theorem Gives.state_bind (first : mirror.Gives said (check own))
    (then_ : ∀ {value own'}, said (value, own') → mirror.Gives said' (next value own')) :
    mirror.Gives said' ((check >>= next) own) :=
  Follows.bind first fun holds => then_ holds

theorem Gives.state_lift {said : α → Prop} (first : mirror.Gives said run)
    (then_ : ∀ {value}, said value → mirror.Gives said' (next value own)) :
    mirror.Gives said' (((liftM run : StateT τ Check α) >>= next) own) := by
  have flat : ((liftM run : StateT τ Check α) >>= next) own = run >>= fun value =>
      next value own := by
    funext session
    change ((run >>= fun value => Pure.pure (value, own)) >>= fun (value, own') => next value own')
      session = _
    rw [bind_apply, bind_apply, bind_apply]
    cases run session <;> rfl
  rw [flat]
  exact Follows.bind first then_

theorem Gives.state_lifted {said' : α → Prop} (first : mirror.Gives said' run)
    (described : ∀ {value}, said' value → said (value, own)) :
    mirror.Gives said ((liftM run : StateT τ Check α) own) :=
  Follows.bind first fun holds => .pure (described holds)

theorem Gives.state_pure {value : α} (holds : said (value, own)) :
    mirror.Gives said ((Pure.pure value : StateT τ Check α) own) :=
  Follows.pure holds

theorem Gives.state_throw (error : TypeError) :
    mirror.Gives said ((liftM (MonadExcept.throw error : Check α) : StateT τ Check α) own) :=
  fun _ admits => ⟨.refl admits, fun _ _ => rfl⟩

theorem Gives.state_get {next : Session → StateT τ Check β}
    (then_ : ∀ session, mirror.Admits session →
      mirror.Follows said' id (next session own) (next (mirror.session session) own)) :
    mirror.Gives said'
    (((liftM (MonadState.get : Check Session) : StateT τ Check Session) >>= next) own) :=
  fun session admits => then_ session admits session admits

theorem Gives.state_own {next : τ → StateT τ Check β} (then_ : mirror.Gives said' (next own own)) :
    mirror.Gives said' (((MonadState.get : StateT τ Check τ) >>= next) own) :=
  fun session admits => then_ session admits

theorem Gives.state_modify {change : τ → τ} {next : PUnit → StateT τ Check β}
    (then_ : mirror.Gives said' (next ⟨⟩ (change own))) :
    mirror.Gives said' (((modify change : StateT τ Check PUnit) >>= next) own) :=
  fun session admits => then_ session admits

theorem Gives.state_forM {items : List α} {visit : α → StateT τ Check PUnit} (held : τ → Prop)
    (holds : held own)
    (visits : ∀ item ∈ items, ∀ {own'},
      held own' → mirror.Gives (fun result => held result.2) (visit item own')) :
    mirror.Gives (fun result => held result.2) (List.forM items visit own) := by
  induction items generalizing own with
  | nil => exact Follows.pure holds
  | cons item items ih =>
    exact .state_bind (visits item List.mem_cons_self holds) fun holds =>
      ih holds fun other member => visits other (List.mem_cons_of_mem item member)

theorem Gives.state_mapM {items : List α} {visit : α → StateT τ Check β}
    (visits : ∀ item ∈ items, ∀ own', mirror.Fixes (visit item own')) :
    mirror.Fixes (items.mapM visit own) := by
  induction items generalizing own with
  | nil => exact Follows.pure trivial
  | cons item items ih =>
    rw [List.mapM_cons]
    refine .state_bind (visits item List.mem_cons_self own) fun _ => ?_
    refine .state_bind (ih fun other member => visits other (List.mem_cons_of_mem item member))
      fun _ => ?_
    exact .state_pure trivial

end State

end Mirror

end PolyCheck
