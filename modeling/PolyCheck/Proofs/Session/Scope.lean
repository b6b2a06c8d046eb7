import PolyCheck.Proofs.Subst.Sparing
import PolyCheck.Session

/-! Variables that the names in scope depend on. A variable is live when it is free in the type of
some name, in whatever scope; an unsolved variable that is not live is dead. As long as dead
variables are spared they stay dead, and so do the quantified variables of every scheme. -/
namespace PolyCheck

namespace Env

variable {env : Env} {subst after : Subst} {v : TyVar} {scheme : Scheme} {name : Name}
  {bindings : List (Name × Scheme)}

section Scopes

/-- The schemes of all names, also of the hidden ones. -/
def schemes (env : Env) : List Scheme := env.scopes.flatMap Table.values

theorem mem_schemes : scheme ∈ env.schemes ↔
    scheme ∈ env.globals.values ∨ ∃ scope ∈ env.inner, scheme ∈ scope.values := by
  simp [schemes, scopes]

def enter (env : Env) (bindings : List (Name × Scheme)) : Env :=
  bindings.foldl (fun env (name, scheme) => env.bind name scheme) env.push

def scopeOf (scope : Scope) (bindings : List (Name × Scheme)) : Scope :=
  bindings.foldl (fun scope (name, scheme) => scope.insert name scheme) scope

theorem enter_eq (env : Env) (bindings : List (Name × Scheme)) :
    env.enter bindings = { env with inner := scopeOf .empty bindings :: env.inner } := by
  have go : ∀ (bindings : List (Name × Scheme)) (scope : Scope),
      bindings.foldl (fun (env : Env) (name, scheme) => env.bind name scheme)
          { env with inner := scope :: env.inner } =
        { env with inner := scopeOf scope bindings :: env.inner } := by
    intro bindings
    induction bindings with
    | nil => exact fun _ => rfl
    | cons binding bindings ih => exact fun scope => ih (scope.insert binding.1 binding.2)
  exact go bindings .empty

theorem pop_enter (env : Env) (bindings : List (Name × Scheme)) :
    (env.enter bindings).pop.2 = env := by
  rw [enter_eq]
  rfl

theorem get?_scopeOf (scope : Scope) (bindings : List (Name × Scheme)) (name : Name) :
    (scopeOf scope bindings).get? name = (bindings.reverse.lookup name).or (scope.get? name) := by
  induction bindings generalizing scope with
  | nil => rfl
  | cons binding bindings ih =>
    obtain ⟨bound, scheme⟩ := binding
    change (scopeOf (scope.insert bound scheme) bindings).get? name = _
    rw [ih, Table.get?_insert, List.reverse_cons, List.lookup_append]
    cases bindings.reverse.lookup name with
    | some found => rfl
    | none =>
      by_cases same : name = bound
      · simp [same]
      · simp [List.lookup, same, beq_false_of_ne same]

theorem lookup?_enter (env : Env) (bindings : List (Name × Scheme)) (name : Name) :
    (env.enter bindings).lookup? name = (bindings.reverse.lookup name).or (env.lookup? name) := by
  rw [enter_eq, lookup?, List.findSome?_cons, get?_scopeOf]
  cases bindings.reverse.lookup name with
  | some found => rfl
  | none => rfl

theorem mem_insertEntry {entries : List (Name × Scheme)} {entry : Name × Scheme}
    (member : entry ∈ Table.insertEntry name scheme entries) :
    entry = (name, scheme) ∨ entry ∈ entries := by
  induction entries with
  | nil => simpa [Table.insertEntry] using member
  | cons first rest ih =>
    rw [Table.insertEntry] at member
    split at member
    · exact (List.mem_cons.mp member).imp_right (List.mem_cons_of_mem first)
    · rcases List.mem_cons.mp member with rfl | member
      · exact .inr List.mem_cons_self
      · exact (ih member).imp_right (List.mem_cons_of_mem first)

theorem mem_values_scopeOf {scope : Scope} (member : scheme ∈ (scopeOf scope bindings).values) :
    scheme ∈ scope.values ∨ ∃ name, (name, scheme) ∈ bindings := by
  induction bindings generalizing scope with
  | nil => exact .inl member
  | cons binding bindings ih =>
    rcases ih member with inScope | ⟨name, inside⟩
    · obtain ⟨entry, inEntries, rfl⟩ := List.mem_map.mp inScope
      rcases mem_insertEntry inEntries with rfl | old
      · exact .inr ⟨binding.1, List.mem_cons_self⟩
      · exact .inl (List.mem_map_of_mem old)
    · exact .inr ⟨name, List.mem_cons_of_mem binding inside⟩

theorem mem_schemes_enter (member : scheme ∈ (env.enter bindings).schemes) :
    scheme ∈ env.schemes ∨ ∃ name, (name, scheme) ∈ bindings := by
  rw [enter_eq, mem_schemes] at member
  rw [mem_schemes]
  rcases member with inGlobals | ⟨scope, inScopes, inside⟩
  · exact .inl (.inl inGlobals)
  · rcases List.mem_cons.mp inScopes with rfl | outer
    · rcases mem_values_scopeOf inside with none | found
      · simp [Table.values, Table.empty] at none
      · exact .inr found
    · exact .inl (.inr ⟨scope, outer, inside⟩)

theorem forall_mem_schemes_enter {holds : Scheme → Prop}
    (outer : ∀ scheme ∈ env.schemes, holds scheme)
    (each : ∀ binding ∈ bindings, holds binding.2) : ∀ scheme ∈ (env.enter bindings).schemes,
      holds scheme := by
  intro scheme member
  rcases mem_schemes_enter member with known | ⟨name, inside⟩
  · exact outer scheme known
  · exact each _ inside

theorem schemes_subset_enter (member : scheme ∈ env.schemes) :
    scheme ∈ (env.enter bindings).schemes := by
  rw [enter_eq, mem_schemes]
  exact (mem_schemes.mp member).imp_right fun ⟨scope, outer, inside⟩ =>
    ⟨scope, List.mem_cons_of_mem _ outer, inside⟩

theorem mem_values_of_get? {scope : Scope} (found : scope.get? name = some scheme) :
    scheme ∈ scope.values := by
  obtain ⟨before, rest, entries, -⟩ := List.lookup_eq_some_iff.mp found
  rw [Table.values, entries]
  simp

theorem mem_schemes_of_lookup? (found : env.lookup? name = some scheme) : scheme ∈ env.schemes := by
  rw [mem_schemes]
  rcases Option.or_eq_some_iff.mp found with found | ⟨-, found⟩
  · obtain ⟨scope, inScopes, inside⟩ := List.exists_of_findSome?_eq_some found
    exact .inr ⟨scope, inScopes, mem_values_of_get? inside⟩
  · exact .inl (mem_values_of_get? found)

end Scopes

section Variables

/-- A variable that is free in the type of some name. -/
def Live (env : Env) (subst : Subst) (v : TyVar) : Prop :=
  ∃ scheme ∈ env.schemes, v ∈ (subst.zonk scheme.ty).leaves ∧ v ∉ scheme.vars

def Dead (env : Env) (subst : Subst) (v : TyVar) : Prop :=
  subst.Unsolved v ∧ ¬ env.Live subst v

/-- First-order schemes that quantify over dead variables. -/
structure Sound (env : Env) (subst : Subst) : Prop where
  plain : ∀ scheme ∈ env.schemes, scheme.ty.FirstOrder subst.size
  dead : ∀ scheme ∈ env.schemes, ∀ v ∈ scheme.vars, env.Dead subst v

theorem live_enter (live : env.Live subst v) : (env.enter bindings).Live subst v := by
  obtain ⟨scheme, member, free⟩ := live
  exact ⟨scheme, schemes_subset_enter member, free⟩

theorem dead_of_enter (dead : (env.enter bindings).Dead subst v) : env.Dead subst v :=
  ⟨dead.1, fun live => dead.2 (live_enter live)⟩

/-- Further names keep a variable dead if they do not depend on it. -/
theorem Dead.enter (dead : env.Dead subst v) (absent : ∀ name scheme, (name, scheme) ∈ bindings →
    v ∈ (subst.zonk scheme.ty).leaves → v ∈ scheme.vars) : (env.enter bindings).Dead subst v := by
  refine ⟨dead.1, fun ⟨scheme, member, inside, free⟩ => ?_⟩
  rcases mem_schemes_enter member with outer | ⟨name, bound⟩
  · exact dead.2 ⟨scheme, outer, inside, free⟩
  · exact free (absent name scheme bound inside)

theorem Dead.later (dead : env.Dead subst v) (sound : env.Sound subst) (tame : subst.Tame)
    (size_le : subst.size ≤ after.size) (spares : Subst.Spares v subst after) :
    env.Dead after v := by
  refine ⟨dead.1.of_cell tame size_le spares.cell, fun ⟨scheme, member, inside, free⟩ => ?_⟩
  have absent : v ∉ (subst.zonk scheme.ty).leaves := fun before =>
    dead.2 ⟨scheme, member, before, free⟩
  exact spares.avoids (sound.plain scheme member) absent inside

theorem Sound.later (sound : env.Sound subst) (tame : subst.Tame)
    (size_le : subst.size ≤ after.size)
    (spares : ∀ v, env.Dead subst v → Subst.Spares v subst after) : env.Sound after where
  plain scheme member := (sound.plain scheme member).mono size_le
  dead scheme member v quantified :=
    have dead := sound.dead scheme member v quantified
    dead.later sound tame size_le (spares v dead)

/-- A variable that is taken up by an earlier type was dead already, or has become live. -/
theorem Sound.not_mem_leaves (sound : env.Sound subst) (tame : subst.Tame) (tame' : after.Tame)
    (later : subst.Extends after)
    (spares : ∀ v, env.Dead subst v → Subst.Spares v subst after) {ty : Ty}
    (plain : ty.FirstOrder subst.size) (dead : env.Dead after v) (new : ¬ env.Dead subst v) :
    v ∉ (after.zonk ty).leaves := by
  intro member
  obtain ⟨w, inBefore, inAfter⟩ := (later.mem_leaves tame tame' plain).mp member
  by_cases live : env.Live subst w
  · obtain ⟨scheme, known, inside, free⟩ := live
    have inScheme : v ∈ (after.zonk scheme.ty).leaves :=
      (later.mem_leaves tame tame' (sound.plain scheme known)).mpr ⟨w, inside, inAfter⟩
    by_cases quantified : v ∈ scheme.vars
    · exact new (sound.dead scheme known v quantified)
    · exact dead.2 ⟨scheme, known, inScheme, quantified⟩
  · have unsolved := tame.unsolved_of_mem plain inBefore
    have still := unsolved.of_cell tame later.size_le (spares w ⟨unsolved, live⟩).cell
    rw [tame'.zonk_var_of_unsolved still, Ty.leaves, List.mem_singleton] at inAfter
    exact new (inAfter ▸ ⟨unsolved, live⟩)

end Variables

section FreeVars

theorem mem_freeVars_scheme (tame : subst.Tame) (plain : scheme.ty.FirstOrder subst.size) :
    v ∈ scheme.freeVars subst ↔ v ∈ (subst.zonk scheme.ty).leaves ∧ v ∉ scheme.vars := by
  simp [Scheme.freeVars, tame.mem_freeVars plain]

theorem take_scopes_enter (env : Env) (bindings : List (Name × Scheme)) :
    (env.enter bindings).scopes.take env.depth = env.scopes := by
  rw [enter_eq, scopes, scopes, depth, List.reverse_cons, List.take_succ_cons]
  simp

theorem freeVarsBelow_enter (env : Env) (bindings : List (Name × Scheme)) (subst : Subst) :
    (env.enter bindings).freeVarsBelow env.depth subst = env.freeVars subst := by
  have all : env.scopes.take env.depth = env.scopes :=
    List.take_of_length_le (by simp [scopes, depth])
  rw [freeVars, freeVarsBelow, freeVarsBelow, take_scopes_enter, all]

theorem mem_freeVars_of_scopes {outer : Env} (same : outer.scopes.take env.depth = env.scopes)
    (tame : subst.Tame) (sound : env.Sound subst) :
    v ∈ outer.freeVarsBelow env.depth subst ↔ env.Live subst v := by
  rw [freeVarsBelow, same, List.mem_eraseDups, List.mem_flatMap]
  constructor
  · rintro ⟨scheme, member, inside⟩
    exact ⟨scheme, member, (mem_freeVars_scheme tame (sound.plain scheme member)).mp inside⟩
  · rintro ⟨scheme, member, inside⟩
    exact ⟨scheme, member, (mem_freeVars_scheme tame (sound.plain scheme member)).mpr inside⟩

/-- The variables that are held fixed around a recursive group, or any other one, are the live
ones. -/
theorem mem_freeVarsBelow_enter (tame : subst.Tame) (sound : env.Sound subst) :
    v ∈ (env.enter bindings).freeVarsBelow env.depth subst ↔ env.Live subst v :=
  mem_freeVars_of_scopes (take_scopes_enter env bindings) tame sound

theorem mem_freeVarsBelow (tame : subst.Tame) (sound : env.Sound subst) :
    v ∈ env.freeVarsBelow env.depth subst ↔ env.Live subst v := by
  refine mem_freeVars_of_scopes (List.take_of_length_le ?_) tame sound
  simp [scopes, depth]

/-- The walks through the scopes end when their schemes are first-order. -/
theorem Sound.walkableBelow (sound : env.Sound subst) (tame : subst.Tame) (depth : Nat) :
    env.walkableBelow depth subst = true := by
  refine List.all_eq_true.mpr fun scheme member => tame.isSome_freeVars? (sound.plain scheme ?_)
  obtain ⟨scope, taken, inside⟩ := List.mem_flatMap.mp member
  exact List.mem_flatMap.mpr ⟨scope, List.mem_of_mem_take taken, inside⟩

end FreeVars

end Env

theorem Session.unify_eq_ok {before after : Session} {expected found : Ty} {span : Span}
    {value : Unit} : Check.unify expected found span before = .ok value after ↔
      ∃ subst, Subst.unify expected found before.subst = .ok () subst ∧
        after = { before with subst } := by
  rw [Check.unify]
  cases Subst.unify expected found before.subst with
  | ok _ subst =>
    constructor
    · intro run
      obtain ⟨-, rfl⟩ := EStateM.Result.ok.inj run
      exact ⟨subst, rfl, rfl⟩
    · rintro ⟨subst', same, rfl⟩
      obtain ⟨-, rfl⟩ := EStateM.Result.ok.inj same
      rfl
  | error error subst => simp

theorem Session.inScope_eq_ok {before after : Session} {bindings : List (Name × Scheme)}
    {α : Type} {body : Check α} {value : α} :
    Check.inScope bindings body before = .ok value after ↔
      ∃ inside, body { before with env := before.env.enter bindings } = .ok value inside ∧
        after = { inside with env := inside.env.pop.2 } := by
  rw [Check.inScope, ← Env.enter]
  cases body { before with env := before.env.enter bindings } with
  | ok found inside =>
    constructor
    · intro run
      obtain ⟨rfl, rfl⟩ := EStateM.Result.ok.inj run
      exact ⟨inside, rfl, rfl⟩
    · rintro ⟨inside', same, rfl⟩
      obtain ⟨rfl, rfl⟩ := EStateM.Result.ok.inj same
      rfl
  | error error inside => simp

end PolyCheck
