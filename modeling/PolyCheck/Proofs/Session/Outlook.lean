import PolyCheck.Proofs.Name
import PolyCheck.Proofs.Registry
import PolyCheck.Proofs.Session.Scope
import PolyCheck.Proofs.Term.Typing
import PolyCheck.Session

/-! What a check leaves to be said later. A check reads types off before later unifications refine
them, so what it promises is a statement about every later state in which the variables that only it
knows are left alone. Such promises can be put one after the other, survive a unification of their
own types, and pass out of a scope. -/
namespace PolyCheck

def Subst.Covers (subst : Subst) (types : List Ty) (ty : Ty) : Prop :=
  ty.FirstOrder subst.size ∧
    ∀ v ∈ (subst.zonk ty).leaves, ∃ other ∈ types, v ∈ (subst.zonk other).leaves

namespace Session

/-- Cells without cycles, schemes over dead variables and tables that agree with their definitions.
No name in scope is still to be minted for a parameter. -/
structure Sound (session : Session) : Prop where
  tame : session.subst.Tame
  env : session.env.Sound session.subst
  registry : session.registry.Coherent
  names : ∀ {name scheme}, session.env.lookup? name = some scheme → session.names.Past "a" name

/-- A check that ends in the scope where it began, and that spares what was dead. -/
structure Advance (before after : Session) : Prop where
  sound : after.Sound
  env : after.env = before.env
  names : before.names.next ≤ after.names.next
  later : before.subst.Extends after.subst
  spares : ∀ v, before.env.Dead before.subst v → Subst.Spares v before.subst after.subst
  registry : before.registry.Grows after.registry

variable {before middle after : Session} {v : TyVar} {ty : Ty} {types types' : List Ty}

theorem Sound.advance (sound : before.Sound) (env : after.env = before.env)
    (names : before.names.next ≤ after.names.next) (tame : after.subst.Tame)
    (later : before.subst.Extends after.subst)
    (spares : ∀ v, before.env.Dead before.subst v → Subst.Spares v before.subst after.subst)
    (coherent : after.registry.Coherent) (grows : before.registry.Grows after.registry) :
    before.Advance after where
  sound :=
    { tame
      env := by
        rw [env]
        exact sound.env.later sound.tame later.size_le spares
      registry := coherent
      names := fun found => (sound.names (env ▸ found)).mono names }
  env := env
  names := names
  later := later
  spares := spares
  registry := grows

theorem Sound.advance_refl (sound : before.Sound) : before.Advance before :=
  sound.advance rfl (Nat.le_refl _) sound.tame sound.tame.extends_refl
    (fun v _ => Subst.spares_refl v _) sound.registry (Registry.grows_refl _)

namespace Advance

theorem dead (advance : before.Advance after) (sound : before.Sound)
    (dead : before.env.Dead before.subst v) : after.env.Dead after.subst v := by
  rw [advance.env]
  exact dead.later sound.env sound.tame advance.later.size_le (advance.spares v dead)

theorem trans (first : before.Advance middle) (second : middle.Advance after)
    (sound : before.Sound) : before.Advance after where
  sound := second.sound
  env := second.env.trans first.env
  names := Nat.le_trans first.names second.names
  later := first.later.trans sound.tame second.later
  spares v dead :=
    (first.spares v dead).trans (second.spares v (first.dead sound dead)) first.later.size_le
  registry := first.registry.trans second.registry

/-- A type from before holds no variable that has come up since and that nothing in scope knows. -/
theorem not_mem_leaves (advance : before.Advance after) (sound : before.Sound)
    (plain : ty.FirstOrder before.subst.size) (dead : after.env.Dead after.subst v)
    (new : ¬ before.env.Dead before.subst v) : v ∉ (after.subst.zonk ty).leaves :=
  sound.env.not_mem_leaves sound.tame advance.sound.tame advance.later advance.spares plain
    (advance.env ▸ dead) new

end Advance

/-- A dead variable that has come up since, outside of some types. -/
def Private (before after : Session) (types : List Ty) (v : TyVar) : Prop :=
  after.env.Dead after.subst v ∧ ¬ before.env.Dead before.subst v ∧
    ∀ ty ∈ types, v ∉ (after.subst.zonk ty).leaves

/-- A later state that leaves alone what is private to a check with some types as its results, and a
context that has the names of the check and nothing that is private to it. -/
structure Outlook (before after : Session) (types : List Ty) (final : Subst) (registry : Registry)
    (context : Context) : Prop where
  tame : final.Tame
  later : after.subst.Extends final
  hidden : ∀ v, Private before after types v → Subst.Spares v after.subst final ∧ context.Closed v
  quantified : ∀ scheme ∈ after.env.schemes, ∀ v ∈ scheme.vars, Subst.Spares v after.subst final
  registry : after.registry.Grows registry
  context : ∀ {name scheme}, after.env.lookup? name = some scheme →
    context name = some (scheme.zonk final)

abbrev Claim := Subst → Registry → Context → Prop

/-- A check with some types as its results, and what it promises of every later state. -/
structure Yields (before after : Session) (types : List Ty) (claim : Claim) : Prop where
  advance : before.Advance after
  plain : ∀ ty ∈ types, ty.FirstOrder after.subst.size
  avoids : ∀ ty ∈ types, ∀ v, before.env.Dead before.subst v → v ∉ (after.subst.zonk ty).leaves
  holds : ∀ {final registry context}, Outlook before after types final registry context →
    claim final registry context

section Outlook

variable {before' : Session} {final : Subst} {registry : Registry} {context : Context}

theorem Outlook.mono (outlook : Outlook before after types final registry context)
    (fewer : ∀ v, Private before' after types' v → Private before after types v) :
    Outlook before' after types' final registry context :=
  ⟨outlook.tame, outlook.later, fun v hidden => outlook.hidden v (fewer v hidden),
    outlook.quantified, outlook.registry, outlook.context⟩

theorem Outlook.pull (outlook : Outlook before after types' final registry context)
    (tame : middle.subst.Tame) (env : after.env = middle.env)
    (later : middle.subst.Extends after.subst) (grows : middle.registry.Grows after.registry)
    (hidden : ∀ v, Private before middle types v →
      Subst.Spares v middle.subst after.subst ∧ Private before after types' v)
    (quantified : ∀ scheme ∈ middle.env.schemes, ∀ v ∈ scheme.vars,
      Subst.Spares v middle.subst after.subst) :
    Outlook before middle types final registry context where
  tame := outlook.tame
  later := later.trans tame outlook.later
  hidden v isHidden := by
    obtain ⟨spares, hidden'⟩ := hidden v isHidden
    obtain ⟨spares', closed⟩ := outlook.hidden v hidden'
    exact ⟨spares.trans spares' later.size_le, closed⟩
  quantified scheme member v inVars :=
    (quantified scheme member v inVars).trans (outlook.quantified scheme (env ▸ member) v inVars)
      later.size_le
  registry := grows.trans outlook.registry
  context found := outlook.context (env ▸ found)

end Outlook

theorem Sound.unified (sound : before.Sound) {left right : Ty} {span : Span}
    (plain : left.FirstOrder before.subst.size) (plain' : right.FirstOrder before.subst.size)
    (run : Check.unify left right span before = .ok () after) :
    ∃ subst, before.subst.Unified [(left, right)] subst ∧ after = { before with subst } := by
  obtain ⟨subst, equal, rfl⟩ := unify_eq_ok.mp run
  exact ⟨subst, sound.tame.unified_of_unify plain plain' equal, rfl⟩

namespace Yields

variable {claim claim' : Claim}

theorem refl (sound : before.Sound)
    (holds : ∀ final registry context, claim final registry context) :
    Yields before before [] claim where
  advance := sound.advance_refl
  plain := nofun
  avoids := nofun
  holds _ := holds _ _ _

section Append

variable {entered : Session}

theorem plain_append (first : Yields before middle types claim)
    (second : Yields entered after types' claim')
    (same : entered.subst = middle.subst) : ∀ ty ∈ types ++ types',
      ty.FirstOrder after.subst.size := by
  intro ty member
  rcases List.mem_append.mp member with inFirst | inSecond
  · exact (first.plain ty inFirst).mono (same ▸ second.advance.later.size_le)
  · exact second.plain ty inSecond

theorem avoids_append (first : Yields before middle types claim)
    (second : Yields entered after types' claim')
    (same : entered.subst = middle.subst) (dead : entered.env.Dead entered.subst v)
    (outside : ∀ ty ∈ types, v ∉ (middle.subst.zonk ty).leaves) :
    ∀ ty ∈ types ++ types', v ∉ (after.subst.zonk ty).leaves := by
  intro ty member
  rcases List.mem_append.mp member with inFirst | inSecond
  · have plain := first.plain ty inFirst
    have outside := outside ty inFirst
    rw [← same] at plain outside
    exact (second.advance.spares v dead).avoids plain outside
  · exact second.avoids ty inSecond v dead

theorem private_append (first : Yields before middle types claim)
    (second : Yields entered after types' claim')
    (same : entered.subst = middle.subst) (sound : entered.Sound)
    (hidden : Private entered after types' v) :
    ∀ ty ∈ types ++ types', v ∉ (after.subst.zonk ty).leaves := by
  obtain ⟨dead, new, outside⟩ := hidden
  intro ty member
  rcases List.mem_append.mp member with inFirst | inSecond
  · exact second.advance.not_mem_leaves sound (same ▸ first.plain ty inFirst) dead new
  · exact outside ty inSecond

end Append

theorem seq (first : Yields before middle types claim) (second : Yields middle after types' claim')
    (sound : before.Sound) :
    Yields before after (types ++ types') fun final registry context =>
      claim final registry context ∧ claim' final registry context := by
  have sound' := first.advance.sound
  refine ⟨first.advance.trans second.advance sound, first.plain_append second rfl,
    fun ty member v dead => ?_, fun outlook => ⟨first.holds ?_, second.holds ?_⟩⟩
  · exact first.avoids_append second rfl (first.advance.dead sound dead)
      (fun ty inFirst => first.avoids ty inFirst v dead) ty member
  · refine outlook.pull sound'.tame second.advance.env second.advance.later second.advance.registry
      (fun v ⟨dead, new, outside⟩ => ?_) fun scheme member v inVars => ?_
    · exact ⟨second.advance.spares v dead, second.advance.dead sound' dead, new,
        first.avoids_append second rfl dead outside⟩
    · exact second.advance.spares v (sound'.env.dead scheme member v inVars)
  · refine outlook.mono fun v hidden => ⟨hidden.1, fun old => hidden.2.1 ?_, ?_⟩
    · exact first.advance.dead sound old
    · exact first.private_append second rfl sound' hidden

theorem narrow (yields : Yields before after types claim)
    (covered : ∀ ty ∈ types', after.subst.Covers types ty)
    (then_ : ∀ {final registry context}, Outlook before after types' final registry context →
      claim final registry context → claim' final registry context) :
    Yields before after types' claim' where
  advance := yields.advance
  plain ty member := (covered ty member).1
  avoids ty member v dead inside := by
    obtain ⟨other, known, inOther⟩ := (covered ty member).2 v inside
    exact yields.avoids other known v dead inOther
  holds outlook := by
    refine then_ outlook (yields.holds (outlook.mono fun v ⟨dead, new, outside⟩ => ?_))
    refine ⟨dead, new, fun ty member inside => ?_⟩
    obtain ⟨other, known, inOther⟩ := (covered ty member).2 v inside
    exact outside other known inOther

theorem imp (yields : Yields before after types claim)
    (then_ : ∀ {final registry context}, Outlook before after types final registry context →
      claim final registry context → claim' final registry context) :
    Yields before after types claim' :=
  yields.narrow (fun ty member => ⟨yields.plain ty member, fun _ inside => ⟨ty, member, inside⟩⟩)
    then_

theorem unify (yields : Yields before middle types claim) (sound : before.Sound) {left right : Ty}
    {span : Span} (covers : middle.subst.Covers types left)
    (covers' : middle.subst.Covers types right)
    (run : Check.unify left right span middle = .ok () after) :
    Yields before after types fun final registry context =>
      claim final registry context ∧ final.zonk left = final.zonk right := by
  obtain ⟨subst, unified, rfl⟩ := yields.advance.sound.unified covers.1 covers'.1 run
  have sound' := yields.advance.sound
  have spares : ∀ v, (∀ ty ∈ types, v ∉ (middle.subst.zonk ty).leaves) →
      Subst.Spares v middle.subst subst := by
    intro v outside
    refine unified.spares (fun inside => ?_) fun inside => ?_
    · obtain ⟨ty, member, inTy⟩ := covers.2 v inside
      exact outside ty member inTy
    · obtain ⟨ty, member, inTy⟩ := covers'.2 v inside
      exact outside ty member inTy
  have old : ∀ v, before.env.Dead before.subst v → Subst.Spares v middle.subst subst :=
    fun v dead => spares v fun ty member => yields.avoids ty member v dead
  refine ⟨sound.advance yields.advance.env yields.advance.names unified.tame
    (yields.advance.later.trans sound.tame unified.later) (fun v dead => ?_) sound'.registry
    yields.advance.registry, fun ty member => ?_, fun ty member v dead => ?_,
      fun outlook => ⟨?_, ?_⟩⟩
  · exact (yields.advance.spares v dead).trans (old v dead) yields.advance.later.size_le
  · exact (yields.plain ty member).mono unified.later.size_le
  · exact (old v dead).avoids (yields.plain ty member) (yields.avoids ty member v dead)
  · refine yields.holds (outlook.pull sound'.tame rfl unified.later (Registry.grows_refl _)
      (fun v ⟨dead, new, outside⟩ => ⟨spares v outside, ?_, new, fun ty member => ?_⟩)
      fun scheme member v inVars => ?_)
    · exact dead.later sound'.env sound'.tame unified.later.size_le (spares v outside)
    · exact (spares v outside).avoids (yields.plain ty member) (outside ty member)
    · refine old v (sound.env.dead scheme ?_ v inVars)
      rwa [← yields.advance.env]
  · have equal := unified.equal (left, right) (List.mem_singleton_self _)
    have size := unified.later.size_le
    rw [← outlook.later.resolved (covers.1.mono size), equal,
      outlook.later.resolved (covers'.1.mono size)]

end Yields

section Scopes

variable {bindings : List (Name × Scheme)} {claim claim' : Claim}

/-- Names that may come into scope: their types are over the live variables and those of the
results, and what they quantify over is private. -/
structure MayEnter (before middle : Session) (types : List Ty) (bindings : List (Name × Scheme)) :
    Prop where
  plain : ∀ name scheme, (name, scheme) ∈ bindings → scheme.ty.FirstOrder middle.subst.size
  free : ∀ name scheme, (name, scheme) ∈ bindings → ∀ v ∈ (middle.subst.zonk scheme.ty).leaves,
    v ∉ scheme.vars → middle.env.Live middle.subst v ∨
      ∃ ty ∈ types, v ∈ (middle.subst.zonk ty).leaves
  quantified : ∀ name scheme, (name, scheme) ∈ bindings → ∀ v ∈ scheme.vars,
    Private before middle types v
  names : ∀ name scheme, (name, scheme) ∈ bindings → middle.names.Past "a" name

theorem Yields.opens_monos (yields : Yields before middle types claim) {captures : List (Name × Ty)}
    (among : ∀ capture ∈ captures, capture.2 ∈ types)
    (names : ∀ capture ∈ captures, middle.names.Past "a" capture.1) :
    MayEnter before middle types (Scheme.monos captures) := by
  have back : ∀ {name scheme}, (name, scheme) ∈ Scheme.monos captures →
      ∃ ty, (name, ty) ∈ captures ∧ scheme = .mono ty := by
    intro name scheme member
    obtain ⟨⟨other, ty⟩, inside, same⟩ := List.mem_map.mp member
    obtain ⟨rfl, rfl⟩ := Prod.mk.inj same
    exact ⟨ty, inside, rfl⟩
  refine ⟨fun name scheme member => ?_, fun name scheme member v inside _ => ?_,
    fun name scheme member v inVars => ?_, fun name scheme member => ?_⟩
  all_goals obtain ⟨ty, inCaptures, rfl⟩ := back member
  · exact yields.plain ty (among (name, ty) inCaptures)
  · exact .inr ⟨ty, among (name, ty) inCaptures, inside⟩
  · simp [Scheme.mono] at inVars
  · exact names (name, ty) inCaptures

theorem MayEnter.dead (opens : MayEnter before middle types bindings)
    (dead : middle.env.Dead middle.subst v)
    (outside : ∀ ty ∈ types, v ∉ (middle.subst.zonk ty).leaves) :
    (middle.env.enter bindings).Dead middle.subst v := by
  refine dead.enter fun name scheme member inside => ?_
  by_contra free
  rcases opens.free name scheme member v inside free with live | ⟨ty, known, inTy⟩
  · exact dead.2 live
  · exact outside ty known inTy

theorem MayEnter.sound (opens : MayEnter before middle types bindings) (sound : before.Sound)
    (yields : Yields before middle types claim) :
    Sound { middle with env := middle.env.enter bindings } where
  tame := yields.advance.sound.tame
  env := by
    refine ⟨fun scheme member => ?_, fun scheme member v inVars => ?_⟩
    · rcases Env.mem_schemes_enter member with outer | ⟨name, bound⟩
      · exact yields.advance.sound.env.plain scheme outer
      · exact opens.plain name scheme bound
    · rcases Env.mem_schemes_enter member with outer | ⟨name, bound⟩
      · refine opens.dead (yields.advance.sound.env.dead scheme outer v inVars) fun ty inTypes => ?_
        exact yields.avoids ty inTypes v
          (sound.env.dead scheme (yields.advance.env ▸ outer) v inVars)
      · obtain ⟨dead, -, outside⟩ := opens.quantified name scheme bound v inVars
        exact opens.dead dead outside
  registry := yields.advance.sound.registry
  names := by
    intro name scheme found
    rw [Env.lookup?_enter] at found
    rcases Option.or_eq_some_iff.mp found with bound | ⟨-, outer⟩
    · obtain ⟨first, rest, split, -⟩ := List.lookup_eq_some_iff.mp bound
      refine opens.names name scheme (List.mem_reverse.mp ?_)
      rw [split]
      simp
    · exact yields.advance.sound.names outer

def resolvedBindings (final : Subst) (bindings : List (Name × Scheme)) : List (Name × Scheme) :=
  bindings.map fun (name, scheme) => (name, scheme.zonk final)

theorem lookup_resolvedBindings (final : Subst) (bindings : List (Name × Scheme)) (name : Name) :
    (resolvedBindings final bindings).reverse.lookup name =
      (bindings.reverse.lookup name).map (·.zonk final) := by
  rw [resolvedBindings, ← List.map_reverse]
  generalize bindings.reverse = entries
  induction entries with
  | nil => rfl
  | cons entry entries ih =>
    obtain ⟨other, scheme⟩ := entry
    by_cases same : name = other
    · simp [same]
    · simp [List.lookup, beq_false_of_ne same, ih]

section Scope

variable {final : Subst} {registry : Registry} {context : Context}

theorem MayEnter.dead_inside (opens : MayEnter before middle types bindings) (sound : before.Sound)
    (outer : Yields before middle types claim) (dead : before.env.Dead before.subst v) :
    (middle.env.enter bindings).Dead middle.subst v :=
  opens.dead (outer.advance.dead sound dead) fun ty member => outer.avoids ty member v dead

/-- What is dead inside of a scope stays dead in it, and is dead when the scope is left. -/
theorem Yields.dead_left
    (inner : Yields { middle with env := middle.env.enter bindings } after types' claim')
    (sound : Sound { middle with env := middle.env.enter bindings })
    (dead : (middle.env.enter bindings).Dead middle.subst v) : middle.env.Dead after.subst v := by
  have dead := inner.advance.dead sound dead
  rw [inner.advance.env] at dead
  exact Env.dead_of_enter dead

theorem Yields.outlook_around (outer : Yields before middle types claim) (sound : before.Sound)
    (opens : MayEnter before middle types bindings)
    (inner : Yields { middle with env := middle.env.enter bindings } after types' claim')
    (outlook : Outlook before { after with env := middle.env } (types ++ types') final
      registry context) :
    Outlook before middle types final registry context := by
  have soundIn := opens.sound sound outer
  refine outlook.pull outer.advance.sound.tame rfl inner.advance.later inner.advance.registry
    (fun v ⟨dead, new, outside⟩ => ?_) fun scheme member v inVars => ?_
  · have inside := opens.dead dead outside
    have apart := outer.avoids_append inner rfl inside outside
    exact ⟨inner.advance.spares v inside, inner.dead_left soundIn inside, new, apart⟩
  · exact inner.advance.spares v
      (soundIn.env.dead scheme (Env.schemes_subset_enter member) v inVars)

/-- The later state seen from the end of a scope, where its names are known as they will be
resolved. -/
theorem Yields.outlook_inside (outer : Yields before middle types claim) (sound : before.Sound)
    (opens : MayEnter before middle types bindings)
    (inner : Yields { middle with env := middle.env.enter bindings } after types' claim')
    (outlook : Outlook before { after with env := middle.env } (types ++ types') final
      registry context) :
    Outlook { middle with env := middle.env.enter bindings } after types' final registry
      (context.extend (resolvedBindings final bindings)) := by
  have soundIn := opens.sound sound outer
  have env : after.env = middle.env.enter bindings := inner.advance.env
  have hidden : ∀ v, Private { middle with env := middle.env.enter bindings } after types' v →
      Private before { after with env := middle.env } (types ++ types') v := by
    intro v isHidden
    have apart := outer.private_append inner rfl soundIn isHidden
    obtain ⟨dead, new, -⟩ := isHidden
    exact ⟨Env.dead_of_enter (env ▸ dead),
      fun dead' => new (opens.dead_inside sound outer dead'), apart⟩
  refine ⟨outlook.tame, outlook.later, fun v isHidden => ?_, fun scheme member v inVars => ?_,
    outlook.registry, fun {name scheme} found => ?_⟩
  · obtain ⟨spares, closed⟩ := outlook.hidden v (hidden v isHidden)
    refine ⟨spares, fun name scheme known inside => ?_⟩
    rw [Context.extend, lookup_resolvedBindings] at known
    rcases Option.or_eq_some_iff.mp known with bound | ⟨-, outside⟩
    · obtain ⟨source, found, rfl⟩ := Option.map_eq_some_iff.mp bound
      have member : source ∈ after.env.schemes := by
        rw [env]
        exact Env.mem_schemes_of_lookup? (by rw [Env.lookup?_enter, found]; rfl)
      by_contra free
      refine spares.avoids (inner.advance.sound.env.plain source member) (fun inBefore => ?_) inside
      exact isHidden.1.2 ⟨source, member, inBefore, free⟩
    · exact closed name scheme outside inside
  · rw [env] at member
    rcases Env.mem_schemes_enter member with known | ⟨name, bound⟩
    · exact outlook.quantified scheme known v inVars
    · obtain ⟨dead, new, outside⟩ := opens.quantified name scheme bound v inVars
      have inside := opens.dead dead outside
      have apart := outer.avoids_append inner rfl inside outside
      exact (outlook.hidden v ⟨inner.dead_left soundIn inside, new, apart⟩).1
  · rw [env, Env.lookup?_enter] at found
    rw [Context.extend, lookup_resolvedBindings]
    cases bound : bindings.reverse.lookup name with
    | some source =>
      rw [bound, Option.some_or] at found
      rw [Option.map_some, Option.some_or, Option.some.inj found]
    | none =>
      rw [bound, Option.none_or] at found
      rw [Option.map_none, Option.none_or]
      exact outlook.context found

theorem Yields.inScope (outer : Yields before middle types claim) (sound : before.Sound)
    (opens : MayEnter before middle types bindings)
    (inner : Yields { middle with env := middle.env.enter bindings } after types' claim') :
    Yields before { after with env := after.env.pop.2 } (types ++ types')
      fun final registry context => claim final registry context ∧
        claim' final registry (context.extend (resolvedBindings final bindings)) := by
  have advance := inner.advance
  have left : after.env.pop.2 = middle.env := by
    rw [advance.env]
    exact Env.pop_enter _ _
  have plain := outer.plain_append inner rfl
  rw [left]
  refine ⟨sound.advance outer.advance.env (Nat.le_trans outer.advance.names advance.names)
    advance.sound.tame (outer.advance.later.trans sound.tame advance.later) (fun v dead => ?_)
    advance.sound.registry (outer.advance.registry.trans advance.registry), plain,
    fun ty member v dead => ?_, fun outlook => ⟨?_, ?_⟩⟩
  · exact (outer.advance.spares v dead).trans
      (advance.spares v (opens.dead_inside sound outer dead)) outer.advance.later.size_le
  · have apart :=
        outer.avoids_append inner rfl (opens.dead_inside sound outer dead) fun ty inFirst =>
      outer.avoids ty inFirst v dead
    exact apart ty member
  · exact outer.holds (outer.outlook_around sound opens inner outlook)
  · exact inner.holds (outer.outlook_inside sound opens inner outlook)

end Scope

end Scopes

end Session

end PolyCheck
