import PolyCheck.Proofs.Session.Declarations
import PolyCheck.Proofs.Session.Expressions
import PolyCheck.Proofs.Session.Rollback
import PolyCheck.Proofs.Term.Stability

/-! What is accepted is well typed. Between two units every name has a closed scheme, so no variable
is live and whatever is unsolved stays so. A unit of values is checked in such a session; its terms,
as they are resolved in the end, follow the rules, and the names that it defines have closed schemes
again. -/
namespace PolyCheck

/-- A checked unit that follows the rules for terms. -/
def CheckedDecl.Typed (subst : Subst) (registry : Registry) (context : Context) : CheckedDecl → Prop
  | .define recursive definitions =>
    Definition.TypedAll subst registry context recursive definitions
  | .eval term => Term.Typed subst registry context term
  | .data _ => True
  | .synonym _ => True

section Later

variable {subst final : Subst} {registry registry' : Registry} {context : Context}

theorem Definition.TypedAll.later {recursive : Bool} {definitions : List Definition}
    (typed : Definition.TypedAll subst registry context recursive definitions)
    (size_le : subst.size ≤ final.size) (unsolved : ∀ v, subst.Unsolved v → final.Unsolved v)
    (grows : registry.Grows registry') :
    Definition.TypedAll final registry' context recursive definitions where
  named := typed.named
  values definition member := (typed.values definition member).later size_le unsolved grows
  types := typed.types
  general := typed.general

theorem CheckedDecl.Typed.later {checked : CheckedDecl}
    (typed : checked.Typed subst registry context)
    (size_le : subst.size ≤ final.size) (unsolved : ∀ v, subst.Unsolved v → final.Unsolved v)
    (grows : registry.Grows registry') : checked.Typed final registry' context := by
  cases checked with
  | data _ => trivial
  | «synonym» _ => trivial
  | define recursive definitions => exact Definition.TypedAll.later typed size_le unsolved grows
  | eval term => exact Term.Typed.later typed size_le unsolved grows

end Later

namespace Env

variable {env : Env} {subst : Subst} {scheme : Scheme}

def define (env : Env) (bindings : List (Name × Scheme)) : Env :=
  { env with globals := scopeOf env.globals bindings }

theorem foldl_bindGlobal (env : Env) (definitions : List Definition) :
    definitions.foldl (fun env definition => env.bindGlobal definition.name definition.scheme) env =
      env.define (Definition.schemes definitions) := by
  induction definitions generalizing env with
  | nil => rfl
  | cons definition definitions ih =>
    rw [List.foldl_cons, ih]
    rfl

theorem mem_schemes_define {bindings : List (Name × Scheme)}
    (member : scheme ∈ (env.define bindings).schemes) :
    scheme ∈ env.schemes ∨ ∃ name, (name, scheme) ∈ bindings := by
  rcases mem_schemes.mp member with inGlobals | inner
  · rcases mem_values_scopeOf inGlobals with old | new
    · exact .inl (mem_schemes.mpr (.inl old))
    · exact .inr new
  · exact .inl (mem_schemes.mpr (.inr inner))

theorem forall_mem_schemes_bindGlobal {holds : Scheme → Prop} {definitions : List Definition}
    (old : ∀ scheme ∈ env.schemes, holds scheme)
    (new : ∀ definition ∈ definitions, holds definition.scheme) :
    ∀ scheme ∈ (definitions.foldl
      (fun env definition => env.bindGlobal definition.name definition.scheme) env).schemes,
      holds scheme := by
  intro scheme member
  rw [foldl_bindGlobal] at member
  rcases mem_schemes_define member with outer | ⟨name, inside⟩
  · exact old scheme outer
  · obtain ⟨definition, defined, same⟩ := List.mem_map.mp inside
    obtain ⟨-, rfl⟩ := Prod.mk.inj same
    exact new definition defined

/-- Every variable in the type of a name is quantified. -/
def Closed (env : Env) : Prop := ∀ scheme ∈ env.schemes, ∀ v ∈ scheme.ty.leaves, v ∈ scheme.vars

theorem Closed.zonk_ty (closed : env.Closed) (sound : env.Sound subst) (tame : subst.Tame)
    (member : scheme ∈ env.schemes) : subst.zonk scheme.ty = scheme.ty := by
  have plain := sound.plain scheme member
  rw [tame.zonk_eq_under plain]
  refine plain.under_fixed fun v inLeaves => tame.zonk_var_of_unsolved ?_
  exact (sound.dead scheme member v (closed scheme member v inLeaves)).1

theorem Closed.not_live (closed : env.Closed) (sound : env.Sound subst) (tame : subst.Tame)
    (v : TyVar) : ¬ env.Live subst v := by
  rintro ⟨scheme, member, inside, free⟩
  rw [closed.zonk_ty sound tame member] at inside
  exact free (closed scheme member v inside)

end Env

namespace Session

open Run Check

variable {options : Options} {first session after : Session} {written : Surface.Decl}
  {checked : CheckedDecl}

/-- Sessions after units without annotations, refused ones included, as long as the fields of every
data type are first-order types over its parameters. -/
inductive Units (first : Session) : Session → Prop where
  | refl : Units first first
  | accepted {session after : Session} {written : Surface.Decl} {checked : CheckedDecl}
    (before : Units first session) (bare : written.Bare)
    (result : Check.decl written session = .ok checked after) (plain : after.registry.Plain) :
    Units first after
  | refused {session after : Session} {written : Surface.Decl} {error : TypeError}
    (before : Units first session) (result : Check.decl written session = .error error after) :
    Units first after

structure AtTop (session : Session) : Prop where
  sound : session.Sound
  outer : session.env.inner = []
  closed : session.env.Closed
  settled : session.Settled

/-- What is unsolved or defined in a session stays so. -/
structure Later (session after : Session) : Prop where
  size_le : session.subst.size ≤ after.subst.size
  unsolved : ∀ v, session.subst.Unsolved v → after.subst.Unsolved v
  registry : session.registry.Grows after.registry

theorem later_refl (session : Session) : session.Later session :=
  ⟨Nat.le_refl _, fun _ => id, Registry.grows_refl _⟩

theorem Later.trans {middle : Session} (earlier : session.Later middle)
    (later : middle.Later after) : session.Later after where
  size_le := Nat.le_trans earlier.size_le later.size_le
  unsolved v unsolved := later.unsolved v (earlier.unsolved v unsolved)
  registry := earlier.registry.trans later.registry

section Start

theorem coherent_initial : Registry.initial.Coherent where
  bool := ⟨Registry.boolId, .ofBuiltin "bool" .bool, rfl, rfl, rfl⟩
  str := ⟨Registry.stringId, .ofBuiltin "string" .str, rfl, rfl, rfl⟩
  int entry := by cases entry
  ctor entry := by cases entry
  plain := by
    intro id template known dataCase member
    obtain ⟨name, builtin, rfl⟩ := Registry.template?_initial known
    cases member

theorem sound_empty (subst : Subst) : Env.empty.Sound subst where
  plain _ member := by cases member
  dead _ member := by cases member

theorem atTop_start (options : Options) : (Session.start options).AtTop where
  sound :=
    { tame := Subst.tame_empty
      env := sound_empty _
      registry := coherent_initial
      names := fun found => by cases found }
  outer := rfl
  closed scheme member := by cases member
  settled := settled_start options

end Start

section Unit

/-- The session that a unit leads to when its cells and tables are settled. -/
def settled (reached : Session) (checked : CheckedDecl) : Session :=
  { reached with
    env := reached.env.define (Definition.schemes checked.definitions)
    registry := reached.registry.commit
    subst := reached.subst.commit }

theorem decl_eq_ok (accepted : Check.decl written session = .ok checked after) :
    ∃ found reached, Check.unit written (opened session) = .ok found reached ∧
      checked = found.zonk reached.subst ∧ after = reached.settled checked := by
  obtain ⟨found, reached, run, same, rfl⟩ := exists_unit_of_ok accepted
  refine ⟨found, reached, run, same, ?_⟩
  rw [Env.foldl_bindGlobal, settled]

theorem names_of_refused {error : TypeError}
    (failed : Check.decl written session = .error error after) :
    session.names.next ≤ after.names.next := by
  obtain ⟨reached, run, rfl⟩ := exists_unit_of_error failed
  exact (undoable_of_error run).names

theorem Sound.advance_opened (sound : session.Sound) : session.Advance (opened session) :=
  sound.advance_grown rfl (Nat.le_refl _) (sound.tame.grown_of_cells rfl)
    (sound.registry.of_tables rfl rfl rfl) (Registry.grows_refl _)

structure Reaches (session reached : Session) (found : CheckedDecl) : Prop where
  advance : (opened session).Advance reached
  opens : MayEnter (opened session) reached [] (Definition.schemes found.definitions)
  typed : (found.zonk reached.subst).Typed reached.subst reached.registry session.env.lookup?

theorem opens_nil (before after : Session) (types : List Ty) : MayEnter before after types [] :=
  ⟨nofun, nofun, nofun, nofun⟩

theorem mem_schemes_zonk {found : CheckedDecl} {subst : Subst} {name : Name} {scheme : Scheme}
    (member : (name, scheme) ∈ Definition.schemes (found.zonk subst).definitions) :
    ∃ source, (name, source) ∈ Definition.schemes found.definitions ∧
      scheme = source.zonk subst := by
  cases found with
  | data _ => cases member
  | «synonym» _ => cases member
  | eval _ => cases member
  | define recursive definitions =>
    rw [CheckedDecl.zonk, CheckedDecl.definitions, Term.zonkDefinitions_eq_map, Definition.schemes,
      List.map_map] at member
    obtain ⟨definition, inside, same⟩ := List.mem_map.mp member
    obtain ⟨rfl, rfl⟩ := Prod.mk.inj same
    exact ⟨definition.scheme, List.mem_map_of_mem inside, rfl⟩

theorem AtTop.outlook (atTop : session.AtTop) {reached : Session} {types : List Ty}
    (advance : (opened session).Advance reached) :
    Outlook (opened session) reached types reached.subst reached.registry session.env.lookup? := by
  have env : reached.env = session.env := advance.env
  have sound : session.env.Sound reached.subst := env ▸ advance.sound.env
  refine ⟨advance.sound.tame, advance.sound.tame.extends_refl,
    fun v _ => ⟨Subst.spares_refl v _, fun name scheme found inside => ?_⟩,
    fun _ _ v _ => Subst.spares_refl v _, Registry.grows_refl _, fun {name scheme} found => ?_⟩
  · exact atTop.closed scheme (Env.mem_schemes_of_lookup? found) v inside
  · rw [env] at found
    rw [found, Scheme.zonk,
      atTop.closed.zonk_ty sound advance.sound.tame (Env.mem_schemes_of_lookup? found)]

theorem AtTop.reaches_define (atTop : session.AtTop) {bindings : List Surface.Binding}
    (bare : Surface.Expr.BareBindings bindings) {recursive : Bool} {definitions : List Definition}
    {reached : Session}
    (run : Check.group recursive bindings (opened session) = .ok definitions reached) :
    Reaches session reached (.define recursive definitions) := by
  obtain ⟨spelled, unannotated⟩ := written_of_bareBindings bare
  obtain ⟨opens, yields⟩ := yields_groupWith (yields_inferValues bindings bare)
    atTop.sound.advance_opened.sound spelled unannotated run
  exact ⟨yields.advance, opens, yields.holds (atTop.outlook yields.advance)⟩

theorem AtTop.reaches_eval (atTop : session.AtTop) {expr : Surface.Expr} (bare : expr.Bare)
    {term : Term} {reached : Session} (run : Check.infer expr (opened session) = .ok term reached) :
    Reaches session reached (.eval term) := by
  have yields := yields_infer expr bare atTop.sound.advance_opened.sound run
  exact ⟨yields.advance, opens_nil _ _ _, yields.holds (atTop.outlook yields.advance)⟩

theorem AtTop.reaches (atTop : session.AtTop) (bare : written.Bare) {reached : Session}
    {found : CheckedDecl} (run : Check.unit written (opened session) = .ok found reached)
    (plain : reached.registry.Plain) : Reaches session reached found := by
  have sound := atTop.sound.advance_opened.sound
  cases written with
  | data span types =>
    obtain ⟨ids, middle, here, finish⟩ := bind_eq_ok.mp run
    obtain ⟨rfl, rfl⟩ := pure_eq_ok.mp finish
    exact ⟨sound.advance_data here plain, opens_nil _ _ _, trivial⟩
  | «synonym» span name params body =>
    obtain ⟨⟨⟩, middle, here, finish⟩ := bind_eq_ok.mp run
    obtain ⟨rfl, rfl⟩ := pure_eq_ok.mp finish
    exact ⟨sound.advance_synonym here plain, opens_nil _ _ _, trivial⟩
  | define span recursive bindings =>
    obtain ⟨definitions, middle, here, finish⟩ := bind_eq_ok.mp run
    obtain ⟨rfl, rfl⟩ := pure_eq_ok.mp finish
    exact atTop.reaches_define bare here
  | eval span expr =>
    obtain ⟨term, middle, here, finish⟩ := bind_eq_ok.mp run
    obtain ⟨rfl, rfl⟩ := pure_eq_ok.mp finish
    exact atTop.reaches_eval bare here

structure Follows (session after : Session) (checked : CheckedDecl) : Prop where
  atTop : after.AtTop
  later : session.Later after
  typed : checked.Typed after.subst after.registry session.env.lookup?

theorem AtTop.later_of_advance (atTop : session.AtTop) {reached : Session}
    (advance : session.Advance reached) : session.Later reached := by
  refine ⟨advance.later.size_le, fun v unsolved => ?_, advance.registry⟩
  have dead : session.env.Dead session.subst v :=
    ⟨unsolved, atTop.closed.not_live atTop.sound.env atTop.sound.tame v⟩
  exact unsolved.of_cell atTop.sound.tame advance.later.size_le (advance.spares v dead).cell

/-- The names that a unit defines are closed, since nothing around it is live. -/
theorem Reaches.closed (atTop : session.AtTop) {reached : Session} {found : CheckedDecl}
    (reaches : Reaches session reached found) :
    (reached.env.define
      (Definition.schemes (found.zonk reached.subst).definitions)).Closed := by
  have env : reached.env = session.env := reaches.advance.env
  have closed : reached.env.Closed := env ▸ atTop.closed
  intro scheme member v inside
  rcases Env.mem_schemes_define member with old | ⟨name, new⟩
  · exact closed scheme old v inside
  · obtain ⟨source, inSource, rfl⟩ := mem_schemes_zonk new
    by_contra free
    rcases reaches.opens.free name source inSource v inside free with live | ⟨ty, none, -⟩
    · exact closed.not_live reaches.advance.sound.env reaches.advance.sound.tame v live
    · cases none

theorem Reaches.sound (atTop : session.AtTop) {reached : Session} {found : CheckedDecl}
    (reaches : Reaches session reached found) :
    Sound { reached with
      env := reached.env.define (Definition.schemes (found.zonk reached.subst).definitions) } := by
  have sound := reaches.advance.sound
  have closed := reaches.closed atTop
  have plain : ∀ scheme ∈ (reached.env.define
      (Definition.schemes (found.zonk reached.subst).definitions)).schemes,
      scheme.ty.FirstOrder reached.subst.size ∧ ∀ v ∈ scheme.vars, reached.subst.Unsolved v := by
    intro scheme member
    rcases Env.mem_schemes_define member with old | ⟨name, new⟩
    · exact ⟨sound.env.plain scheme old,
        fun v quantified => (sound.env.dead scheme old v quantified).1⟩
    · obtain ⟨source, inSource, rfl⟩ := mem_schemes_zonk new
      refine ⟨sound.tame.zonk_firstOrder (reaches.opens.plain name source inSource),
        fun v quantified => ?_⟩
      exact (reaches.opens.quantified name source inSource v quantified).1.1
  refine ⟨sound.tame,
    ⟨fun scheme member => (plain scheme member).1, fun scheme member v quantified => ?_⟩,
    sound.registry, fun {name scheme} found' => ?_⟩
  · refine ⟨(plain scheme member).2 v quantified, ?_⟩
    rintro ⟨other, inOther, inside, free⟩
    -- A closed type of unsolved variables is resolved as it is.
    have fixed : reached.subst.zonk other.ty = other.ty := by
      rw [sound.tame.zonk_eq_under (plain other inOther).1]
      refine (plain other inOther).1.under_fixed fun w inLeaves => ?_
      exact sound.tame.zonk_var_of_unsolved
        ((plain other inOther).2 w (closed other inOther w inLeaves))
    rw [fixed] at inside
    exact free (closed other inOther v inside)
  · have inner : reached.env.inner = [] :=
      (congrArg Env.inner reaches.advance.env).trans atTop.outer
    rw [Env.lookup?, Env.define, inner, List.findSome?_nil, Option.none_or,
      Env.get?_scopeOf] at found'
    rcases Option.or_eq_some_iff.mp found' with new | ⟨-, old⟩
    · obtain ⟨before, rest, split, -⟩ := List.lookup_eq_some_iff.mp new
      have member : (name, scheme) ∈ Definition.schemes (found.zonk reached.subst).definitions := by
        rw [← List.mem_reverse, split]
        simp
      obtain ⟨source, inSource, rfl⟩ := mem_schemes_zonk member
      exact reaches.opens.names name source inSource
    · have known : reached.env.lookup? name = some scheme := by
        rw [Env.lookup?, inner, List.findSome?_nil, Option.none_or]
        exact old
      exact sound.names known

theorem Reaches.follows (atTop : session.AtTop) {reached : Session} {found : CheckedDecl}
    (reaches : Reaches session reached found)
    (isSettled : (reached.settled (found.zonk reached.subst)).Settled) :
    Follows session (reached.settled (found.zonk reached.subst)) (found.zonk reached.subst) := by
  have sound := reaches.sound atTop
  have grown : reached.subst.Grown reached.subst.commit := sound.tame.grown_of_cells rfl
  have settles : Advance _ (reached.settled (found.zonk reached.subst)) :=
    sound.advance_grown rfl (Nat.le_refl _) grown (sound.registry.of_tables rfl rfl rfl)
      (Registry.grows_refl _)
  have unsolved : ∀ v, reached.subst.Unsolved v → reached.subst.commit.Unsolved v :=
    fun v unsolved => unsolved.of_cell sound.tame grown.size_le (grown.cells unsolved.1)
  have later := atTop.later_of_advance
    (atTop.sound.advance_opened.trans reaches.advance atTop.sound)
  refine ⟨⟨settles.sound, ?_, reaches.closed atTop, isSettled⟩, ?_, ?_⟩
  · exact (congrArg Env.inner reaches.advance.env).trans atTop.outer
  · exact later.trans ⟨grown.size_le, unsolved, Registry.grows_refl _⟩
  · exact CheckedDecl.Typed.later reaches.typed grown.size_le unsolved (Registry.grows_refl _)

theorem AtTop.follows (atTop : session.AtTop) (bare : written.Bare)
    (accepted : Check.decl written session = .ok checked after) (plain : after.registry.Plain) :
    Follows session after checked := by
  have isSettled := atTop.settled.decl accepted
  obtain ⟨found, reached, run, rfl, rfl⟩ := decl_eq_ok accepted
  exact (atTop.reaches bare run (plain.of_templates rfl)).follows atTop isSettled

theorem AtTop.refused (atTop : session.AtTop) {error : TypeError}
    (failed : Check.decl written session = .error error after) :
    after.AtTop ∧ session.Later after := by
  have names := names_of_refused failed
  have restored := atTop.settled.restored failed
  have settled := atTop.settled
  generalize after.names = minted at names restored
  generalize after.pending = pending at restored
  subst restored
  refine ⟨⟨⟨atTop.sound.tame, atTop.sound.env, atTop.sound.registry, fun found =>
    (atTop.sound.names found).mono names⟩, atTop.outer, atTop.closed, ?_⟩, Nat.le_refl _,
      fun _ => id,
    Registry.grows_refl _⟩
  exact ⟨settled.substOpened, settled.substJournal, settled.registryOpened, settled.registryJournal⟩

end Unit

theorem Units.atTop (units : Units first session) (start : first.AtTop) :
    session.AtTop ∧ first.Later session := by
  induction units with
  | refl => exact ⟨start, later_refl first⟩
  | accepted _ bare result plain ih =>
    have follows := ih.1.follows bare result plain
    exact ⟨follows.atTop, ih.2.trans follows.later⟩
  | refused _ result ih =>
    obtain ⟨atTop, later⟩ := ih.1.refused result
    exact ⟨atTop, ih.2.trans later⟩

/-- In every session of units without annotations, an accepted unit of values, as it is resolved,
follows the rules in the scope of the session. -/
theorem accepted_unit_typed (units : Units (Session.start options) session) (bare : written.Bare)
    (accepted : Check.decl written session = .ok checked after) :
    checked.Typed after.subst after.registry session.env.lookup? := by
  obtain ⟨atTop, -⟩ := units.atTop (atTop_start options)
  have isSettled := atTop.settled.decl accepted
  obtain ⟨found, reached, run, rfl, rfl⟩ := decl_eq_ok accepted
  cases written with
  | data span types =>
    obtain ⟨ids, middle, -, finish⟩ := bind_eq_ok.mp run
    obtain ⟨rfl, rfl⟩ := pure_eq_ok.mp finish
    trivial
  | «synonym» span name params body =>
    obtain ⟨⟨⟩, middle, -, finish⟩ := bind_eq_ok.mp run
    obtain ⟨rfl, rfl⟩ := pure_eq_ok.mp finish
    trivial
  | define span recursive bindings =>
    obtain ⟨definitions, middle, here, finish⟩ := bind_eq_ok.mp run
    obtain ⟨rfl, rfl⟩ := pure_eq_ok.mp finish
    exact ((atTop.reaches_define bare here).follows atTop isSettled).typed
  | eval span expr =>
    obtain ⟨term, middle, here, finish⟩ := bind_eq_ok.mp run
    obtain ⟨rfl, rfl⟩ := pure_eq_ok.mp finish
    exact ((atTop.reaches_eval bare here).follows atTop isSettled).typed

/-- The identity function, used at two types. -/
def twiceIdentity : Surface.Expr :=
  .letIn default false [⟨default, "id", none,
      .lambda default [⟨default, .bind default "x", .ident default "x"⟩]⟩]
    (.tuple default [.app default (.ident default "id") (.lit default (.bool true)),
      .app default (.ident default "id") (.lit default (.int 1 none))])

theorem twiceIdentity_accepted : ∃ checked after,
    Check.decl (.eval default twiceIdentity) (Session.start .standard) = .ok checked after := by
  have shown : Run.gives (fun _ _ => true)
      (Check.decl (.eval default twiceIdentity) (Session.start .standard)) = true := by cbv
  obtain ⟨checked, after, accepted, -⟩ := Run.exists_of_gives shown
  exact ⟨checked, after, accepted⟩

theorem twiceIdentity_bare : twiceIdentity.Bare := by
  simp only [twiceIdentity, Surface.Expr.Bare, Surface.Expr.BareBindings, Surface.Expr.BareCases,
    Surface.Expr.BareAll, Surface.Pattern.Bare]
  decide

theorem twiceIdentity_typed : ∃ checked after,
    Check.decl (.eval default twiceIdentity) (Session.start .standard) = .ok checked after ∧
      checked.Typed after.subst after.registry (Session.start .standard).env.lookup? := by
  obtain ⟨checked, after, accepted⟩ := twiceIdentity_accepted
  have bare : Surface.Decl.Bare (.eval default twiceIdentity) := twiceIdentity_bare
  exact ⟨checked, after, accepted, accepted_unit_typed .refl bare accepted⟩

end Session

end PolyCheck
