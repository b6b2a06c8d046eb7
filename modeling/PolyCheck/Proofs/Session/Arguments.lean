import PolyCheck.Proofs.Session.Dangling
import PolyCheck.Proofs.Subst.Kinded

/-! Kinds of arguments in inferred types. Comparing types does not look at kinds. An application
that is compared with a tuple or with a definition takes their components one by one, so a function
on types may end up where a type belongs; and where quantifiers bind functions on types, a copy of
one may be compared with a copy of a type and leave the comparison. As long as only names are
applied to types and quantifiers bind types only, two types of one kind are compared part by part
with parts of one kind each. So every check leads to types of values, and every argument has the
kind that its definition declares. -/
namespace PolyCheck

open Run Check

variable {ranks : Name → Option Kind} {env : Env} {sorting later : Sorting true}

structure Scheme.Sorted (sorting : Sorting true) (scheme : Scheme) : Prop where
  unapplied : scheme.ty.Unapplied
  sorts : sorting.Sorts scheme.ty .star
  vars : ∀ v ∈ scheme.vars, ∃ kind, sorting.Sorts (.var v) kind

theorem Scheme.Sorted.grow {scheme : Scheme} (sorted : scheme.Sorted sorting)
    (grown : sorting ≤ later) : scheme.Sorted later where
  unapplied := sorted.unapplied
  sorts := sorted.sorts.grow grown
  vars v member := (sorted.vars v member).imp fun _ sorts => sorts.grow grown

/-- A session in the given scopes in which everything has its kind and no type is applied. -/
structure Session.WellKinded (ranks : Name → Option Kind) (env : Env) (sorting : Sorting true)
    (session : Session) : Prop where
  subst : session.subst.WellKinded sorting.declared sorting
  scopes : session.env = env
  schemes : ∀ scheme ∈ env.schemes, scheme.Sorted sorting
  unapplied : session.registry.Unapplied
  registry : session.registry.Sorted (fun _ => False) sorting
  names : ∀ {name kind}, ranks name = some kind → session.registry.kind? name = some kind
  bool : sorting.Declares Registry.boolId []
  str : sorting.Declares Registry.stringId []
  ctors : ∀ {name info}, session.registry.ctors.get? name = some info →
    ∃ params, sorting.Declares info.template params

structure Sorting.Values (sorting : Sorting true) (ty : Ty) : Prop where
  unapplied : ty.Unapplied
  sorts : sorting.Sorts ty .star

theorem Sorting.Values.grow {ty : Ty} (values : sorting.Values ty) (grown : sorting ≤ later) :
    later.Values ty :=
  ⟨values.unapplied, values.sorts.grow grown⟩

namespace Session.WellKinded

variable {session inside : Session} {bindings : List (Name × Scheme)} {subst : Subst} {ty : Ty}

theorem toUnapplied (here : session.WellKinded ranks env sorting) : session.Unapplied env () :=
  ⟨here.subst.solutions, here.scopes, fun scheme member => (here.schemes scheme member).unapplied,
    here.unapplied⟩

theorem withSubst (here : session.WellKinded ranks env sorting) (grown : sorting ≤ later)
    (there : subst.WellKinded sorting.declared later) :
    { session with subst }.WellKinded ranks env later where
  subst := { there with declared := rfl }
  scopes := here.scopes
  schemes scheme member := (here.schemes scheme member).grow grown
  unapplied := here.unapplied
  registry := here.registry.grow grown there.declared
  names := here.names
  bool := here.bool.grow grown
  str := here.str.grow grown
  ctors known := (here.ctors known).imp fun _ declares => declares.grow grown

theorem enter (here : session.WellKinded ranks env sorting)
    (each : ∀ binding ∈ bindings, binding.2.Sorted sorting) :
    { session with env := env.enter bindings }.WellKinded ranks (env.enter bindings) sorting :=
  { here with scopes := rfl, schemes := Env.forall_mem_schemes_enter here.schemes each }

theorem leave (outer : session.WellKinded ranks env sorting) (grown : sorting ≤ later)
    (there : inside.WellKinded ranks (env.enter bindings) later) :
    { inside with env := inside.env.pop.2 }.WellKinded ranks env later :=
  { there with
    scopes := by rw [there.scopes, Env.pop_enter]
    schemes := fun scheme member => (outer.schemes scheme member).grow grown }

theorem shallow (here : session.WellKinded ranks env sorting) (values : sorting.Values ty) :
    sorting.Values (session.subst.shallow ty) where
  unapplied := here.subst.solutions.shallow (Ty.hereditary_applied False) values.unapplied
  sorts := here.subst.sorted.shallow here.subst.closed here.subst.solutions values.unapplied
    values.sorts

theorem generalize (here : session.WellKinded ranks env sorting) (values : sorting.Values ty)
    (fixed : List TyVar) : (Scheme.generalize session.subst fixed ty).Sorted sorting where
  unapplied := here.subst.solutions.zonk (Ty.hereditary_applied False) values.unapplied
  sorts := here.subst.sorted.zonk here.subst.closed here.subst.solutions rfl values.unapplied
    values.sorts
  vars v member := by
    have resolved := here.subst.solutions.zonk (Ty.hereditary_applied False) values.unapplied
    have sorts := here.subst.sorted.zonk here.subst.closed here.subst.solutions rfl values.unapplied
      values.sorts
    exact here.subst.sorted.freeVars here.subst.closed here.subst.solutions rfl resolved sorts v
      (List.mem_of_mem_filter member)

end Session.WellKinded

namespace Check

variable {α : Type} {post : Sorting true → α → Prop} {ty : Ty} {span : Span}

theorem kinded_onSubst {change : Subst → α × Subst}
    (changed : ∀ {subst : Subst}, subst.WellKinded sorting.declared sorting →
      ∃ later, sorting ≤ later ∧ (change subst).2.WellKinded sorting.declared later ∧
        post later (change subst).1) :
    Reaches (Session.WellKinded ranks env) sorting post (onSubst change) :=
  .modifyGet fun here => by
    obtain ⟨later, grown, there, holds⟩ := changed here.subst
    exact ⟨later, grown, here.withSubst grown there, holds⟩

theorem kinded_freshVar : Reaches (Session.WellKinded ranks env) sorting Sorting.Values freshVar :=
  kinded_onSubst fun here => by
    have isClosed : Kind.star.Closed := trivial
    obtain ⟨grown, there, sorts⟩ := here.push Cell.isNew_unbound isClosed
    exact ⟨_, grown, there, .var _, sorts⟩

theorem kinded_unify {expected found : Ty} (values : sorting.Values expected)
    (values' : sorting.Values found) (span : Span) :
    Reaches (Session.WellKinded ranks env) sorting unsaid (unify expected found span) := by
  refine reaches_of_ok fun session after value here run => ?_
  obtain ⟨subst, unified, rfl⟩ := Session.unify_eq_ok.mp run
  have alike : Unify.Alike sorting (expected, found) :=
    ⟨values.unapplied, values'.unapplied, _, values.sorts, values'.sorts⟩
  obtain ⟨later, grown, there, -⟩ :=
    (Subst.reaches_unify_wellKinded rfl alike).ok here.subst unified
  exact ⟨later, grown, here.withSubst grown there, trivial⟩

theorem kinded_openFlexible (values : sorting.Values ty) :
    Reaches (Session.WellKinded ranks env) sorting Sorting.Values (openFlexible ty span) := by
  refine .ensure (kinded_onSubst fun {subst} here => ?_)
  have hereditary := Ty.hereditary_applied False
  have unapplied := here.solutions.shallow hereditary values.unapplied
  have sorts := here.sorted.shallow here.closed here.solutions values.unapplied values.sorts
  split
  · rename_i vars body found
    rw [found] at unapplied sorts
    obtain ⟨later, grown, there, each⟩ := here.pushStars Cell.isNew_unbound vars.length
    have inside := hereditary.quantified.mp unapplied
    exact ⟨later, grown, there, Session.Unapplied.opened there.solutions inside vars _,
      there.opened rfl inside (sorts.grow grown) each⟩
  · exact ⟨sorting, le_rfl, here, unapplied, sorts⟩

theorem rigidCopies_wellKinded {declared : TemplateId → Option (List Kind)} {vars : List TyVar}
    {subst : Subst} (here : subst.WellKinded declared sorting) :
    ∃ later, sorting ≤ later ∧ (rigidCopies subst vars).2.WellKinded declared later ∧
      ∀ v ∈ (rigidCopies subst vars).1, later.Sorts (.var v) .star := by
  induction vars generalizing subst sorting with
  | nil => exact ⟨sorting, le_rfl, here, List.forall_mem_nil _⟩
  | cons var vars ih =>
    have isClosed : Kind.star.Closed := trivial
    obtain ⟨grown, there, sorts⟩ := here.push (Cell.isNew_rigid (subst.rigidName? var)) isClosed
    obtain ⟨later, grown', there, each⟩ := ih there
    exact ⟨later, grown.trans grown', there, List.forall_mem_cons.mpr ⟨sorts.grow grown', each⟩⟩

theorem kinded_openRigid {vars : List TyVar} {body : Ty}
    (values : sorting.Values (.quantified vars body)) :
    Reaches (Session.WellKinded ranks env) sorting (fun later opened => later.Values opened.2)
      (openRigid vars body span) := by
  refine .ensure (kinded_onSubst fun here => ?_)
  obtain ⟨later, grown, there, each⟩ := rigidCopies_wellKinded here
  have inside := (Ty.hereditary_applied False).quantified.mp values.unapplied
  exact ⟨later, grown, there, Session.Unapplied.opened there.solutions inside vars _,
    there.opened rfl inside (values.sorts.grow grown) each⟩

theorem kinded_instantiate {scheme : Scheme} (sorted : scheme.Sorted sorting) :
    Reaches (Session.WellKinded ranks env) sorting Sorting.Values (onSubst scheme.instantiate) := by
  refine kinded_onSubst fun {subst} here => ?_
  have hereditary := Ty.hereditary_applied False
  have resolved := here.solutions.zonk hereditary sorted.unapplied
  have sorts := here.sorted.zonk here.closed here.solutions rfl sorted.unapplied sorted.sorts
  unfold Scheme.instantiate
  dsimp only
  split
  · exact ⟨sorting, le_rfl, here, resolved, sorts⟩
  · have closed : ∀ kind ∈ scheme.vars.map sorting.kinds, kind.Closed :=
      List.forall_mem_map.mpr fun v _ => here.closed.kinds v
    obtain ⟨later, grown, there, length, each⟩ := here.pushMany Cell.isNew_unbound closed
    rw [List.length_map] at there length each
    refine ⟨later, grown, there, hereditary.substitute_ofLists resolved ?_, ?_⟩
    · exact List.forall_mem_map.mpr fun v _ => .var v
    · refine (sorts.grow grown).substitute_ofLists fun entry member => ?_
      rw [List.zip_map_left] at member
      obtain ⟨⟨copy, v⟩, isPair, rfl⟩ := List.mem_map.mp member
      have copied : (copy, sorting.kinds v) ∈
          (subst.pushMany .unbound scheme.vars.length).1.zip (scheme.vars.map sorting.kinds) := by
        rw [List.zip_map_right]
        exact List.mem_map_of_mem isPair
      obtain ⟨kind, isKind⟩ := sorted.vars v (List.of_mem_zip isPair).2
      obtain rfl := here.closed.kinds_eq isKind
      exact ⟨_, each _ copied, isKind.grow grown⟩

theorem kinded_intTy (width : Nat) :
    Reaches (Session.WellKinded ranks env) sorting Sorting.Values (intTy width) := by
  refine .modifyGet fun {session} here => ?_
  obtain ⟨later, grown, same, there, declares⟩ := here.registry.intTemplate width
  have subst : session.subst.WellKinded later.declared later := by
    have sorted := here.subst.sorted.grow grown
    rcases same with rfl | rfl
    · exact here.subst
    · exact ⟨here.subst.closed.declare _ (List.forall_mem_nil _), here.subst.size, rfl, sorted,
        here.subst.solutions⟩
  refine ⟨later, grown, ?_, .nominal (List.forall_mem_nil _), .named declares⟩
  exact {
    subst := subst
    scopes := here.scopes
    schemes := fun scheme member => (here.schemes scheme member).grow grown
    unapplied := here.unapplied.intTemplate width
    registry := there
    names := fun known => by
      rw [here.registry.kind?_le (session.registry.le_intTemplate width)]
      exact here.names known
    bool := here.bool.grow grown
    str := here.str.grow grown
    ctors := fun known => by
      rw [Registry.ctors_intTemplate] at known
      exact (here.ctors known).imp fun _ declares => declares.grow grown }

theorem kinded_literal (value : Literal) (span : Span) :
    Reaches (Session.WellKinded ranks env) sorting (fun later found => later.Values found.2)
      (literal value span) := by
  unfold literal
  split
  · exact fun session here =>
      ⟨sorting, le_rfl, here, .nominal (List.forall_mem_nil _), .named here.bool⟩
  · refine .get fun session _ => ?_
    dsimp only
    split
    · exact .throw _
    · exact (kinded_intTy _).bind fun _ values => .pure values
  · split
    · exact .throw _
    · exact fun session here =>
        ⟨sorting, le_rfl, here, .nominal (List.forall_mem_nil _), .named here.str⟩

theorem kinded_ctorInstance {info : CtorInfo}
    (known : ∃ params, sorting.Declares info.template params) :
    Reaches (Session.WellKinded ranks env) sorting
      (fun later found => (∀ ty ∈ found.1, later.Values ty) ∧ later.Values found.2)
      (ctorInstance info) := by
  refine .get fun session here => ?_
  obtain ⟨params, declares⟩ := known
  obtain ⟨template, defined⟩ := here.registry.known (declares _ here.subst.closed.admits_asKnown)
  have sorted := here.registry.template defined
  have settled := here.registry.settled defined not_false
  have count : session.registry.paramCount info.template = (template.params.map (·.2)).length := by
    rw [Registry.paramCount, defined, List.length_map]
    rfl
  dsimp only
  rw [count]
  have fresh : Reaches (Session.WellKinded ranks env) sorting
    (fun later types => (∀ ty ∈ types, ty.Unapplied) ∧ types.length = template.params.length ∧
      ∀ entry ∈ types.zip (template.params.map (·.2)), later.Sorts entry.1 entry.2)
      (freshVars (template.params.map (·.2)).length) := by
    refine kinded_onSubst fun {subst} here => ?_
    obtain ⟨later, grown, there, length, each⟩ := here.pushMany Cell.isNew_unbound
      (List.forall_mem_map.mpr settled)
    refine ⟨later, grown, there, List.forall_mem_map.mpr fun v _ => .var v, ?_, ?_⟩
    · rw [List.length_map, length, List.length_map]
    · rw [List.zip_map_left]
      exact List.forall_mem_map.mpr each
  refine fresh.bind fun {later args} grown made => .pure ⟨?_, .nominal made.1, ?_⟩
  · refine Registry.forall_mem_fieldsAt fun {_ dataCase} found inside field member => ?_
    obtain rfl := Option.some.inj (defined.symm.trans found)
    have isCase := List.mem_of_getElem? inside
    have unapplied := here.unapplied.template defined dataCase isCase field member
    refine ⟨(Ty.hereditary_applied False).substitute_ofLists unapplied made.1, ?_⟩
    refine ((sorted.fields dataCase isCase field member).grow grown).substitute_ofLists ?_
    rw [Template.paramVars, List.zip_map_right]
    refine List.forall_mem_map.mpr fun entry isEntry => ?_
    obtain ⟨ty, param⟩ := entry
    refine ⟨param.2, made.2.2 (ty, param.2) ?_,
      (sorted.params param (List.of_mem_zip isEntry).2).grow grown⟩
    rw [List.zip_map_right]
    exact List.mem_map.mpr ⟨_, isEntry, rfl⟩
  · refine .nominal (sorted.declares.grow grown) ?_ made.2.2
    rw [made.2.1, List.length_map]

/-- Reading a written type makes variables and integer types only. -/
theorem growing_lengthened (before : Session) :
    Growing fun subst registry => before.subst.Lengthened subst ∧
      registry.ctors = before.registry.ctors where
  push isNew here := ⟨here.1.trans (Subst.lengthened_push _ isNew), here.2⟩
  int width here := ⟨here.1, (Registry.ctors_intTemplate _ width).trans here.2⟩

theorem kinded_writtenType {written : Surface.TypeExpr} (names : written.AppliesNames)
    (types : written.QuantifiesTypes ranks) :
    Reaches (Session.WellKinded ranks env) sorting Sorting.Values (writtenType written) := by
  refine reaches_of_ok fun before after ty here run => ?_
  obtain ⟨_, -, stayed, unapplied⟩ :=
    (Session.Unapplied.stays_writtenType names).ok here.toUnapplied run
  have steady : Steady (fun subst registry =>
        before.subst.Lengthened subst ∧ registry.ctors = before.registry.ctors) anything
          (writtenType written) :=
    (Elaborate.steady_starType (growing_lengthened before) written).run' .forUse
  have keeps := Steady.keeps steady before ⟨before.subst.lengthened_refl, rfl⟩
  rw [run] at keeps
  obtain ⟨⟨longer, ctors⟩, -⟩ := keeps
  have sorted : before.Sorted ranks (fun _ => False) sorting :=
    ⟨here.subst.size, here.registry, fun _ => here.names⟩
  have start : Elaborator.forUse.Sorted sorting :=
    ⟨here.subst.closed.table.symm, here.subst.closed.table ▸ KindTable.tame_empty,
      List.forall_mem_nil _, fun same => Option.some.inj same ▸ List.forall_mem_nil _⟩
  have reads : Reaches (Session.Sorted ranks fun _ => False) sorting
    (Elaborate.PlacedStar ranks [] written) (Elaborate.starType written .forUse) :=
    .state_bind (Elaborate.sorted_type written (fun _ => types) start) fun _ read =>
      read.expectStar _
  obtain ⟨⟨_, state⟩, read, rfl⟩ := map_eq_ok.mp run
  obtain ⟨later, grown, there, placed⟩ := reads.ok sorted read
  have tame := placed.kinds.tame
  have settles := Registry.settles_refl later.table.defaulted after.registry
  have grown := there.registry.le_settled tame settles (fun _ => False.elim) here.subst.closed grown
  refine ⟨_, grown, ?_, unapplied, there.registry.sorts_settled tame settles (fun _ => False.elim)
    placed.sorts⟩
  exact {
    subst := ⟨there.registry.closed_settled tame settles fun _ => False.elim, there.size, rfl,
      (here.subst.sorted.grow grown).lengthen longer, stayed.subst⟩
    scopes := stayed.scopes
    schemes := fun scheme member => (here.schemes scheme member).grow grown
    unapplied := stayed.registry
    registry := there.registry.settle tame settles fun _ => False.elim
    names := there.names rfl
    bool := here.bool.grow grown
    str := here.str.grow grown
    ctors := fun known => by
      rw [ctors] at known
      exact (here.ctors known).imp fun _ declares => declares.grow grown }

end Check

/-- Types of values in which no type is applied, as a discipline of checks that succeed. -/
def Sorting.discipline (ranks : Name → Option Kind) : Discipline (Sorting true) where
  failures := False
  inv := Session.WellKinded ranks
  owns := Sorting.Values
  binds sorting scheme := scheme.Sorted sorting
  knows sorting info := ∃ params, sorting.Declares info.template params
  allowed written := written.AppliesNames ∧ written.QuantifiesTypes ranks
  lasts_owns grown values := values.grow grown
  lasts_binds grown sorted := sorted.grow grown
  lasts_knows grown known := known.imp fun _ declares => declares.grow grown
  owns_arrow fst snd := ⟨.arrow fst.unapplied snd.unapplied, .arrow fst.sorts snd.sorts⟩
  owns_tuple each :=
    ⟨.tuple fun ty member => (each ty member).unapplied,
      .tuple fun ty member => (each ty member).sorts⟩
  binds_mono values := ⟨values.unapplied, values.sorts, List.forall_mem_nil _⟩
  env_eq here := here.scopes
  binds_of_mem here _ member := here.schemes _ (here.scopes ▸ member)
  knows_of_get? here _ _ known := here.ctors known
  owns_shallow here := here.shallow
  binds_generalize here := here.generalize
  quiet here _ _ := { here with }
  enter here _ each := here.enter each
  leave here grown there := here.leave grown there
  freshVar := kinded_freshVar
  unify values values' span := kinded_unify values values' span
  openFlexible := kinded_openFlexible
  openRigid := kinded_openRigid
  instantiate := kinded_instantiate
  literal := kinded_literal
  ctorInstance := kinded_ctorInstance
  writtenType allowed := kinded_writtenType allowed.1 allowed.2

/-- Every quantifier in the unit binds variables that are used as types. The names of a group of
data types do not count while their own fields are read. -/
def Surface.Decl.QuantifiesTypes (ranks : Name → Option Kind) : Surface.Decl → Prop
  | .data _ group => ∀ decl ∈ group, ∀ dataCase ∈ decl.cases, TypeExpr.AllQuantifyTypes
      (fun name => if name ∈ group.map (·.name) then none else ranks name) dataCase.fields
  | .synonym _ _ _ body => body.QuantifiesTypes ranks
  | .define _ _ bindings => ∀ type ∈ Expr.annotationsBindings bindings, type.QuantifiesTypes ranks
  | .eval _ expr => ∀ type ∈ expr.annotations, type.QuantifiesTypes ranks

theorem Subst.WellKinded.of_cells {declared : TemplateId → Option (List Kind)} {subst after : Subst}
    (here : subst.WellKinded declared sorting) (same : after.cells = subst.cells) :
    after.WellKinded declared sorting where
  closed := here.closed
  size := by
    rw [Subst.size, same]
    exact here.size
  declared := here.declared
  sorted :=
    { link := fun linked => here.sorted.link (cell_of_cells same _ ▸ linked)
      bound := fun solved => here.sorted.bound (cell_of_cells same _ ▸ solved) }
  solutions := Session.Unapplied.of_cells here.solutions same

/-- All types in what a unit gives are types of values, and all its schemes have kinds. -/
def CheckedDecl.Sorted (sorting : Sorting true) : CheckedDecl → Prop
  | .data _ => True
  | .synonym _ => True
  | .define _ definitions =>
    Term.EverywhereDefinitions sorting.Values (fun scheme => scheme.Sorted sorting) definitions
  | .eval term => term.Everywhere sorting.Values fun scheme => scheme.Sorted sorting

namespace CheckedDecl.Sorted

variable {checked : CheckedDecl}

theorem everywhere (sorted : checked.Sorted sorting) : checked.Everywhere sorting.Values := by
  have values : ∀ scheme : Scheme, scheme.Sorted sorting → sorting.Values scheme.ty :=
    fun scheme sorted => ⟨sorted.unapplied, sorted.sorts⟩
  cases checked with
  | data _ | synonym _ => trivial
  | define _ definitions => exact Term.EverywhereDefinitions.imp (fun _ => id) values sorted
  | eval term => exact Term.Everywhere.imp (fun _ => id) values sorted

theorem scheme (sorted : checked.Sorted sorting) :
    ∀ definition ∈ checked.definitions, definition.scheme.Sorted sorting := by
  cases checked with
  | data _ | synonym _ | eval _ => exact List.forall_mem_nil _
  | define _ definitions =>
    exact fun definition member => (Term.everywhereDefinitions_iff.mp sorted definition member).1

theorem zonk (sorted : checked.Sorted sorting) {declared : TemplateId → Option (List Kind)}
    {subst : Subst}
    (here : subst.WellKinded declared sorting) : (checked.zonk subst).Sorted sorting := by
  have values : ∀ ty, sorting.Values ty → sorting.Values (subst.zonk ty) := fun ty values =>
    ⟨here.solutions.zonk (Ty.hereditary_applied False) values.unapplied,
      here.sorted.zonk here.closed here.solutions rfl values.unapplied values.sorts⟩
  have schemes : ∀ scheme : Scheme, scheme.Sorted sorting → (scheme.zonk subst).Sorted sorting := by
    intro scheme sorted
    obtain ⟨unapplied, sorts⟩ := values scheme.ty ⟨sorted.unapplied, sorted.sorts⟩
    exact ⟨unapplied, sorts, sorted.vars⟩
  cases checked with
  | data _ | synonym _ => trivial
  | define _ definitions => exact Term.EverywhereDefinitions.zonk values schemes sorted
  | eval term => exact Term.Everywhere.zonk values schemes sorted

end CheckedDecl.Sorted

namespace Session

variable {options : Options} {session after before reached : Session} {written : Surface.Decl}
  {checked : CheckedDecl}

structure KindsKnown (sorting : Sorting true) (session : Session) : Prop where
  subst : session.subst.WellKinded sorting.declared sorting
  schemes : ∀ scheme ∈ session.env.schemes, scheme.Sorted sorting
  registry : session.registry.Sorted (fun _ => False) sorting

theorem Registry.Sorted.declares_nil {registry : Registry}
    (sorted : registry.Sorted (fun _ => False) sorting)
    {id : TemplateId} (arity : registry.arity? id = some 0) : sorting.Declares id [] := by
  obtain ⟨template, known, none⟩ := Option.map_eq_some_iff.mp arity
  have declares := (sorted.template known).declares
  rwa [List.length_eq_zero_iff.mp none] at declares

theorem KindsKnown.opened {shape : Shape} (known : session.KindsKnown sorting)
    (fits : session.Fits session.env shape) (unapplied : session.Unapplied session.env ()) :
    (Check.opened session).WellKinded session.registry.kind? session.env sorting where
  subst := known.subst.of_cells rfl
  scopes := rfl
  schemes := known.schemes
  unapplied := unapplied.registry.of_templates rfl unapplied.registry.type
  registry := known.registry.of_tables rfl rfl rfl
  names known := known
  bool := Registry.Sorted.declares_nil known.registry
    (by rw [fits.registry.arity]; exact fits.registry.bool)
  str := Registry.Sorted.declares_nil known.registry
    (by rw [fits.registry.arity]; exact fits.registry.str)
  ctors {name info} found := by
    have isSome := (fits.registry.ctor found).template
    rw [← fits.registry.arity, Registry.arity?, Option.isSome_map] at isSome
    obtain ⟨template, there⟩ := Option.isSome_iff_exists.mp isSome
    exact ⟨_, (known.registry.template there).declares⟩

theorem declaring_lengthened (base : Subst) :
    Declaring (fun subst _ => base.Lengthened subst) (fun _ => True) where
  push isNew longer := longer.trans (Subst.lengthened_push _ isNew)
  int _ longer := longer
  alloc _ _ longer := ⟨longer, trivial⟩
  modify _ _ longer := longer
  defineData _ _ longer := longer

theorem WellKinded.declared (here : before.WellKinded ranks env sorting)
    (stayed : reached.Unapplied env ())
    (longer : before.subst.Lengthened reached.subst) (grown : sorting ≤ later)
    (closed : later.Closed)
    (size : later.size ≤ reached.subst.size)
    (registry : reached.registry.Sorted (fun _ => False) later) :
    reached.KindsKnown later where
  subst := ⟨closed, size, rfl, (here.subst.sorted.grow grown).lengthen longer, stayed.subst⟩
  schemes scheme member := (here.schemes scheme (stayed.scopes ▸ member)).grow grown
  registry := registry

theorem kinded_unit (here : before.WellKinded before.registry.kind? env sorting)
    (names : written.AppliesNames) (types : written.QuantifiesTypes before.registry.kind?)
    (run : unit written before = .ok checked reached) :
    ∃ later, sorting ≤ later ∧ reached.KindsKnown later ∧ checked.Sorted later := by
  have inferred : ∀ {later : Sorting true}, reached.WellKinded before.registry.kind? env later →
      reached.KindsKnown later :=
        fun there => ⟨there.subst, there.scopes ▸ there.schemes, there.registry⟩
  cases written with
  | data span group =>
    obtain ⟨ids, ran, rfl⟩ := map_eq_ok.mp run
    obtain ⟨_, -, stayed, -⟩ := (Unapplied.stays_data names).ok here.toUnapplied ran
    have longer :=
      Steady.keeps (steady_data (declaring_lengthened before.subst) (fun _ => id) group) before
      before.subst.lengthened_refl
    rw [ran] at longer
    let hidden : Name → Option Kind :=
      fun name => if name ∈ group.map (·.name) then none else before.registry.kind? name
    have sorted : before.Sorted hidden (fun _ => False) sorting :=
      ⟨here.subst.size, here.registry,
        fun _ _ _ known => (ite_eq_iff.mp known).elim nofun And.right⟩
    have new : true → ∀ decl ∈ group, hidden decl.name = none := fun _ decl member =>
      if_pos (List.mem_map_of_mem member)
    obtain ⟨later, grown, closed, size, registry⟩ :=
      sorted_data here.subst.closed new (fun decl inside dataCase isCase _ =>
        types decl inside dataCase isCase) sorted ran
    exact ⟨later, grown, here.declared stayed longer.1 grown closed size registry, trivial⟩
  | synonym span name params body =>
    obtain ⟨⟨⟩, middle, ran, ended⟩ := bind_eq_ok.mp run
    obtain ⟨rfl, rfl⟩ := pure_eq_ok.mp ended
    obtain ⟨_, -, stayed, -⟩ :=
      (Unapplied.stays_synonym name params names span).ok here.toUnapplied ran
    have longer := Steady.keeps (steady_synonym (declaring_lengthened before.subst).toGrowing name
      (fun _ _ => id) params body span) before before.subst.lengthened_refl
    rw [ran] at longer
    have sorted : before.Sorted before.registry.kind? (fun _ => False) sorting :=
      ⟨here.subst.size, here.registry, fun _ => id⟩
    obtain ⟨later, grown, closed, size, registry⟩ :=
      sorted_synonym here.subst.closed (fun _ => types) sorted ran
    exact ⟨later, grown, here.declared stayed longer.1 grown closed size registry, trivial⟩
  | define span recursive bindings =>
    obtain ⟨definitions, ran, rfl⟩ := map_eq_ok.mp run
    obtain ⟨later, grown, there, each⟩ :=
      ((Sorting.discipline before.registry.kind?).checks_group recursive bindings
      fun type member => ⟨names type member, types type member⟩).ok here ran
    exact ⟨later, grown, inferred there, Term.everywhereDefinitions_iff.mpr each⟩
  | eval span expr =>
    obtain ⟨term, ran, rfl⟩ := map_eq_ok.mp run
    obtain ⟨later, grown, there, inside⟩ := ((Sorting.discipline before.registry.kind?).infers expr
      fun type member => ⟨names type member, types type member⟩).ok here ran
    exact ⟨later, grown, inferred there, inside⟩

/-- Sessions after units, accepted or refused, of which the accepted ones apply only names to types
and quantify types only. -/
inductive Regular (options : Options) : Session → Prop where
  | start : Regular options (Session.start options)
  | accepted {session after : Session} {written : Surface.Decl} {checked : CheckedDecl}
    (before : Regular options session) (names : written.AppliesNames)
    (types : written.QuantifiesTypes session.registry.kind?)
    (result : Check.decl written session = .ok checked after) : Regular options after
  | refused {session after : Session} {written : Surface.Decl} {error : TypeError}
    (before : Regular options session) (result : Check.decl written session = .error error after) :
    Regular options after

theorem Regular.namesApplied (regular : session.Regular options) :
    session.NamesApplied options := by
  induction regular with
  | start => exact .start
  | accepted _ names _ result ih => exact .accepted ih names result
  | refused _ result ih => exact .refused ih result

theorem KindsKnown.start (options : Options) : ∃ sorting,
    (Session.start options).KindsKnown sorting := by
  obtain ⟨sorting, closed, size, sorted⟩ := sorted_initial true
  have none : Subst.empty.Sorted sorting :=
    { link := fun linked => by cases linked
      bound := fun solved => by cases solved }
  exact ⟨sorting, ⟨closed, size ▸ Nat.zero_le _, rfl, none, .empty⟩,
    fun _ member => by (cases member), sorted⟩

theorem KindsKnown.accepted {shape : Shape} (known : session.KindsKnown sorting)
    (fits : session.Fits session.env shape) (unapplied : session.Unapplied session.env ())
    (names : written.AppliesNames) (types : written.QuantifiesTypes session.registry.kind?)
    (accepted : Check.decl written session = .ok checked after) :
    ∃ later, sorting ≤ later ∧ after.KindsKnown later ∧ checked.Sorted later := by
  have here := known.opened fits unapplied
  obtain ⟨found, reached, run, rfl, rfl⟩ := exists_unit_of_ok accepted
  obtain ⟨later, grown, there, sorted⟩ :=
    @kinded_unit session.env sorting (Check.opened session) reached written found here
      names types run
  have resolved := sorted.zonk there.subst
  refine ⟨later, grown, ⟨there.subst.of_cells rfl, ?_, there.registry.of_tables rfl rfl rfl⟩,
    resolved⟩
  exact Env.forall_mem_schemes_bindGlobal there.schemes resolved.scheme

theorem Regular.kindsKnown (regular : session.Regular options) : ∃ sorting,
    session.KindsKnown sorting := by
  induction regular with
  | start => exact KindsKnown.start options
  | accepted before names types result ih =>
    obtain ⟨sorting, known⟩ := ih
    obtain ⟨shape, fits⟩ := before.namesApplied.reachable.fits
    obtain ⟨later, -, there, -⟩ :=
      known.accepted fits before.namesApplied.unapplied names types result
    exact ⟨later, there⟩
  | refused before result ih =>
    obtain ⟨sorting, known⟩ := ih
    rw [before.namesApplied.reachable.settled.restored result]
    exact ⟨sorting, known.subst, known.schemes, known.registry⟩

end Session

/-- Every definition in the type has as many arguments as parameters, of the kinds that it
declares. -/
def Ty.ArgumentsKinded (declared : TemplateId → Option (List Kind)) (kinds : TyVar → Kind)
    (ty : Ty) : Prop :=
  ∀ id args, ty.Part (.nominal id args) →
    ∃ params, declared id = some params ∧ args.length = params.length ∧
      ∀ entry ∈ args.zip params, entry.1.HasKind declared kinds entry.2

theorem Sorting.Closed.part (closed : sorting.Closed) {whole ty : Ty} (unapplied : whole.Unapplied)
    {kind : Kind}
    (sorts : sorting.Sorts whole kind) (part : whole.Part ty) : ∃ kind, sorting.Sorts ty kind := by
  induction part with
  | here => exact ⟨kind, sorts⟩
  | child inner member ih =>
    obtain ⟨_, sorts⟩ := ih
    exact closed.children rfl (unapplied.part inner) sorts _ member

theorem Registry.Sorted.declared?_eq {registry : Registry}
    (sorted : registry.Sorted (fun _ => False) sorting)
    (closed : sorting.Closed) {id : TemplateId} {params : List Kind}
    (known : sorting.declared id = some params) :
    registry.declared? id = some params := by
  obtain ⟨template, defined⟩ := sorted.known known
  have isClosed := List.forall_mem_map.mpr (sorted.settled defined not_false)
  have declares := (sorted.template defined).declares _ closed.admits_asKnown
  rw [Kind.map_under_of_closed isClosed] at declares
  obtain rfl := Option.some.inj (known.symm.trans declares)
  exact congrArg (Option.map _) defined

theorem Sorting.Values.argumentsKinded {registry : Registry} {ty : Ty} (values : sorting.Values ty)
    (closed : sorting.Closed) (sorted : registry.Sorted (fun _ => False) sorting) :
    ty.ArgumentsKinded registry.declared? sorting.kinds := by
  intro id args part
  obtain ⟨_, sorts⟩ := closed.part values.unapplied values.sorts part
  obtain ⟨-, params, known, length, each⟩ := closed.nominal_inv sorts
  have admits : sorting.Admits { sorting.asKnown with declared := registry.declared? } :=
    { closed.admits_asKnown with
      declared := fun known => (sorted.declared?_eq closed known).trans
        (congrArg some (Kind.map_under_of_closed (closed.declared known) _).symm) }
  exact ⟨params, sorted.declared?_eq closed known, length,
    fun entry member => (closed.sorted (each entry member) admits).hasKind⟩

namespace Session

variable {options : Options} {session after : Session} {written : Surface.Decl}
  {checked : CheckedDecl}

/-- In the types of an accepted unit every definition has as many arguments as parameters. Its
arguments have the kinds that are declared, for one choice of kinds for all variables, when in the
unit and in the accepted ones before it only names are applied to types and quantifiers bind only
variables that are used as types. Where no application is left and all the definitions declare `*`
they have these kinds in any session; and no application is left in any of the types when only names
are applied. -/
theorem nominal_arguments (reachable : session.Reachable options)
    (accepted : Check.decl written session = .ok checked after) :
    (checked.Everywhere fun ty => ∀ id args, ty.Part (.nominal id args) →
      ∃ params, after.registry.declared? id = some params ∧ args.length = params.length ∧
        ((Ty.nominal id args).Unapplied →
          (∀ other others, (Ty.nominal id args).Part (.nominal other others) → ∀ kinds,
            after.registry.declared? other = some kinds → ∀ kind ∈ kinds, kind = .star) →
          ∀ entry ∈ args.zip params, entry.1.HasKind after.registry.declared?
          (fun _ => .star) entry.2)) ∧
    (session.NamesApplied options → written.AppliesNames → checked.Everywhere Ty.Unapplied) ∧
    (session.Regular options → written.AppliesNames →
      written.QuantifiesTypes session.registry.kind? →
      ∃ kinds : TyVar → Kind,
        checked.Everywhere (Ty.ArgumentsKinded after.registry.declared? kinds)) := by
  obtain ⟨shape, fits⟩ := reachable.fits
  obtain ⟨larger, -, there, yields⟩ := fits.accepted accepted
  refine ⟨yields.everywhere.imp fun ty fits id args part => ?_,
    fun applied names => (applied.unapplied.accepted names accepted).2,
    fun regular names types => ?_⟩
  · obtain ⟨params, known, length⟩ := there.declared? (fits.part part)
    refine ⟨params, known, length, fun unapplied stars entry member => ?_⟩
    obtain ⟨isArg, isParam⟩ := List.of_mem_zip member
    have inNode : (Ty.nominal id args).Part entry.1 := Ty.part_of_children isArg
    rw [stars id args .here params known entry.2 isParam]
    refine Ty.Unapplied.hasKind (unapplied.part inNode) fun other others inside => ?_
    obtain ⟨kinds, known, length⟩ := there.declared? (fits.part (part.trans (inNode.trans inside)))
    exact ⟨kinds, known, length, stars other others (inNode.trans inside) kinds known⟩
  · obtain ⟨sorting, known⟩ := regular.kindsKnown
    obtain ⟨later, -, known, sorted⟩ :=
      known.accepted fits regular.namesApplied.unapplied names types accepted
    exact ⟨later.kinds, sorted.everywhere.imp fun ty values =>
      values.argumentsKinded known.subst.closed known.registry⟩

/-- The type `wrap f` with `Wrap (wrap box)`: its parameter is a function on types. -/
def wrapDecl : Surface.Decl :=
  .data default [⟨default, "wrap", ["f"],
    [⟨default, "Wrap", [.app default (.name default "wrap") [.name default "box"]]⟩]⟩]

/-- The unit that gives the constructor a name. -/
def namedWrap : Surface.Decl :=
  .define default false [⟨default, "x", none, .ident default "Wrap"⟩]

/-- What the function on types that makes boxes is: an argument of the kind that is declared. -/
theorem namedWrap_arguments : ∃ checked middle checked' middle' checked'' after,
    Check.decl boxDecl (Session.start .standard) = .ok checked middle ∧
      Check.decl wrapDecl middle = .ok checked' middle' ∧
        Check.decl namedWrap middle' = .ok checked'' after ∧
      after.registry.declared? ⟨3⟩ = some [.arrow .star .star] ∧
      (∃ definition ∈ checked''.definitions, definition.scheme.ty =
        .arrow (.nominal ⟨3⟩ [.quantified [⟨0⟩] (.nominal ⟨2⟩ [.var ⟨0⟩])])
        (.nominal ⟨3⟩ [.var ⟨3⟩])) ∧
      ∃ kinds, (Ty.quantified [⟨0⟩] (.nominal ⟨2⟩ [.var ⟨0⟩])).HasKind after.registry.declared?
        kinds (.arrow .star .star) ∧
        (Ty.var ⟨3⟩).HasKind after.registry.declared? kinds (.arrow .star .star) := by
  have shown : gives (fun _ middle => gives (fun _ middle' => gives (fun checked after =>
        decide (after.registry.declared? ⟨3⟩ = some [.arrow .star .star]) &&
        checked.definitions.any fun definition => decide (definition.scheme.ty =
          .arrow (.nominal ⟨3⟩ [.quantified [⟨0⟩] (.nominal ⟨2⟩ [.var ⟨0⟩])])
            (.nominal ⟨3⟩ [.var ⟨3⟩])))
      (Check.decl namedWrap middle')) (Check.decl wrapDecl middle))
      (Check.decl boxDecl (Session.start .standard)) = true := by cbv
  obtain ⟨checked, middle, first, shown⟩ := exists_of_gives shown
  obtain ⟨checked', middle', second, shown⟩ := exists_of_gives shown
  obtain ⟨checked'', after, third, shown⟩ := exists_of_gives shown
  obtain ⟨declared, shown⟩ := (Bool.and_eq_true _ _).mp shown
  obtain ⟨definition, member, same⟩ := List.any_eq_true.mp shown
  have declared := of_decide_eq_true declared
  have same := of_decide_eq_true same
  have box : boxDecl.AppliesNames ∧ ∀ ranks, boxDecl.QuantifiesTypes ranks := by
    simp [boxDecl, Surface.Decl.AppliesNames, Surface.TypeExpr.AllApplyNames,
      Surface.TypeExpr.AppliesNames, Surface.Decl.QuantifiesTypes,
      Surface.TypeExpr.AllQuantifyTypes, Surface.TypeExpr.QuantifiesTypes]
  have wrap : wrapDecl.AppliesNames ∧ ∀ ranks, wrapDecl.QuantifiesTypes ranks := by
    simp [wrapDecl, Surface.Decl.AppliesNames, Surface.TypeExpr.AllApplyNames,
      Surface.TypeExpr.AppliesNames, Surface.Decl.QuantifiesTypes,
      Surface.TypeExpr.AllQuantifyTypes, Surface.TypeExpr.QuantifiesTypes]
  have named : namedWrap.AppliesNames ∧ ∀ ranks, namedWrap.QuantifiesTypes ranks := by
    simp [namedWrap, Surface.Decl.AppliesNames, Surface.Decl.QuantifiesTypes,
      Surface.Expr.annotationsBindings, Surface.Expr.annotations]
  have regular : Regular .standard middle' :=
    .accepted (.accepted .start box.1 (box.2 _) first) wrap.1 (wrap.2 _) second
  have arguments := nominal_arguments regular.namesApplied.reachable third
  obtain ⟨kinds, everywhere⟩ := arguments.2.2 regular named.1 (named.2 _)
  have here := everywhere.definition member
  rw [same] at here
  refine ⟨checked, middle, checked', middle', checked'', after, first, second, third, declared,
    ⟨definition, member, same⟩, kinds, ?_, ?_⟩
  · obtain ⟨params, known, -, each⟩ := here ⟨3⟩ _ (Ty.part_of_children List.mem_cons_self)
    obtain rfl := Option.some.inj (declared.symm.trans known)
    exact each (_, .arrow .star .star) List.mem_cons_self
  · obtain ⟨params, known, -, each⟩ :=
      here ⟨3⟩ _ (Ty.part_of_children (List.mem_cons_of_mem _ List.mem_cons_self))
    obtain rfl := Option.some.inj (declared.symm.trans known)
    exact each (_, .arrow .star .star) List.mem_cons_self

section Counterexamples

/-- A data type with a parameter that is applied to another one, which is applied to types as
well. -/
def appliedDecl : Surface.Decl :=
  .data default
    [⟨default, "t", ["f", "g"],
      [⟨default, "C", [.app default (.var default "f") [.var default "g"]]⟩,
        ⟨default, "D", [.app default (.var default "g") [.name default "bool"]]⟩]⟩]

def appliedPair : Surface.Decl :=
  .define default false [⟨default, "x", none, .app default (.ident default "C")
    (.tuple default [.lit default (.int 1 none), .lit default (.bool true)])⟩]

/-- The last component of the pair, a type, becomes the argument for a parameter that is a function
on types. -/
theorem pair_for_application : ¬ ∀ {options : Options} {session after : Session}
    {written : Surface.Decl}
    {checked : CheckedDecl}, session.Reachable options →
      Check.decl written session = .ok checked after →
    ∃ kinds : TyVar → Kind,
      checked.Everywhere (Ty.ArgumentsKinded after.registry.declared? kinds) := by
  intro kinded
  have shown :
    gives (fun _ middle => gives (fun checked after => decide (after.registry.declared? ⟨2⟩ =
        some [.arrow (.arrow .star .star) .star, .arrow .star .star]) &&
      checked.definitions.any fun definition => decide (definition.scheme.ty =
        .nominal ⟨2⟩ [.quantified [⟨5⟩] (.tuple [.named ⟨3⟩, .var ⟨5⟩]), .named ⟨0⟩]))
      (Check.decl appliedPair middle)) (Check.decl appliedDecl (Session.start .standard)) =
        true := by cbv
  obtain ⟨checked, middle, declared, shown⟩ := exists_of_gives shown
  obtain ⟨checked', after, accepted, shown⟩ := exists_of_gives shown
  obtain ⟨kinds, shown⟩ := (Bool.and_eq_true _ _).mp shown
  obtain ⟨definition, member, same⟩ := List.any_eq_true.mp shown
  have same := of_decide_eq_true same
  have reachable : Reachable .standard middle := .decl .start appliedDecl (.inl ⟨checked, declared⟩)
  obtain ⟨assignment, everywhere⟩ := kinded reachable accepted
  have here := everywhere.definition member
  rw [same] at here
  obtain ⟨params, known, -, each⟩ := here ⟨2⟩ _ .here
  obtain rfl := Option.some.inj ((of_decide_eq_true kinds).symm.trans known)
  have bool := each (.named ⟨0⟩, .arrow .star .star) (by simp)
  cases bool

/-- Two types whose fields are boxes of functions that are quantified over a function on types and
over a type. -/
def giveDecl : Surface.Decl :=
  .data default [⟨default, "give", ["a"], [⟨default, "Give", [.app default (.name default "box")
      [.quantified default ["f"]
        (.arrow default (.app default (.name default "wrap") [.var default "f"])
        (.var default "a"))]]⟩]⟩,
    ⟨default, "take", ["a"], [⟨default, "Take", [.app default (.name default "box")
      [.quantified default ["g"] (.arrow default (.var default "a")
        (.app default (.name default "box") [.var default "g"]))]]⟩]⟩]

def takenGift : Surface.Decl :=
  .define default false [⟨default, "x", none, .lambda default
    [⟨default, .ctor default "Give" [.bind default "y"],
        .app default (.ident default "Take") (.ident default "y")⟩]⟩]

/-- Where a quantifier binds a function on types, its copy may be compared with the copy of a type
and leave the comparison; then one variable is an argument for both, although only names are
applied. -/
theorem copy_of_two_kinds : ¬ ∀ {options : Options} {session after : Session}
    {written : Surface.Decl}
    {checked : CheckedDecl}, session.NamesApplied options → written.AppliesNames →
    Check.decl written session = .ok checked after →
    ∃ kinds : TyVar → Kind,
      checked.Everywhere (Ty.ArgumentsKinded after.registry.declared? kinds) := by
  intro kinded
  have shown :
      gives (fun _ first => gives (fun _ second => gives (fun _ third => gives (fun checked after =>
        decide (after.registry.declared? ⟨2⟩ = some [.star] ∧
          after.registry.declared? ⟨3⟩ = some [.arrow .star .star]) &&
        checked.definitions.any fun definition => decide (definition.scheme.ty =
          .arrow (.nominal ⟨4⟩ [.nominal ⟨2⟩ [.var ⟨12⟩]])
            (.nominal ⟨5⟩ [.nominal ⟨3⟩ [.var ⟨12⟩]])))
      (Check.decl takenGift third)) (Check.decl giveDecl second)) (Check.decl wrapDecl first))
      (Check.decl boxDecl (Session.start .standard)) = true := by cbv
  obtain ⟨_, first, box, shown⟩ := exists_of_gives shown
  obtain ⟨_, second, wrap, shown⟩ := exists_of_gives shown
  obtain ⟨_, third, give, shown⟩ := exists_of_gives shown
  obtain ⟨checked, after, accepted, shown⟩ := exists_of_gives shown
  obtain ⟨declared, shown⟩ := (Bool.and_eq_true _ _).mp shown
  obtain ⟨definition, member, same⟩ := List.any_eq_true.mp shown
  obtain ⟨isBox, isWrap⟩ := of_decide_eq_true declared
  have same := of_decide_eq_true same
  have names : boxDecl.AppliesNames ∧ wrapDecl.AppliesNames ∧ giveDecl.AppliesNames ∧
      takenGift.AppliesNames := by
    simp [boxDecl, wrapDecl, giveDecl, takenGift, Surface.Decl.AppliesNames,
      Surface.TypeExpr.AllApplyNames, Surface.TypeExpr.AppliesNames,
      Surface.Expr.annotationsBindings, Surface.Expr.annotations, Surface.Expr.annotationsCases,
      Surface.Pattern.annotations, Surface.Pattern.annotationsAll]
  have applied : NamesApplied .standard third :=
    .accepted (.accepted (.accepted .start names.1 box) names.2.1 wrap) names.2.2.1 give
  obtain ⟨kinds, everywhere⟩ := kinded applied names.2.2.2 accepted
  have here := everywhere.definition member
  rw [same] at here
  have ofBox : kinds ⟨12⟩ = .star := by
    obtain ⟨params, known, -, each⟩ := here ⟨2⟩ [.var ⟨12⟩]
      (.child (Ty.part_of_children List.mem_cons_self) List.mem_cons_self)
    obtain rfl := Option.some.inj (isBox.symm.trans known)
    exact (each (.var ⟨12⟩, .star) List.mem_cons_self).var_inv
  have ofWrap : kinds ⟨12⟩ = .arrow .star .star := by
    obtain ⟨params, known, -, each⟩ := here ⟨3⟩ [.var ⟨12⟩]
      (.child (Ty.part_of_children (List.mem_cons_of_mem _ List.mem_cons_self)) List.mem_cons_self)
    obtain rfl := Option.some.inj (isWrap.symm.trans known)
    exact (each (.var ⟨12⟩, .arrow .star .star) List.mem_cons_self).var_inv
  cases ofBox.symm.trans ofWrap

end Counterexamples

end Session

end PolyCheck
