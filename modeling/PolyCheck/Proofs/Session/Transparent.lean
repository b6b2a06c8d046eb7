import PolyCheck.Proofs.Session.Readable
import PolyCheck.Proofs.Session.Tidy
import PolyCheck.Proofs.Subst.Hygiene

/-! Aliases are transparent: a written type is read as the same type as with the alias written out.
The alias is registered as a type that stands for the function that its body is, and a use of it is
read as that type, applied to what the arguments are read as. Reading catches no variable, as
parameters and quantifiers are read as variables of their own, so both types are the same lambda
term. Resolution renames no quantifier. As long as it catches no variable either, both types resolve
to the same type; where an alias gives its own quantified variable to another alias, they may
differ. -/
namespace PolyCheck

open Run Surface

namespace Session

variable {options : Options} {before aliased start session other read read' : Session} {name : Name}
  {params : List Name} {body written written' : TypeExpr} {checked : CheckedDecl} {span : Span}
    {ty ty' : Ty}
  {kind : Kind} {middle : Registry}

theorem Tidy.accepted_synonym (tidy : before.Tidy) (complete : body.Complete)
    (accepted : Check.decl (.synonym span name params body) before = .ok checked aliased) :
    ∃ middle ty kind, aliased.registry.types.get? name = some (.synonym ty kind) ∧
      Registry.Lengthened middle aliased.registry ∧
        Expands before.registry params body middle ty kind := by
  obtain ⟨found, reached, run, rfl, rfl⟩ := decl_eq_ok accepted
  obtain ⟨⟨⟩, last, ran, ended⟩ := bind_eq_ok.mp run
  obtain ⟨-, rfl⟩ := pure_eq_ok.mp ended
  obtain ⟨middle, ty, kind, same, -, expands⟩ := tidy.opened.synonym complete ran
  obtain ⟨⟨types, grows, ints⟩, orderly, equal, kinds⟩ := expands
  refine ⟨middle, ty, kind, ?_, ?_, ⟨types, grows, ints⟩, orderly, equal, kinds⟩
  · change last.registry.types.get? name = some (.synonym ty kind)
    rw [same, Registry.defineType, Registry.types_record, Table.get?_insert, if_pos rfl]
  · have defined : middle.Lengthened last.registry := by
      rw [same]
      exact (Registry.Lengthened.refl middle).of_tables (Registry.templates_record _ _)
        (Registry.ints_record _ _)
    exact defined.of_tables rfl rfl

theorem Tidy.kind?_later (tidy : before.Tidy) {later : Registry}
    (grows : before.registry.Grows later)
    (same : later.types.get? name = before.registry.types.get? name) :
    later.kind? name = before.registry.kind? name := by
  obtain ⟨sorting, -, -, sorted⟩ := tidy.settled
  rw [Registry.kind?, Registry.kind?, same]
  cases found : before.registry.types.get? name with
  | none => rfl
  | some entry =>
    cases entry with
    | synonym ty kind => rfl
    | data id =>
      obtain ⟨template, defined⟩ := sorted.data found
      simp only [defined, grows id template defined]

section Meaning

variable {later : Registry} (expands : Expands before.registry params body middle ty kind)
  (grows : middle.Grows later) (known : later.types.get? name = some (.synonym ty kind))
  (still : ∀ n ∈ body.typeNames, later.types.get? n = before.registry.types.get? n)
include expands grows known still

theorem Expands.hasKind (tidy : before.Tidy) :
    (Synonym.mk name params body).HasKind later.kind? := by
  obtain ⟨kinds, result, rfl, length, has⟩ := expands.kinds
  refine ⟨kinds, result, ?_, length, fun env => ?_⟩
  · rw [Registry.kind?]
    simp only [known]
  · refine (has env).congr (fun n member => (tidy.kind?_later ?_ (still n member)).symm)
      fun _ _ => rfl
    exact expands.grown.2.1.trans grows

theorem Expands.equals (tidy : before.Tidy)
    (ints : ∀ {width id}, middle.ints.get? width = some id → later.ints.get? width = some id)
    {names : Name → Lambda} (stands : Interprets names later.meaning?) :
    (Synonym.mk name params body).Equals names := by
  intro env
  obtain ⟨first, -, stood⟩ :=
    exists_names middle.meaning? fun known => (tidy.meaning expands.grown known).2.2
  -- Integers that were not there when the body was read have no meaning yet, and any will do.
  let names' : Name → Lambda := fun n => if (middle.meaning? n).isSome then first n else names n
  have stands' : Interprets names' middle.meaning? := by
    intro n ty kind found terms
    simp only [names', found, Option.isSome_some, if_true]
    exact stood found terms
  have meant : later.meaning? name = some (ty, kind) := by
    rw [Registry.meaning?]
    simp only [known]
  have equal := expands.equal stands' (fun _ => .atom .arrow) env
  rw [stands meant] at equal
  have same : ∀ n ∈ body.typeNames, names' n = names n := by
    intro n member
    cases found : middle.meaning? n with
    | none => simp [names', found]
    | some meaning =>
      have types : later.types.get? n = middle.types.get? n := by
        rw [still n member, expands.grown.1]
      have kept := Registry.meaning?_later types grows ints found
      exact (stands' found fun _ => .atom .arrow).symm.trans (stands kept _)
  rwa [TypeExpr.lambda_congr same fun _ _ => rfl] at equal

end Meaning

theorem growing_isNew (size : Nat) : Growing fun subst _ => ∀ v : TyVar, size ≤ v.index →
    (subst.cell v).IsNew where
  push {subst _ cell} isNew each v outside := by
    rw [Subst.cell_push]
    split
    · exact isNew
    · exact each v outside
  int _ each := each

/-- What a written type has been read as, where its free names stand for new variables: the type is
the term that is written, it has values, and all its variables are unsolved. -/
structure Means (session read : Session) (written : TypeExpr) (ty : Ty) (made : List TypeBinding) :
    Prop where
  once : (made.map (·.var)).Nodup
  new : ∀ v ∈ made.map (·.var), session.subst.size ≤ v.index
  equal : ∀ {names : Name → Lambda}, Interprets names read.registry.meaning? → ∀ {terms env},
    (∀ {name binding}, made.find? (·.name = name) = some binding → env name = terms binding.var) →
      Lambda.Equal (ty.lambda terms) (written.lambda names env)
  kinds : ∃ rates, written.Kinds session.registry.kind? rates .star
  ends : read.subst.LinksEnd
  shown : read.subst.Shown ty

theorem here_forUse {ledger : Ledger} {sorting : Sorting false} {registry : Registry}
    (closed : sorting.Closed) : Elaborate.Here [] (ledger, sorting, registry) .forUse := by
  refine ⟨⟨rfl, List.forall_mem_nil _, List.nodup_nil⟩, closed.table.symm,
    closed.table ▸ KindTable.tame_empty, List.forall_mem_nil _, fun {made} same => ?_⟩
  obtain rfl := Option.some.inj same
  exact List.forall_mem_nil _

theorem Tidy.reads (tidy : session.Tidy) (complete : written.Complete)
    (run : Check.writtenType written session = .ok ty read) : ∃ made,
      Means session read written ty made := by
  obtain ⟨sorting, closed, around⟩ := tidy.around
  obtain ⟨base, world, inPlay⟩ := tidy.inPlay
  obtain ⟨later, -, inPlay', owns⟩ :=
    (Check.reaches_writtenType (fun _ _ _ => trivial) written).ok inPlay run
  have isNew := (Elaborate.steady_starType (growing_isNew session.subst.size) written).run' .forUse
  have isNew := isNew.keeps session fun v outside => by
    rw [Subst.cell_of_size_le outside]
    trivial
  unfold Check.writtenType at run
  rw [run] at isNew
  obtain ⟨⟨found, last⟩, ran, rfl⟩ := map_eq_ok.mp run
  obtain ⟨insight, grown, around', reads⟩ :=
    (Elaborate.read_starType complete (here_forUse closed)).ok around ran
  have there : insight.2.2 = read.registry := around'.2.2.symm
  have grown' : session.registry ≤ read.registry := there ▸ grown.2.2
  have names := reads.here.names
  have free : ∀ {v}, insight.1.Free v → session.subst.size ≤ v.index := fun {v} free =>
    Nat.le_of_not_lt fun old => free.2 (grown.1.2.1 v old)
  have scope : last.scope = [] := names.same
  have all : last.scope ++ last.free.getD [] = last.free.getD [] := by rw [scope, List.nil_append]
  have means : ∀ {names : Name → Lambda}, Interprets names read.registry.meaning? → ∀ {terms env},
    (∀ {name binding},
        (last.free.getD []).find? (·.name = name) = some binding → env name = terms binding.var) →
      ∃ rates, Elaborate.View.Reads ⟨names, session.registry.kind?, terms, env, last.kinds.defaults,
        rates⟩ written (ty, .star) := by
    intro names stands terms env same
    let rates : Name → Kind := fun name =>
      ((last.free.getD []).find? (·.name = name)).elim .star (·.kind.under last.kinds.defaults)
    refine ⟨rates, reads.reads ⟨fun known => tidy.fits_name grown' stands _ (there ▸ known), ?_,
      fun {name binding} known => ?_⟩⟩
    · rw [reads.here.kinds.table]
      exact reads.here.kinds.tame.satisfiedBy_defaults
    · rw [Elaborator.binding?, all] at known
      refine ⟨same known, ?_⟩
      simp only [rates, known, Option.elim_some]
  obtain ⟨first, -, stands⟩ := exists_names read.registry.meaning? fun known =>
    (tidy.meaning grown' known).2.2
  obtain ⟨rates, somehow⟩ :=
    @means _ stands (fun _ => .atom .arrow) (fun _ => .atom .arrow) fun {_ _} _ => rfl
  refine ⟨last.free.getD [], all ▸ names.once,
    fun v member => free (names.free v (all.symm ▸ member)),
    fun {_} stands {_ _} same => (means stands same).choose_spec.equal, ⟨rates, somehow.kinds⟩,
      inPlay'.subst.ends,
    somehow.orderly, ?_⟩
  refine (owns.and reads.shown.confined).mono (fun v both => ?_) fun v both =>
    isNew.1 v (free both.2)
  obtain ⟨name, cell⟩ := inPlay'.subst.rigid both.1
  rw [cell]
  exact Cell.isNew_rigid name

theorem Tidy.exists_read (tidy : session.Tidy) (complete : written.Complete) {rates : Name → Kind}
    (has : written.Kinds session.registry.kind? rates .star) :
    ∃ ty read, Check.writtenType written session = .ok ty read := by
  obtain ⟨sorting, closed, around⟩ := tidy.around
  have rated : Elaborate.Rated rates rates (fun _ => .star) .forUse := by
    refine ⟨fun index kind known => ?_, fun known => ?_, fun known => ?_, fun _ => rfl, rfl⟩
    · cases known
    · cases known
    · cases known
  obtain ⟨ty, last, read, _, ran, -⟩ :=
    Elaborate.succeeds_starType complete (here_forUse closed) around rated has
  exact ⟨ty, read, map_eq_ok.mpr ⟨_, ran, rfl⟩⟩

/-- Two names stand for the same in one unit, where integers of a width are the same definition. -/
theorem Within.meaning?_eq (tidy : start.Tidy) (inside : Within start read)
    (inside' : Within start read')
    (ints : ∀ {width id id'}, read.registry.ints.get? width = some id →
      read'.registry.ints.get? width = some id' → id = id')
    {meaning meaning' : Ty × Kind} (known : read.registry.meaning? name = some meaning)
    (known' : read'.registry.meaning? name = some meaning') : meaning = meaning' := by
  obtain ⟨sorting, -, -, sorted⟩ := tidy.settled
  rw [Registry.meaning?, inside.tables.1] at known
  rw [Registry.meaning?, inside'.tables.1] at known'
  cases found : start.registry.types.get? name with
  | none =>
    simp only [found] at known known'
    obtain ⟨width, spelled, known⟩ := Option.bind_eq_some_iff.mp known
    obtain ⟨id, there, rfl⟩ := Option.map_eq_some_iff.mp known
    obtain ⟨width', spelled', known'⟩ := Option.bind_eq_some_iff.mp known'
    obtain ⟨id', there', rfl⟩ := Option.map_eq_some_iff.mp known'
    obtain rfl := Option.some.inj (spelled.symm.trans spelled')
    rw [ints there there']
  | some entry =>
    cases entry with
    | synonym ty kind =>
      simp only [found] at known known'
      exact Option.some.inj (known.symm.trans known')
    | data id =>
      obtain ⟨template, defined⟩ := sorted.data found
      simp only [found, inside.tables.2.1 id template defined,
        inside'.tables.2.1 id template defined] at known known'
      exact Option.some.inj (known.symm.trans known')

section Names

variable {made made' : List TypeBinding} {n m : Name} {v w : TyVar}

def StandsFor (made : List TypeBinding) (n : Name) (v : TyVar) : Prop :=
  ∃ binding, made.find? (·.name = n) = some binding ∧ binding.var = v

/-- Variables that the same free name has been read as. -/
def Corresponds (made made' : List TypeBinding) (v w : TyVar) : Prop :=
  ∃ n, StandsFor made n v ∧ StandsFor made' n w

theorem StandsFor.var_eq (first : StandsFor made n v) (second : StandsFor made n w) : v = w := by
  obtain ⟨binding, found, rfl⟩ := first
  obtain ⟨binding', found', rfl⟩ := second
  rw [Option.some.inj (found.symm.trans found')]

theorem StandsFor.name_eq (once : (made.map (·.var)).Nodup) (first : StandsFor made n v)
    (second : StandsFor made m v) : n = m := by
  obtain ⟨binding, found, same⟩ := first
  obtain ⟨binding', found', same'⟩ := second
  obtain rfl :=
    List.inj_on_of_nodup_map once (List.mem_of_find?_eq_some found)
      (List.mem_of_find?_eq_some found') (same.trans same'.symm)
  have named : binding.name = n := by simpa using List.find?_some found
  have named' : binding.name = m := by simpa using List.find?_some found'
  exact named.symm.trans named'

theorem StandsFor.mem (stands : StandsFor made n v) : v ∈ made.map (·.var) := by
  obtain ⟨binding, found, rfl⟩ := stands
  exact List.mem_map_of_mem (List.mem_of_find?_eq_some found)

theorem biUnique_corresponds (once : (made.map (·.var)).Nodup) (once' : (made'.map (·.var)).Nodup) :
    Relator.BiUnique (Corresponds made made') := by
  refine ⟨fun v w v' first second => ?_, fun v w w' first second => ?_⟩
  · obtain ⟨n, left, right⟩ := first
    obtain ⟨m, left', right'⟩ := second
    obtain rfl := right.name_eq once' right'
    exact left.var_eq left'
  · obtain ⟨n, left, right⟩ := first
    obtain ⟨m, left', right'⟩ := second
    obtain rfl := left.name_eq once left'
    exact right.var_eq right'

theorem exists_leaves (once : (made.map (·.var)).Nodup) {parity : Nat} (two : parity < 2) :
    ∃ terms : TyVar → Lambda,
    (∀ v, (terms v).IsLeaf) ∧ (∀ {v n}, terms v = .atom (.named n) ↔ StandsFor made n v) ∧
      ∀ {v index}, terms v = .var index → index % 2 = parity := by
  classical
  refine ⟨fun v => if known : ∃ n, StandsFor made n v then .atom (.named known.choose) else .var
    (2 * v.index + parity), fun v => ?_, fun {v n} => ?_, fun {v index} same => ?_⟩
  · dsimp only
    split
    · exact .named _
    · exact .var _
  · by_cases known : ∃ n, StandsFor made n v
    · simp only [dif_pos known, Lambda.atom.injEq, Label.named.injEq]
      exact ⟨fun same => same ▸ known.choose_spec,
        fun stands => known.choose_spec.name_eq once stands⟩
    · simp only [dif_neg known]
      refine ⟨fun same => ?_, fun stands => absurd ⟨n, stands⟩ known⟩
      cases same
  · dsimp only at same
    split at same
    · cases same
    · obtain rfl := Lambda.var.inj same
      omega

end Names

section Readings

variable {made made' : List TypeBinding} (means : Means session read written ty made)
  (means' : Means other read' written' ty' made')
include means means'

/-- A type with the alias written out is the same term, where free names stand for variables that
correspond. -/
theorem Means.equal_expanded {used : Synonym} {names : Name → Lambda} (fixed : Fixed names)
    (equals : used.Equals names)
    (stands : Interprets names read.registry.meaning?)
    (stands' : Interprets names read'.registry.meaning?)
    (expands : written.Expands used written') {terms terms' : TyVar → Lambda}
    (agree : ∀ {v w}, Corresponds made made' v w → terms v = terms' w) :
    (ty.lambda terms).Equal (ty'.lambda terms') := by
  let env : Name → Lambda := fun n => ((made.find? (·.name = n)).map (terms ·.var)).getD
    (((made'.find? (·.name = n)).map (terms' ·.var)).getD (.atom .arrow))
  have left := means.equal stands fun {n binding} found => show env n = terms binding.var by
    simp [env, found]
  have right := means'.equal stands' fun {n binding} found => show env n = terms' binding.var by
    cases found' : made.find? (·.name = n) with
    | none => simp [env, found', found]
    | some binding' =>
      have same := agree ⟨n, ⟨binding', found', rfl⟩, binding, found, rfl⟩
      simp [env, found', same]
  have only : ∀ synonym, some used = some synonym → synonym.Equals names :=
    fun synonym same => Option.some.inj same ▸ equals
  have becomes := expands.lambda fixed only fun v _ => (rfl : env v = env v)
  exact (left.trans becomes).trans right.symm

/-- Types that are the same term, where free names stand for variables that correspond, resolve to
the same type. -/
theorem Means.alike {result result' : Ty}
    (equal : ∀ {terms terms' : TyVar → Lambda},
      (∀ {v w}, Corresponds made made' v w → terms v = terms' w) →
      (ty.lambda terms).Equal (ty'.lambda terms'))
    (hygienic : read.subst.Hygienic ty) (hygienic' : read'.subst.Hygienic ty')
    (zonks : read.subst.Zonks ty result)
    (zonks' : read'.subst.Zonks ty' result') :
      Ty.Alike (Corresponds made made') result result' := by
  -- Variables of one type that no name stands for are told from those of the other type by their
  -- parity.
  obtain ⟨terms, leaves, named, even⟩ := exists_leaves means.once Nat.two_pos
  obtain ⟨terms', leaves', named', odd⟩ := exists_leaves means'.once Nat.one_lt_two
  have agree : ∀ {v w}, Corresponds made made' v w → terms v = terms' w := by
    rintro v w ⟨n, left, right⟩
    exact (named.mpr left).trans (named'.mpr right).symm
  refine (hygienic.alike means.ends means'.ends hygienic' means.shown means'.shown zonks zonks'
    leaves leaves' (equal agree)).mono fun v w same => ?_
  have isLeaf := leaves v
  cases leaf : terms v with
  | var index =>
    have parity := even leaf
    rw [odd (same.symm.trans leaf)] at parity
    cases parity
  | atom label =>
    rw [leaf] at isLeaf
    cases isLeaf with
    | named n => exact ⟨n, named.mp leaf, named'.mp (same.symm.trans leaf)⟩
  | app _ _ | lam _ _ =>
    rw [leaf] at isLeaf
    cases isLeaf

end Readings

/-- Where a type that uses an alias can be read, the type with the alias written out can be read
too, anywhere in the unit, if the names in the alias mean what they meant to it. Both are the same
lambda term, if integers of one width are the same definition, as they are when one type is read
some time after the other; and both resolve to the same type, up to new variables and the names of
what quantifiers bind, as long as resolution catches no variable. -/
theorem aliases_transparent (units : Complete options before) (complete : body.Complete)
    (accepted : Check.decl (.synonym span name params body) before = .ok checked aliased)
    (further : After aliased start)
    (same : start.registry.types.get? name = aliased.registry.types.get? name)
    (still : ∀ n ∈ body.typeNames, start.registry.types.get? n = before.registry.types.get? n)
    (inside : Within start session) (inside' : Within start other) (complete' : written.Complete)
    (expands : written.Expands ⟨name, params, body⟩ written')
    (run : Check.writtenType written session = .ok ty read) :
    ∃ ty' read', Check.writtenType written' other = .ok ty' read' ∧
      ((∀ {width id id'}, read.registry.ints.get? width = some id →
          read'.registry.ints.get? width = some id' → id = id') →
        ∃ related : TyVar → TyVar → Prop, Relator.BiUnique related ∧
          (∀ {v w}, related v w → session.subst.size ≤ v.index ∧ other.subst.size ≤ w.index) ∧
          (∀ {terms terms'}, (∀ {v w}, related v w → terms v = terms' w) →
            (ty.lambda terms).Equal (ty'.lambda terms')) ∧
          ∀ {result result'}, read.subst.Hygienic ty → read'.subst.Hygienic ty' →
            read.subst.Zonks ty result →
            read'.subst.Zonks ty' result' → Ty.Alike related result result') := by
  have tidy := units.tidy
  have declared : (Decl.synonym span name params body).Complete := complete
  have all : Complete options aliased := .accepted units declared accepted
  have start_tidy := (all.further further).tidy
  obtain ⟨middle, synonym, kind, registered, longer, expanded⟩ :=
    tidy.accepted_synonym complete accepted
  have longer := longer.trans (further.lengthened all)
  obtain ⟨sorting, -, -, sorted⟩ := start_tidy.settled
  obtain ⟨made, means⟩ := inside.tidy.reads complete' run
  have registered := same.trans registered
  have only : ∀ used, some (Synonym.mk name params body) = some used →
      used = ⟨name, params, body⟩ := fun used same =>
    (Option.some.inj same).symm
  -- The type with the alias written out has the same kind, so it can be read.
  have hasKind := expanded.hasKind longer.grows registered still tidy
  obtain ⟨rates, has⟩ := means.kinds
  rw [sorted.kind?_le inside.tables] at has
  have has' : written'.Kinds other.registry.kind? rates .star := by
    rw [sorted.kind?_le inside'.tables]
    exact expands.kinds (fun used same => only used same ▸ hasKind) has fun _ _ => rfl
  have closed := expands.complete complete' (fun used same => only used same ▸ complete)
    fun _ => trivial
  obtain ⟨ty', read', run'⟩ := inside'.tidy.exists_read closed has'
  obtain ⟨made', means'⟩ := inside'.tidy.reads closed run'
  refine ⟨ty', read', run',
    fun ints => ⟨Corresponds made made', biUnique_corresponds means.once means'.once, ?_⟩⟩
  have atRead := inside.reads run
  have atRead' := inside'.reads run'
  -- Both readings agree on what type names stand for, and there the alias stands for its body.
  obtain ⟨names, fixed, stands⟩ :=
    exists_names (fun n => (read.registry.meaning? n).or (read'.registry.meaning? n))
    fun {n ty kind} known => by
      rcases Option.or_eq_some_iff.mp known with known | ⟨-, known⟩
      · exact (atRead.tidy.meaning le_rfl known).2.2
      · exact (atRead'.tidy.meaning le_rfl known).2.2
  have first : Interprets names read.registry.meaning? := by
    intro n ty kind known
    exact stands (Option.or_eq_some_iff.mpr (.inl known))
  have second : Interprets names read'.registry.meaning? := by
    intro n ty kind known
    have either : (read.registry.meaning? n).or (read'.registry.meaning? n) = some (ty, kind) := by
      cases known' : read.registry.meaning? n with
      | none => exact known
      | some meaning =>
        exact congrArg some (Within.meaning?_eq start_tidy atRead atRead' ints known' known)
    exact stands either
  have equals : (Synonym.mk name params body).Equals names := by
    have types := atRead.tables.1
    exact expanded.equals (longer.grows.trans atRead.tables.2.1) (types ▸ registered)
      (types ▸ still) tidy (fun {_ _} known => atRead.tables.2.2 (longer.ints known)) first
  have equal : ∀ {terms terms'}, (∀ {v w}, Corresponds made made' v w → terms v = terms' w) →
      (ty.lambda terms).Equal (ty'.lambda terms') :=
        means.equal_expanded means' fixed equals first second expands
  refine ⟨fun {v w} both => ?_, equal, means.alike means' equal⟩
  obtain ⟨n, left, right⟩ := both
  exact ⟨means.new v left.mem, means'.new w right.mem⟩

def pairAlias : Surface.Decl :=
  .synonym default "pair" ["x"] (.tuple default [.var default "x", .var default "x"])

def callBody : Surface.TypeExpr := .app default (.var default "f") [.var default "x"]

/-- The annotations `call pair a` and `pair a`. -/
def calledPair : Surface.TypeExpr :=
  .app default (.name default "call") [.name default "pair", .var default "a"]

def pairOfA : Surface.TypeExpr := .app default (.name default "pair") [.var default "a"]

theorem expands_calledPair : calledPair.Expands ⟨"call", ["f", "x"], callBody⟩ pairOfA := by
  have uses : TypeExpr.Applied "call" calledPair [.name default "pair", .var default "a"] :=
    .app _ (.name _) _
  have each : ∀ pair ∈ [Surface.TypeExpr.name default "pair", .var default "a"].zip
      [.name default "pair", .var default "a"],
      TypeExpr.Expands ⟨"call", ["f", "x"], callBody⟩ pair.1 pair.2 :=
    List.forall_mem_cons.mpr ⟨.name _ _ _, List.forall_mem_singleton.mpr (.renamed _ _ rfl)⟩
  have filled : TypeExpr.Becomes none
    (given ["f", "x"] [.type (.name default "pair"), .type (.var default "a")] .name)
      callBody pairOfA :=
        .app _ _ (.replaced _ rfl) rfl (List.forall_mem_singleton.mpr (.replaced _ rfl))
  exact .use default uses le_rfl rfl each filled

theorem pair_redex {subst : Subst} {x v : TyVar} (param : subst.Normal (.var x))
    (arg : subst.Normal (.var v)) :
    subst.Hygienic (.app (.quantified [x] (.tuple [.var x, .var x])) [.var v]) ∧
      subst.Zonks (.app (.quantified [x] (.tuple [.var x, .var x])) [.var v])
      (.tuple [.var v, .var v]) := by
  have clear : (Ty.tuple [.var x, .var x]).Clear (.ofLists [x] [.var v]) :=
    .tuple (List.forall_mem_cons.mpr ⟨.var x, List.forall_mem_singleton.mpr (.var x)⟩)
  have takes : (Ty.quantified [x] (.tuple [.var x, .var x])).Takes [.var v] :=
    .enough (List.cons_ne_nil _ _) le_rfl clear (.none _)
  have applied : (Ty.quantified [x] (.tuple [.var x, .var x])).apply [.var v] =
      .tuple [.var v, .var v] := by
    simp [Ty.apply, Ty.substitute, Ty.substituteAll, Assignment.ofLists]
  have both : ∀ {w : TyVar}, subst.Normal (.var w) → subst.Normal (.tuple [.var w, .var w]) :=
      fun normal =>
    .tuple (List.forall_mem_cons.mpr ⟨normal, List.forall_mem_singleton.mpr normal⟩)
  have reduct : subst.Normal ((Ty.quantified [x] (.tuple [.var x, .var x])).apply [.var v]) :=
    applied ▸ both arg
  have head : subst.Shallows (.app (.quantified [x] (.tuple [.var x, .var x])) [.var v])
      (.tuple [.var v, .var v]) :=
    ⟨3, applied ▸ reduct.shallowWithin 0⟩
  have part : subst.Zonks (.var v) (.var v) := ⟨_, arg.zonkWithin le_rfl⟩
  exact ⟨Subst.hygienic_redex (both param).quantified takes reduct,
    (Subst.zonks_of_head head).mpr (.tuple (.cons part (.cons part .nil)))⟩

/-- `call pair a`, where `call f x` is an alias for `f x`, is the type `pair a`, and both resolve to
a pair. -/
theorem calledPair_transparent : ∃ before checked aliased ty read ty' read',
    Check.decl (.synonym default "call" ["f", "x"] callBody) before = .ok checked aliased ∧
      Check.writtenType calledPair aliased = .ok ty read ∧
        Check.writtenType pairOfA read = .ok ty' read' ∧
        ∃ related : TyVar → TyVar → Prop, Relator.BiUnique related ∧
          ∃ v w, read.subst.Zonks ty (.tuple [.var v, .var v]) ∧ read'.subst.Zonks ty'
          (.tuple [.var w, .var w]) ∧
            Ty.Alike related (.tuple [.var v, .var v]) (.tuple [.var w, .var w]) := by
  have shown : gives (fun _ before => gives (fun _ aliased => gives (fun ty read =>
      decide (ty = .app (.quantified [⟨0⟩] (.tuple [.var ⟨0⟩, .var ⟨0⟩])) [.var ⟨3⟩] ∧
        read.subst.cell ⟨0⟩ = .rigid "x" ∧ read.subst.cell ⟨3⟩ = .unbound) &&
      gives (fun ty' read' => decide (ty' = .tuple [.var ⟨4⟩, .var ⟨4⟩] ∧
          read'.subst.cell ⟨4⟩ = .unbound))
        (Check.writtenType pairOfA read)) (Check.writtenType calledPair aliased))
      (Check.decl (.synonym default "call" ["f", "x"] callBody) before))
      (Check.decl pairAlias (Session.start .standard)) = true := by cbv
  obtain ⟨_, before, declared, shown⟩ := exists_of_gives shown
  obtain ⟨checked, aliased, accepted, shown⟩ := exists_of_gives shown
  obtain ⟨_, read, run, shown⟩ := exists_of_gives shown
  obtain ⟨called, filled⟩ := Bool.and_eq_true_iff.mp shown
  obtain ⟨rfl, param, unsolved⟩ := of_decide_eq_true called
  obtain ⟨_, read', run', filled⟩ := exists_of_gives filled
  obtain ⟨rfl, unsolved'⟩ := of_decide_eq_true filled
  have pair : pairAlias.Complete := ⟨trivial, trivial, trivial⟩
  have call : callBody.Complete := ⟨trivial, trivial, trivial⟩
  have used : calledPair.Complete := ⟨trivial, trivial, trivial, trivial⟩
  have declared' : (Surface.Decl.synonym default "call" ["f", "x"] callBody).Complete := call
  have units : Complete .standard before := .accepted .start pair declared
  have inside := (Complete.accepted units declared' accepted).tidy.within
  obtain ⟨_, _, again, alike⟩ :=
    aliases_transparent units call accepted .here rfl (List.forall_mem_nil _) inside
    (inside.reads run) used expands_calledPair run
  obtain ⟨rfl, rfl⟩ := EStateM.Result.ok.inj (run'.symm.trans again)
  have later : Within read read' := (inside.reads run).tidy.within.reads run'
  obtain ⟨related, unique, -, -, alike⟩ := alike fun {_ _ _} known known' =>
    Option.some.inj ((later.tables.2.2 known).symm.trans known')
  have param : (read.subst.cell ⟨0⟩).IsNew := param ▸ trivial
  have unsolved : (read.subst.cell ⟨3⟩).IsNew := unsolved ▸ trivial
  have unsolved' : (read'.subst.cell ⟨4⟩).IsNew := unsolved' ▸ trivial
  obtain ⟨hygienic, zonks⟩ := pair_redex (.var param) (.var unsolved)
  have normal : read'.subst.Normal (.var ⟨4⟩) := .var unsolved'
  have normal' : read'.subst.Normal (.tuple [.var ⟨4⟩, .var ⟨4⟩]) :=
    .tuple (List.forall_mem_cons.mpr ⟨normal, List.forall_mem_singleton.mpr normal⟩)
  have zonks' : read'.subst.Zonks (.tuple [.var ⟨4⟩, .var ⟨4⟩]) (.tuple [.var ⟨4⟩, .var ⟨4⟩]) :=
    ⟨_, normal'.zonkWithin le_rfl⟩
  exact ⟨before, checked, aliased, _, read, _, read', accepted, run, run', related, unique, ⟨3⟩,
    ⟨4⟩, zonks, zonks', alike hygienic normal'.hygienic zonks zonks'⟩

def everyBody : Surface.TypeExpr :=
  .quantified default ["b"] (.app default (.var default "f") [.var default "b"])

def couple : Surface.Decl :=
  .synonym default "pair" ["x", "y"] (.tuple default [.var default "x", .var default "y"])

def rowAlias : Surface.Decl :=
  .synonym default "row" ["x"]
    (.app default (.name default "every") [.app default (.name default "pair") [.var default "x"]])

def everyRow : Surface.TypeExpr := .app default (.name default "every") [.name default "row"]

def rowOfAny : Surface.TypeExpr :=
  .quantified default ["b"] (.app default (.name default "row") [.var default "b"])

theorem expands_everyRow : everyRow.Expands ⟨"every", ["f"], everyBody⟩ rowOfAny := by
  have uses : TypeExpr.Applied "every" everyRow [.name default "row"] := .app _ (.name _) _
  have each : ∀ pair ∈ [Surface.TypeExpr.name default "row"].zip [.name default "row"],
      TypeExpr.Expands ⟨"every", ["f"], everyBody⟩ pair.1 pair.2 :=
        List.forall_mem_singleton.mpr (.name _ _ _)
  have filled : TypeExpr.Becomes none (given ["f"] [.type (.name default "row")] .name) everyBody
      rowOfAny := by
    refine .quantified _ _ rfl (List.nodup_singleton _) (fun name member other v free => ?_) ?_
    · obtain rfl : name = "f" := (List.mem_pair.mp member).resolve_right fun same =>
        other (List.mem_singleton.mpr same)
      cases free
    · exact .app _ _ (.replaced _ rfl) rfl (List.forall_mem_singleton.mpr (.renamed _ _ rfl))
  exact .use default uses le_rfl rfl each filled

/-- Where an alias stands for a quantified type over an application of its parameter, resolution may
give another alias a variable that the body of that alias quantifies: `every row` resolves to
`forall b. forall b. (b, b)`, and `forall b. row b` to `forall a. forall b. (a, b)`. -/
theorem nested_alias_caught :
    ¬ ∀ {options : Options} {before aliased start session other read read' : Session}
    {name : Name} {params : List Name} {body written written' : TypeExpr} {checked : CheckedDecl}
    {span : Span}
    {ty ty' result result' : Ty}, Complete options before → body.Complete →
      Check.decl (.synonym span name params body) before = .ok checked aliased →
        After aliased start →
      start.registry.types.get? name = aliased.registry.types.get? name →
      (∀ n ∈ body.typeNames, start.registry.types.get? n = before.registry.types.get? n) →
        Within start session →
      Within start other → written.Complete → written.Expands ⟨name, params, body⟩ written' →
      Check.writtenType written session = .ok ty read → Check.writtenType written' other =
        .ok ty' read' →
      (∀ {width id id'}, read.registry.ints.get? width = some id →
        read'.registry.ints.get? width = some id' → id = id') →
      read.subst.Zonks ty result → read'.subst.Zonks ty' result' →
      ∃ related : TyVar → TyVar → Prop, Ty.Alike related result result' := by
  intro transparent
  have shown :
      gives (fun _ aliased => gives (fun _ middle => gives (fun _ start => gives (fun ty read =>
      decide (read.subst.zonkWithin 6 ty =
        some (.quantified [⟨1⟩] (.quantified [⟨1⟩] (.tuple [.var ⟨1⟩, .var ⟨1⟩]))) ∧
        start.registry.types.get? "every" = aliased.registry.types.get? "every") &&
      gives (fun ty' read' =>
        decide (read'.subst.zonkWithin 6 ty' =
          some (.quantified [⟨5⟩] (.quantified [⟨1⟩] (.tuple [.var ⟨5⟩, .var ⟨1⟩])))))
        (Check.writtenType rowOfAny read)) (Check.writtenType everyRow start))
      (Check.decl rowAlias middle)) (Check.decl couple aliased))
      (Check.decl (.synonym default "every" ["f"] everyBody) (Session.start .standard)) =
        true := by cbv
  obtain ⟨checked, aliased, accepted, shown⟩ := exists_of_gives shown
  obtain ⟨_, middle, second, shown⟩ := exists_of_gives shown
  obtain ⟨_, start, third, shown⟩ := exists_of_gives shown
  obtain ⟨ty, read, run, shown⟩ := exists_of_gives shown
  obtain ⟨resolved, shown⟩ := Bool.and_eq_true_iff.mp shown
  obtain ⟨resolved, same⟩ := of_decide_eq_true resolved
  obtain ⟨ty', read', run', resolved'⟩ := exists_of_gives shown
  have resolved' := of_decide_eq_true resolved'
  have every : everyBody.Complete := ⟨trivial, trivial, trivial⟩
  have declared : (Surface.Decl.synonym default "every" ["f"] everyBody).Complete := every
  have pair : couple.Complete := ⟨trivial, trivial, trivial⟩
  have row : rowAlias.Complete := ⟨trivial, ⟨trivial, trivial, trivial⟩, trivial⟩
  have used : everyRow.Complete := ⟨trivial, trivial, trivial⟩
  have all : Complete .standard aliased := .accepted .start declared accepted
  have further : After aliased start := .accepted (.accepted .here pair second) row third
  have inside := (all.further further).tidy.within
  have later : Within read read' := (inside.reads run).tidy.within.reads run'
  obtain ⟨related, alike⟩ :=
    transparent .start every accepted further same (List.forall_mem_nil _) inside
    (inside.reads run) used expands_everyRow run run'
    (fun {_ _ _} known known' => Option.some.inj ((later.tables.2.2 known).symm.trans known'))
      ⟨6, resolved⟩
    ⟨6, resolved'⟩
  -- The first component is bound by the inner quantifier on the one side and by the outer one on
  -- the other.
  cases alike with
  | quantified _ inside =>
    cases inside with
    | quantified _ inside =>
      cases inside with
      | tuple _ each =>
        have first := each (.var ⟨1⟩, .var ⟨5⟩) List.mem_cons_self
        cases first with
        | var bound =>
          rcases bound with ⟨-, inner, -⟩ | ⟨inner, -⟩
          · exact absurd inner (by decide)
          · exact inner (List.mem_singleton_self _)

end Session

end PolyCheck
