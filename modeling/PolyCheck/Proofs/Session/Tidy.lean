import PolyCheck.Proofs.Session.Application
import PolyCheck.Proofs.Session.Committed
import PolyCheck.Proofs.Session.KindSound
import PolyCheck.Proofs.Session.Meanings

/-! Tables in order. Definitions bind their parameters once and aliases are types whose quantifiers
are in order, so every type name stands for a closed type, in every session that units without holes
lead to and inside of such units. An accepted alias stands for the function that its body is, and
has the kind of that function. -/
namespace PolyCheck

open Run Surface

/-- Definitions bind each parameter once, and the quantifiers of aliases are in order. -/
structure Registry.Ordered (registry : Registry) : Prop where
  params : ∀ {id template}, registry.template? id = some template → template.paramVars.Nodup
  synonym : ∀ {name ty kind}, registry.types.get? name = some (.synonym ty kind) → ty.Orderly

namespace Registry.Ordered

variable {registry after : Registry} {template : Template}

theorem of_tables (ordered : registry.Ordered) (templates : after.templates = registry.templates)
    (types : after.types = registry.types) : after.Ordered where
  params known := by
    rw [template?, templates] at known
    exact ordered.params known
  synonym known := ordered.synonym (types ▸ known)

theorem alloc (ordered : registry.Ordered) (once : template.paramVars.Nodup) :
    (registry.alloc template).2.Ordered where
  params known := by
    rw [template?_alloc] at known
    split at known
    · exact Option.some.inj known ▸ once
    · exact ordered.params known
  synonym := ordered.synonym

theorem defineType (ordered : registry.Ordered) (name : Name) {meaning : TypeDef}
    (made : ∀ {ty kind}, meaning = .synonym ty kind → ty.Orderly) :
    (registry.defineType name meaning).Ordered where
  params known := by
    rw [Registry.defineType, template?_record] at known
    exact ordered.params known
  synonym known := by
    rw [Registry.defineType, types_record, Table.get?_insert] at known
    split at known
    · exact made (Option.some.inj known)
    · exact ordered.synonym known

theorem intTemplate (ordered : registry.Ordered) (width : Nat) :
    (registry.intTemplate width).2.Ordered := by
  cases known : registry.ints.get? width with
  | some id => rwa [intTemplate_of_some known]
  | none =>
    rw [intTemplate_of_none known]
    have made : (Template.ofBuiltin ("i" ++ toString width) (.int width)).paramVars.Nodup :=
      List.nodup_nil
    exact (ordered.alloc made).of_tables (templates_record _ _) (types_record _ _)

end Registry.Ordered

structure Registry.Lengthened (base registry : Registry) : Prop where
  size_le : base.templates.size ≤ registry.templates.size
  grows : base.Grows registry
  ints : ∀ {width id}, base.ints.get? width = some id → registry.ints.get? width = some id

namespace Registry.Lengthened

variable {base registry after : Registry}

theorem refl (base : Registry) : base.Lengthened base := ⟨le_rfl, grows_refl base, id⟩

theorem trans {middle : Registry} (first : base.Lengthened middle)
    (second : middle.Lengthened after) : base.Lengthened after :=
  ⟨first.size_le.trans second.size_le, first.grows.trans second.grows,
    fun known => second.ints (first.ints known)⟩

theorem of_tables (longer : base.Lengthened registry)
    (templates : after.templates = registry.templates)
    (ints : after.ints = registry.ints) : base.Lengthened after where
  size_le := templates ▸ longer.size_le
  grows id template known := by
    rw [template?, templates]
    exact longer.grows id template known
  ints known := ints ▸ longer.ints known

theorem alloc (longer : base.Lengthened registry) (template : Template) :
    base.Lengthened (registry.alloc template).2 where
  size_le := longer.size_le.trans (by simp [Registry.alloc, Arena.alloc, Arena.size])
  grows := longer.grows.trans (grows_alloc registry template)
  ints := longer.ints

theorem modifyTemplate (longer : base.Lengthened registry) {id : TemplateId}
    (new : base.templates.size ≤ id.index)
    (change : Template → Template) : base.Lengthened (registry.modifyTemplate id change) where
  size_le := longer.size_le.trans (by simp [Registry.modifyTemplate, Arena.modify, Arena.size])
  grows other template known := by
    rw [template?_modify, if_neg, longer.grows other template known]
    rintro rfl
    exact Nat.not_lt_of_ge new (index_lt_of_template? known)
  ints := longer.ints

theorem intTemplate (longer : base.Lengthened registry) (width : Nat) :
    base.Lengthened (registry.intTemplate width).2 where
  size_le := by
    cases known : registry.ints.get? width with
    | some id =>
      rw [intTemplate_of_some known]
      exact longer.size_le
    | none =>
      rw [intTemplate_of_none known, templates_record]
      exact (longer.alloc _).size_le
  grows := longer.grows.trans (grows_intTemplate registry width)
  ints known := (below_intTemplate registry width).ints (longer.ints known)

end Registry.Lengthened

namespace Check

theorem declaring_ordered : Declaring (fun _ registry => registry.Ordered) (fun _ => True) where
  push _ ordered := ordered
  int width ordered := ordered.intTemplate width
  alloc _ once ordered := ⟨ordered.alloc once, trivial⟩
  modify {_ registry id change} _ revises ordered :=
    { params := fun {other template} known => by
        rw [Registry.template?_modify] at known
        split at known
        · rename_i same
          subst same
          obtain ⟨old, there, rfl⟩ := Option.map_eq_some_iff.mp known
          rw [(revises old there).params]
          exact ordered.params there
        · exact ordered.params known
      synonym := ordered.synonym }
  defineData name _ ordered := ordered.defineType name fun same => TypeDef.noConfusion same

theorem solving_ordered : Solving fun _ registry => registry.Ordered where
  toGrowing := declaring_ordered.toGrowing
  write _ _ _ ordered := ordered

theorem lasting_lengthened (base : Registry) :
    Lasting (fun _ registry => base.Lengthened registry)
    (fun id => base.templates.size ≤ id.index) where
  push _ longer := longer
  write _ _ _ longer := longer
  int width longer := longer.intTemplate width
  alloc _ _ longer := ⟨longer.alloc _, longer.size_le⟩
  modify isOwn _ longer := longer.modifyTemplate isOwn _
  defineData _ _ longer :=
    longer.of_tables (Registry.templates_record _ _) (Registry.ints_record _ _)
  defineSynonym _ _ _ longer :=
    longer.of_tables (Registry.templates_record _ _) (Registry.ints_record _ _)
  defineCtor _ longer := longer.of_tables (Registry.templates_record _ _) (Registry.ints_record _ _)

end Check

namespace Session

variable {options : Options} {session after : Session} {written : Decl} {checked : CheckedDecl}

theorem lengthened_decl (accepted : Check.decl written session = .ok checked after) :
    session.registry.Lengthened after.registry := by
  obtain ⟨found, reached, run, rfl, rfl⟩ := decl_eq_ok accepted
  have keeps := (Check.steady_unit (Check.lasting_lengthened session.registry) written).keeps
    (Check.opened session) ((Registry.Lengthened.refl _).of_tables rfl rfl)
  rw [run] at keeps
  exact keeps.1.of_tables rfl rfl

/-- The variables there are, all of them taken as bound. -/
def ledger (session : Session) : Ledger :=
  ⟨session.subst.size, fun v => v.index < session.subst.size⟩

/-- Everything that type names stand for is in order. -/
structure Tidy (session : Session) : Prop where
  ordered : session.registry.Ordered
  settled : session.registry.Settled session.subst
  inPlay : ∃ base world, session.InPlay True base world

def Interprets (names : Name → Lambda) (meaning? : Name → Option (Ty × Kind)) : Prop :=
  ∀ ⦃name ty kind⦄, meaning? name = some (ty, kind) → ∀ terms, ty.lambda terms = names name

theorem exists_names (meaning? : Name → Option (Ty × Kind))
    (closed : ∀ {name ty kind}, meaning? name = some (ty, kind) → ∀ terms terms',
      ty.lambda terms = ty.lambda terms') :
    ∃ names : Name → Lambda, Fixed names ∧ Interprets names meaning? := by
  let constant : TyVar → Lambda := fun _ => .atom .arrow
  refine ⟨fun name => ((meaning? name).elim (.tuple []) (·.1)).lambda constant,
    fun name images => ?_, fun name ty kind known terms => ?_⟩
  · rw [Ty.subst_lambda]
    rfl
  · simp only [known]
    exact closed known terms constant

namespace Tidy

variable {ty : Ty} {kind : Kind} {name : Name}

theorem closed (tidy : session.Tidy) :
    session.registry.Closed
    (fun v => v.index < session.subst.size ∧ ∃ name, session.subst.cell v = .rigid name)
      fun _ => False := by
  obtain ⟨base, world, here⟩ := tidy.inPlay
  exact here.registry.mono (fun _ holds => ⟨(here.subst.bound holds).1, here.subst.rigid holds⟩)
    fun _ isLoose => isLoose.1 trivial

/-- A type name stands for a closed type, and its quantifiers are in order, also when integers have
been added. -/
theorem meaning (tidy : session.Tidy) {later : Registry} (grown : session.registry ≤ later)
    (known : later.meaning? name = some (ty, kind)) :
    ty.Orderly ∧ kind.Closed ∧ ∀ terms terms', ty.lambda terms = ty.lambda terms' := by
  obtain ⟨sorting, -, -, sorted⟩ := tidy.settled
  have ranked := sorted.kind?_le grown ▸ Registry.kind?_of_meaning? known
  suffices shape : ty.Orderly ∧ ty.Confined (fun _ => True) fun _ => False from
    ⟨shape.1, sorted.closed_kind? ranked, fun _ _ => shape.2.lambda_congr fun _ => False.elim⟩
  have named : ∀ id, (Ty.named id).Orderly ∧ (Ty.named id).Confined (fun _ => True) fun _ =>
      False := fun id =>
    ⟨.nominal (List.forall_mem_nil _), .nominal (List.forall_mem_nil _)⟩
  rw [Registry.meaning?, grown.1] at known
  cases found : session.registry.types.get? name with
  | none =>
    simp only [found] at known
    obtain ⟨width, -, known⟩ := Option.bind_eq_some_iff.mp known
    obtain ⟨id, -, same⟩ := Option.map_eq_some_iff.mp known
    obtain ⟨rfl, -⟩ := Prod.mk.inj same
    exact named id
  | some entry =>
    cases entry with
    | synonym other kind =>
      simp only [found] at known
      obtain ⟨rfl, -⟩ := Prod.mk.inj (Option.some.inj known)
      exact ⟨tidy.ordered.synonym found, (tidy.closed.synonym found).mono (fun _ _ => trivial)
        fun _ => id⟩
    | data id =>
      simp only [found] at known
      obtain ⟨template, defined⟩ := sorted.data found
      rw [grown.2.1 id template defined] at known
      have same : (if template.params.isEmpty then _ else _) = (ty, kind) := Option.some.inj known
      split at same
      · obtain ⟨rfl, -⟩ := Prod.mk.inj same
        exact named id
      · rename_i some
        obtain ⟨rfl, -⟩ := Prod.mk.inj same
        have params : template.paramVars ≠ [] :=
          fun none => some (by simpa [Template.paramVars] using none)
        exact ⟨.quantified params (tidy.ordered.params defined)
          (.nominal (List.forall_mem_map.mpr fun v _ => .var v)),
          .quantified (fun _ _ => trivial)
            (.nominal (List.forall_mem_map.mpr fun v member => .var (.inr member)))⟩

theorem fits_name (tidy : session.Tidy) {later : Registry} (grown : session.registry ≤ later)
    {names : Name → Lambda}
    (stands : Interprets names later.meaning?) (values : Nat → Kind)
    (known : later.meaning? name = some (ty, kind)) :
    ty.Orderly ∧ (∀ terms, ty.lambda terms = names name) ∧ session.registry.kind? name = some
    (kind.under values) := by
  obtain ⟨sorting, -, -, sorted⟩ := tidy.settled
  obtain ⟨orderly, closed, -⟩ := tidy.meaning grown known
  refine ⟨orderly, stands known, ?_⟩
  rw [closed.under_eq, ← sorted.kind?_le grown]
  exact Registry.kind?_of_meaning? known

theorem knows (tidy : session.Tidy) : session.ledger.Knows session.registry where
  params known :=
    ⟨tidy.ordered.params known, fun v member => ((tidy.closed.template known).params v member).1⟩
  synonym known :=
    ⟨(tidy.ordered.synonym known).distinct, (tidy.closed.synonym known).mono (fun _ => And.left)
      fun _ => False.elim⟩

theorem around (tidy : session.Tidy) : ∃ sorting : Sorting false, sorting.Closed ∧
    Elaborate.Around session.ledger (session.ledger, sorting, session.registry) session := by
  obtain ⟨sorting, closed, size, sorted⟩ := tidy.settled
  exact ⟨sorting, closed, ⟨rfl, fun _ => id, le_rfl, tidy.knows⟩, ⟨size, sorted, nofun⟩, rfl⟩

end Tidy

/-- What an alias is registered as: a type that stands for the function that the body is, and the
kind of that function, where type names mean what they meant when the body was read. -/
structure Expands (before : Registry) (params : List Name) (body : TypeExpr)
    (middle : Registry) (ty : Ty) (kind : Kind) : Prop where
  grown : before ≤ middle
  orderly : ty.Orderly
  equal : ∀ {names : Name → Lambda}, Interprets names middle.meaning? →
    ∀ terms env,
    Lambda.Equal (ty.lambda terms)
    (Lambda.lams params (body.lambda names (Lambda.enterAll params env)))
  kinds : ∃ kinds result, kind = .function kinds result ∧ params.length = kinds.length ∧
    ∀ env, body.Kinds before.kind? (given params kinds env) result

theorem synonym_eq_ok {name : Name} {params : List Name} {body : TypeExpr} {span : Span}
    {value : Unit} (run : Check.synonym name params body span session = .ok value after) :
    params.Nodup ∧ ∃ vars bound opened ty kind last middle,
      params.mapM Elaborate.bindParam .forDeclaration session = .ok (vars, bound) opened ∧
      Elaborate.type body bound opened = .ok ((ty, kind), last) middle ∧
      after.registry = middle.registry.defineType name (.synonym
        (if vars.isEmpty then ty else .quantified (vars.map (·.1)) ty)
        (.function (vars.map fun var => last.kinds.defaulted var.2)
          (last.kinds.defaulted kind))) := by
  unfold Check.synonym at run
  obtain ⟨⟨⟩, start, distinct, rest⟩ := bind_eq_ok.mp run
  obtain ⟨once, same⟩ := Elaborate.distinct_eq_ok_iff.mp distinct
  subst same
  obtain ⟨⟨⟨vars, ty, kind⟩, last⟩, middle, read, ended⟩ := bind_eq_ok.mp rest
  obtain ⟨-, rfl⟩ := EStateM.Result.ok.inj ended
  obtain ⟨vars', bound, opened, binding, rest⟩ := state_bind_eq_ok.mp read
  obtain ⟨result, last', middle', typed, finish⟩ := state_bind_eq_ok.mp rest
  obtain ⟨both, rfl, rfl⟩ := state_pure_eq_ok.mp finish
  obtain ⟨rfl, rfl⟩ := Prod.mk.inj both
  exact ⟨once, vars', bound, opened, ty, kind, last', middle', binding, typed, rfl⟩

theorem Tidy.synonym (tidy : session.Tidy) {name : Name} {params : List Name} {body : TypeExpr}
    {span : Span}
    {value : Unit} (complete : body.Complete)
    (run : Check.synonym name params body span session = .ok value after) :
    ∃ middle ty kind, after.registry = Registry.defineType middle name (.synonym ty kind) ∧
      middle.Ordered ∧ Expands session.registry params body middle ty kind := by
  obtain ⟨sorting, closed, around⟩ := tidy.around
  obtain ⟨base, world, inPlay⟩ := tidy.inPlay
  obtain ⟨once, vars, bound, opened, ty, kind, last, middle, binding, typed, same⟩ :=
    synonym_eq_ok run
  have start : Elaborate.Here [] (session.ledger, sorting, session.registry) .forDeclaration :=
    ⟨⟨rfl, List.forall_mem_nil _, List.nodup_nil⟩, Elaborate.sorted_forDeclaration closed⟩
  obtain ⟨first, grown, around', here, length, -, -⟩ := (start.bindParams params).ok around binding
  obtain ⟨second, grown', around'', read⟩ :=
    (Elaborate.read_type body complete here).ok around' typed
  have there : second.2.2 = middle.registry := around''.2.2.symm
  have grown : session.registry ≤ middle.registry := there ▸ (grown.trans grown').2.2
  -- What is bound is what the parameters stand for, as no name is free in a declaration.
  obtain ⟨later, -, inPlay', -, scope, -, own⟩ :=
    (Elaborate.reaches_bindParams Elaborator.local_forDeclaration params).ok inPlay binding
  have uses : Registry.TakesInts fun _ => True := fun _ _ _ => trivial
  obtain ⟨_, -, -, -, own⟩ :=
    (Elaborate.reaches_type (fun _ => trivial) uses body (fun _ => complete) own).ok inPlay' typed
  have free : last.free = none := Option.eq_none_iff_forall_ne_some.mpr fun made known =>
    (own.free known).1 trivial
  have distinct : (vars.map (·.1)).Nodup := (Elaborate.mapM_bindParam_eq_ok binding).1
  have reads : ∀ {names : Name → Lambda}, Interprets names middle.registry.meaning? →
      ∀ terms env rates, Elaborate.View.Reads ⟨names, session.registry.kind?,
        Lambda.enterAll (vars.map (·.1)) terms, Lambda.enterAll params env, last.kinds.defaults,
        given params (vars.map (·.2.under last.kinds.defaults)) rates⟩ body (ty, kind) := by
    intro names stands terms env rates
    refine read.reads ⟨fun known => tidy.fits_name grown stands _ (there ▸ known), ?_,
      fun {name binding} known => ?_⟩
    · rw [read.here.kinds.table]
      exact read.here.kinds.tame.satisfiedBy_defaults
    · rw [Elaborator.binding?, free, read.here.names.same, List.append_nil] at known
      exact Elaborate.fits_bindings length distinct (fun _ _ => List.not_mem_nil)
        (fun none => by cases none) known
  have ordered : middle.registry.Ordered := by
    have growing := Check.declaring_ordered.toGrowing
    have binds : Check.SteadyWith _ _ (params.mapM Elaborate.bindParam) :=
      .mapM fun name _ => Elaborate.steady_bindParam growing name
    have kept := (binds .forDeclaration).keeps session tidy.ordered
    rw [binding] at kept
    have read := (Elaborate.steady_type growing body bound).keeps opened kept.1
    rw [typed] at read
    exact read.1
  obtain ⟨names, -, stands⟩ := exists_names middle.registry.meaning? fun known =>
    (tidy.meaning grown known).2.2
  have some := reads stands (fun _ => .atom .arrow) (fun _ => .atom .arrow)
  refine ⟨_, _, _, same, ordered, grown, ?_, fun {names} stands terms env => ?_, _, _, rfl, ?_,
    fun env => ?_⟩
  · cases vars with
    | nil => exact (some fun _ => .star).orderly
    | cons var vars =>
      exact .quantified (List.cons_ne_nil _ _) distinct (some fun _ => .star).orderly
  · have equal := (reads stands terms env fun _ => .star).equal.lams params
    rw [lams_of_length (length.trans (List.length_map _).symm)] at equal
    cases vars with
    | nil => exact equal
    | cons var vars => exact equal
  · rw [List.length_map, length]
  · have tame : last.kinds.Tame := read.here.kinds.table ▸ read.here.kinds.tame
    have kinds := (some env).kinds
    rw [← tame.defaulted_eq_under] at kinds
    rwa [List.map_congr_left fun var _ => tame.defaulted_eq_under var.2]

theorem Tidy.opened (tidy : session.Tidy) : (Check.opened session).Tidy := by
  obtain ⟨base, world, here⟩ := tidy.inPlay
  exact ⟨tidy.ordered.of_tables rfl rfl, settled_of_tables tidy.settled le_rfl rfl rfl rfl,
    base, world,
    here.subst.of_cells rfl, rfl, here.schemes, here.registry.of_tables (fun known => .inl known)
      rfl rfl, trivial⟩

theorem Tidy.accepted (tidy : session.Tidy) (complete : written.Complete)
    (accepted : Check.decl written session = .ok checked after) : after.Tidy := by
  obtain ⟨base, world, inPlay⟩ := tidy.inPlay
  obtain ⟨later, -, there⟩ := InPlay.accepted inPlay (fun _ => complete) accepted
  obtain ⟨found, reached, run, rfl, rfl⟩ := decl_eq_ok accepted
  have start := tidy.opened
  refine ⟨?_, settled_of_tables (settled_unit start.settled run) le_rfl rfl rfl rfl, base,
    later, there⟩
  suffices ordered : reached.registry.Ordered from ordered.of_tables rfl rfl
  have kept : ∀ {α : Type} {check : Check α} {value : α},
      Check.Steady (fun _ registry => registry.Ordered) anything check →
      check (Check.opened session) = .ok value reached → reached.registry.Ordered := by
    intro α check value steady ran
    have keeps := Check.Steady.keeps steady _ start.ordered
    rw [ran] at keeps
    exact keeps.1
  cases written with
  | data span group =>
    obtain ⟨ids, ran, -⟩ := map_eq_ok.mp run
    refine kept (Check.steady_data Check.declaring_ordered (fun _ ordered => ?_) group) ran
    exact ordered.of_tables (Registry.templates_record _ _) (Registry.types_record _ _)
  | synonym span name params body =>
    obtain ⟨⟨⟩, middle, ran, ended⟩ := bind_eq_ok.mp run
    obtain ⟨-, rfl⟩ := pure_eq_ok.mp ended
    obtain ⟨read, ty, kind, same, ordered, expands⟩ := start.synonym complete ran
    rw [same]
    refine ordered.defineType name fun {_ _} same => ?_
    obtain ⟨rfl, -⟩ := TypeDef.synonym.inj same
    exact expands.orderly
  | define span recursive bindings =>
    obtain ⟨definitions, ran, -⟩ := map_eq_ok.mp run
    exact kept (Check.steady_group Check.solving_ordered recursive bindings) ran
  | eval span expr =>
    obtain ⟨term, ran, -⟩ := map_eq_ok.mp run
    exact kept (Check.steady_infer Check.solving_ordered expr) ran

theorem tidy_start (options : Options) : (Session.start options).Tidy where
  ordered := {
    params := fun known => ((Ledger.knows_initial ⟨0, fun _ => True⟩).params known).1
    synonym := fun known => by rcases Registry.types_initial known with same | same <;> cases same }
  settled := settled_initial _
  inPlay := ⟨_, _, inPlay_start options⟩

theorem Complete.tidy (complete : Complete options session) : session.Tidy := by
  induction complete with
  | start => exact tidy_start options
  | accepted _ complete result ih => exact ih.accepted complete result
  | refused before result ih =>
    obtain ⟨base, world, here⟩ := ih.inPlay
    rw [before.reachable.settled.restored result]
    exact ⟨ih.ordered, ih.settled, base, world, here.subst, rfl, here.schemes,
      here.registry, trivial⟩

/-- Between units that leave nothing open, applications in an annotation may be put together. -/
theorem Complete.writtenType_flattens (complete : Complete options session)
    {written written' : TypeExpr}
    (flattens : written.Flattens written') {ty ty' : Ty} {after' : Session}
    (ended : Check.writtenType written session = .ok ty after)
    (ended' : Check.writtenType written' session = .ok ty' after') : ty' = ty ∧ after' = after := by
  have keeps : session.ledger.Keeps session.ledger session :=
    ⟨rfl, fun _ => id, le_rfl, complete.tidy.knows⟩
  exact Elaborate.writtenType_flattens keeps flattens ended ended'

/-- Sessions that further units lead to, accepted or refused, of which the accepted ones leave
nothing open. -/
inductive After (first : Session) : Session → Prop where
  | here : After first first
  | accepted {session after : Session} {written : Decl} {checked : CheckedDecl}
      (before : After first session)
    (complete : written.Complete) (result : Check.decl written session = .ok checked after) :
      After first after
  | refused {session after : Session} {written : Decl} {error : TypeError}
      (before : After first session)
    (result : Check.decl written session = .error error after) : After first after

variable {first later : Session}

theorem Complete.further (complete : Complete options first) (further : After first later) :
    Complete options later := by
  induction further with
  | here => exact complete
  | accepted _ complete result ih => exact .accepted ih complete result
  | refused _ result ih => exact .refused ih result

theorem After.lengthened (further : After first later) (complete : Complete options first) :
    first.registry.Lengthened later.registry := by
  induction further with
  | here => exact .refl _
  | accepted _ _ result ih => exact ih.trans (lengthened_decl result)
  | refused before result ih =>
    rw [(complete.further before).reachable.settled.restored result]
    exact ih

/-- A session inside of a unit: type names stand for what they stood for when it began, and all is
in order. -/
structure Within (start session : Session) : Prop where
  tables : start.registry ≤ session.registry
  tidy : session.Tidy

theorem Tidy.within (tidy : session.Tidy) : Within session session := ⟨le_rfl, tidy⟩

theorem solving_tables (start : Registry) :
    Solving fun subst registry => start ≤ registry ∧ registry.Ordered ∧ registry.Settled subst where
  push isNew holds := ⟨holds.1, holds.2.1, solving_settled.push isNew holds.2.2⟩
  int width holds :=
    ⟨holds.1.trans (Registry.le_intTemplate _ width), holds.2.1.intTemplate width,
      solving_settled.int width holds.2.2⟩
  write v cell flexible holds :=
    ⟨holds.1, holds.2.1, solving_settled.write v cell flexible holds.2.2⟩

theorem Within.kept {α : Type} {start : Session} {check : Check α} {value : α}
    (inside : Within start session)
    (steady : Check.Steady (fun subst registry => start.registry ≤ registry ∧ registry.Ordered ∧
        registry.Settled subst) anything check)
    (reaches : ∀ {base env world}, ∃ said,
      Run.Reaches (Session.Local True base env fun _ => True) world said check)
    (run : check session = .ok value after) : Within start after := by
  have keeps := steady.keeps session ⟨inside.tables, inside.tidy.ordered, inside.tidy.settled⟩
  rw [run] at keeps
  obtain ⟨⟨tables, ordered, settled⟩, -⟩ := keeps
  obtain ⟨base, world, here⟩ := inside.tidy.inPlay
  obtain ⟨said, reaches⟩ := reaches
  obtain ⟨later, -, there, -⟩ := reaches.ok here run
  refine ⟨tables, ordered, settled, base, later, ?_⟩
  rw [InPlay, there.scopes]
  exact there

theorem Within.reads {start : Session} (inside : Within start session)
    {written : TypeExpr} {ty : Ty}
    (run : Check.writtenType written session = .ok ty after) : Within start after :=
  inside.kept (Check.steady_writtenType (solving_tables _) written)
    ⟨_, Check.reaches_writtenType (fun _ _ _ => trivial) written⟩ run

theorem Within.infers {start : Session} (inside : Within start session) {written : Expr}
    {term : Term} (run : Check.infer written session = .ok term after) : Within start after :=
  inside.kept (Check.steady_infer (solving_tables _) written)
    ⟨_, (World.discipline True _ fun _ _ _ => trivial).infers written fun _ _ => trivial⟩ run

end Session

end PolyCheck
