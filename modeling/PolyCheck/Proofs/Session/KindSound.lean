import PolyCheck.Proofs.Session.Constructors
import PolyCheck.Proofs.Session.Sorted

/-! Accepted declarations are kind-sound. While a group is read, the kinds of its definitions are
known in part; when it is sealed, the kinds that are left open become `*`, which is one of the
readings under which all its fields were found to be types of values. Nothing is open any more
between units, and expressions change no kinds. -/
namespace PolyCheck

open Run

variable {strict : Bool} {ranks : Name → Option Kind} {opened : TemplateId → Prop}
  {sorting : Sorting strict} {registry after : Registry} {id : TemplateId}
  {template : Template} {ids : List TemplateId} {ty : Ty} {kind : Kind} {params : List Kind}

/-- No kind variable is left. -/
structure Sorting.Closed (sorting : Sorting strict) : Prop where
  table : sorting.table = .empty
  kinds : ∀ v, (sorting.kinds v).Closed
  declared : ∀ {id params}, sorting.declared id = some params → ∀ kind ∈ params, kind.Closed

theorem Sorting.Closed.declare (closed : sorting.Closed) (id : TemplateId)
    (each : ∀ kind ∈ params, kind.Closed) : (sorting.declare id params).Closed := by
  refine ⟨closed.table, closed.kinds, fun {other found} known => ?_⟩
  by_cases same : other = id
  · rw [same, declared_declare_self] at known
    exact Option.some.inj known ▸ each
  · exact closed.declared ((declared_declare_of_ne same params).symm.trans known)

theorem Sorting.Closed.admits (closed : sorting.Closed) {reading : Reading}
    (admits : sorting.Admits reading)
    (values : Nat → Kind) : sorting.Admits { reading with values } where
  values := by
    rw [closed.table]
    exact nofun
  kinds v inside := by
    rw [(closed.kinds v).under_eq]
    exact (admits.kinds v inside).trans ((closed.kinds v).under_eq _)
  declared {id params} known := by
    rw [Kind.map_under_of_closed (closed.declared known)]
    exact (admits.declared known).trans
      (congrArg some (Kind.map_under_of_closed (closed.declared known) _))

/-- Definitions whose kinds are changed, at least those in the list. -/
structure Registry.Settles (change : Kind → Kind) (ids : List TemplateId)
    (registry after : Registry) : Prop where
  types : after.types = registry.types
  ints : after.ints = registry.ints
  kept : ∀ {id}, (∃ template, registry.template? id = some template) → ∃ template,
    after.template? id = some template
  template : ∀ {id template}, after.template? id = some template → ∃ old,
    registry.template? id = some old ∧
    template.cases = old.cases ∧
      (template.params = old.params.map (fun param => (param.1, change param.2)) ∨
      id ∉ ids ∧ template.params = old.params)

theorem Registry.settles_refl (change : Kind → Kind) (registry : Registry) :
    registry.Settles change [] registry :=
  ⟨rfl, rfl, id, fun known => ⟨_, known, rfl, .inr ⟨List.not_mem_nil, rfl⟩⟩⟩

theorem Registry.Settles.cons {change : Kind → Kind}
    (again : ∀ kind, change (change kind) = change kind)
    (settles : (registry.modifyTemplate id fun template =>
        (template.mapKinds change).freeze).Settles change ids after) :
    registry.Settles change (id :: ids) after where
  types := settles.types
  ints := settles.ints
  kept {other} there := by
    refine settles.kept ?_
    obtain ⟨template, known⟩ := there
    rw [template?_modify]
    split
    · exact ⟨_, by rw [known]; rfl⟩
    · exact ⟨template, known⟩
  template {other template} known := by
    obtain ⟨middle, there, cases_, params⟩ := settles.template known
    rw [template?_modify] at there
    split at there
    · obtain ⟨old, before, rfl⟩ := Option.map_eq_some_iff.mp there
      refine ⟨old, before, cases_, .inl ?_⟩
      rcases params with changed | ⟨-, same⟩
      · rw [changed, Template.freeze, Template.mapKinds, List.map_map]
        exact List.map_congr_left fun param _ => Prod.ext rfl (again param.2)
      · exact same
    · rename_i different
      refine ⟨middle, there, cases_, params.imp_right fun both => ⟨?_, both.2⟩⟩
      exact List.not_mem_cons_of_ne_of_not_mem (Ne.symm different) both.1

namespace Sorting

/-- What is known once the definitions are settled. -/
def settled (sorting : Sorting strict) (registry : Registry) : Sorting strict :=
  ⟨.empty, sorting.size, fun v => (sorting.kinds v).under sorting.table.defaults,
    registry.declared?⟩

/-- The reading in which all kinds that are open become `*`. -/
def defaults (sorting : Sorting strict) : Reading where
  values := sorting.table.defaults
  kinds v := (sorting.kinds v).under sorting.table.defaults
  declared id := (sorting.declared id).map (List.map (Kind.under sorting.table.defaults))

theorem admits_defaults (tame : sorting.table.Tame) : sorting.Admits sorting.defaults where
  values := tame.satisfiedBy_defaults
  kinds _ _ := rfl
  declared known := congrArg (Option.map (List.map (Kind.under sorting.table.defaults))) known

theorem Declares.eq_defaults (declares : sorting.Declares id params) (tame : sorting.table.Tame)
    {others : List Kind} (known : sorting.declared id = some others) :
    others.map (Kind.under sorting.table.defaults) = params.map
    (Kind.under sorting.table.defaults) := by
  have same : (sorting.declared id).map (List.map (Kind.under sorting.table.defaults)) =
      some (params.map (Kind.under sorting.table.defaults)) := declares _ (admits_defaults tame)
  rw [known] at same
  exact Option.some.inj same

end Sorting

namespace Registry.Sorted

variable (sorted : registry.Sorted opened sorting) (tame : sorting.table.Tame)
  (settles : registry.Settles sorting.table.defaulted ids after) (all : ∀ id, opened id → id ∈ ids)
include sorted tame settles all

theorem params_settled (known : after.template? id = some template) : ∃ old,
    registry.template? id = some old ∧ template.cases = old.cases ∧
      template.params = old.params.map fun param =>
      (param.1, param.2.under sorting.table.defaults) := by
  obtain ⟨old, before, same, params⟩ := settles.template known
  refine ⟨old, before, same, ?_⟩
  rcases params with changed | ⟨notIn, kept⟩
  · rw [changed]
    exact List.map_congr_left fun param _ => Prod.ext rfl (tame.defaulted_eq_under param.2)
  · have closed := sorted.settled before fun isOpen => notIn (all id isOpen)
    refine kept.trans ((List.map_id _).symm.trans (List.map_congr_left fun param member => ?_))
    exact Prod.ext rfl ((closed param member).under_eq _).symm

theorem declared_settled (known : sorting.declared id = some params) :
    after.declared? id = some (params.map (Kind.under sorting.table.defaults)) := by
  obtain ⟨template, there⟩ := settles.kept (sorted.known known)
  obtain ⟨old, before, -, same⟩ := sorted.params_settled tame settles all there
  rw [declared?, there, Option.map_some, same,
    (sorted.template before).declares.eq_defaults tame known]
  simp

theorem admits_settled {reading : Reading} (admits : (sorting.settled after).Admits reading) :
    sorting.Admits { reading with values := sorting.table.defaults } where
  values := tame.satisfiedBy_defaults
  kinds v inside :=
    (admits.kinds v inside).trans ((Kind.closed_under sorting.table.closed_defaults).under_eq _)
  declared {id params} known := by
    refine (admits.declared (sorted.declared_settled tame settles all known)).trans
      (congrArg some ?_)
    rw [List.map_map]
    exact List.map_congr_left fun kind _ =>
      (Kind.closed_under sorting.table.closed_defaults).under_eq _

theorem sorts_settled (sorts : sorting.Sorts ty kind) :
    (sorting.settled after).Sorts ty (kind.under sorting.table.defaults) where
  below := Kind.closed_under sorting.table.closed_defaults
  sorted reading admits := by
    rw [(Kind.closed_under sorting.table.closed_defaults).under_eq]
    exact sorts.sorted _ (sorted.admits_settled tame settles all admits)

theorem settle : after.Sorted (fun _ => False) (sorting.settled after) where
  template {id template} known := by
    obtain ⟨old, before, same, params⟩ := sorted.params_settled tame settles all known
    have there := sorted.template before
    have declared : after.declared? id = some (template.params.map (·.2)) :=
      congrArg (Option.map _) known
    refine ⟨fun reading admits => admits.declared declared, ?_, ?_⟩
    · rw [params]
      exact List.forall_mem_map.mpr fun param member =>
        sorted.sorts_settled tame settles all (there.params param member)
    · rw [same]
      exact fun dataCase inside field member =>
        sorted.sorts_settled tame settles all (there.fields dataCase inside field member)
  settled {id template} known _ := by
    obtain ⟨old, -, -, params⟩ := sorted.params_settled tame settles all known
    rw [Template.Settled, params]
    exact List.forall_mem_map.mpr fun param _ => Kind.closed_under sorting.table.closed_defaults
  known {id params} found := by
    obtain ⟨template, known, -⟩ := Option.map_eq_some_iff.mp found
    exact ⟨template, known⟩
  ints found reading admits :=
    sorted.ints (settles.ints ▸ found) { reading with values := sorting.table.defaults }
      (sorted.admits_settled tame settles all admits)
  data known := settles.kept (sorted.data (settles.types ▸ known))
  synonym {name ty kind} known := by
    obtain ⟨closed, sorts⟩ := sorted.synonym (settles.types ▸ known)
    have there := sorted.sorts_settled tame settles all sorts
    rw [closed.under_eq] at there
    exact ⟨closed, there⟩

theorem closed_settled : (sorting.settled after).Closed where
  table := rfl
  kinds _ := Kind.closed_under sorting.table.closed_defaults
  declared {id params} found := by
    obtain ⟨template, known, rfl⟩ := Option.map_eq_some_iff.mp found
    exact List.forall_mem_map.mpr ((sorted.settle tame settles all).settled known nofun)

/-- What was known without kind variables is known still. -/
theorem le_settled {before : Sorting strict} (closed : before.Closed) (grown : before ≤ sorting) :
    before ≤ sorting.settled after := by
  refine ⟨?_, grown.2.1, fun reading admits => ?_⟩
  · rw [closed.table]
    exact Nat.zero_le _
  · exact closed.admits (grown.2.2 _ (sorted.admits_settled tame settles all admits)) reading.values

end Registry.Sorted

/-- Everything has its kind, and no kind variable is left. -/
def Registry.Settled (subst : Subst) (registry : Registry) : Prop :=
  ∃ sorting : Sorting false, sorting.Closed ∧ sorting.size ≤ subst.size ∧
  registry.Sorted (fun _ => False) sorting

namespace Elaborate

variable {state state' : Elaborator} {session last : Session}

theorem sorted_forDeclaration (closed : sorting.Closed) :
    Elaborator.forDeclaration.Sorted sorting :=
  ⟨closed.table.symm, closed.table ▸ KindTable.tame_empty, List.forall_mem_nil _, nofun⟩

theorem sorted_addCase (id : TemplateId) (decl : Surface.CaseDecl)
    (permits : strict → Surface.TypeExpr.AllQuantifyTypes ranks decl.fields)
    (here : state.Sorted sorting) :
    Reaches (Session.Sorted ranks opened) sorting (fun later result => result.2.Sorted later)
    (addCase id decl state) := by
  refine .state_bind (sorted_starTypes decl.fields permits here) fun {later fields _} _ read => ?_
  refine reaches_of_ok fun session after ⟨_, state'⟩ around ended => ?_
  obtain ⟨_, _, got, rest⟩ := state_lift_bind_eq_ok.mp ended
  obtain ⟨rfl, rfl⟩ := EStateM.Result.ok.inj got
  cases found : (session.registry.template? id).bind (·.addCase? decl.name fields) with
  | none =>
    simp only [found] at rest
    cases rest
  | some changed =>
    simp only [found] at rest
    obtain ⟨same, rfl⟩ := EStateM.Result.ok.inj rest
    obtain ⟨-, rfl⟩ := Prod.mk.inj same
    obtain ⟨template, known, added⟩ := Option.bind_eq_some_iff.mp found
    rw [Template.addCase?] at added
    split at added
    · cases added
    obtain rfl := Option.some.inj added
    have sorted := around.registry.template known
    refine ⟨later, le_rfl, ⟨around.size, ?_, ?_⟩, read.kinds⟩
    · refine around.registry.modifyTemplate (fun _ => ⟨sorted.declares, sorted.params, ?_⟩)
        fun _ closed param member => around.registry.settled known closed param member
      exact List.forall_mem_append.mpr ⟨sorted.fields, List.forall_mem_singleton.mpr read.sorts⟩
    · have kept : ∀ {old}, session.registry.template? id = some old →
          Template.kind { template with cases := template.cases ++ [⟨decl.name, fields⟩] } =
          old.kind := by
        intro old before
        rw [Option.some.inj (known.symm.trans before), Template.kind, Template.kind]
      rw [Registry.kind?_modifyTemplate kept]
      exact around.names

theorem sorted_alias (params : List Name) (body : Surface.TypeExpr)
    (permits : strict → body.QuantifiesTypes ranks) (here : state.Sorted sorting) :
    Reaches (Session.Sorted ranks opened) sorting
      (fun later result => (∀ param ∈ result.1.1, later.Sorts (.var param.1) param.2) ∧
        later.Sorts result.1.2.1 result.1.2.2 ∧ result.2.Sorted later)
      ((do
        let params ← params.mapM bindParam
        let body ← type body
        pure (params, body) : Elaborate (List (TyVar × Kind) × Ty × Kind)) state) := by
  refine .state_bind (sorted_bindParams here params) fun _ bound => ?_
  refine .state_bind (sorted_type body permits bound.2.1) fun grown read =>
    .state_pure ⟨fun param member => ?_, read.sorts, read.kinds⟩
  exact (bound.1 param member).grow grown

theorem sorted_fillData (decl : Surface.DataDecl) (id : TemplateId)
    (permits : ∀ dataCase ∈ decl.cases,
      strict → Surface.TypeExpr.AllQuantifyTypes ranks dataCase.fields)
      (here : state.Sorted sorting) :
    Reaches (Session.Sorted ranks opened) sorting (fun later result => result.2.Sorted later)
    (fillData decl id state) := by
  refine .state_get fun session around => .state_modify ?_
  refine .state_forM (fun _ (dataCase : Surface.CaseDecl) => strict →
    Surface.TypeExpr.AllQuantifyTypes ranks dataCase.fields)
    (fun (later : Sorting strict) (state : Elaborator) => state.Sorted later)
      (fun _ permits => permits) permits
    (here.inScope fun binding member => ?_) fun {_ dataCase _} _ permits here =>
      sorted_addCase id dataCase permits here
  obtain ⟨⟨name, param⟩, inside, rfl⟩ := List.mem_map.mp (List.mem_reverse.mp member)
  have isParam := (List.of_mem_zip inside).2
  cases known : session.registry.template? id with
  | none =>
    rw [known] at isParam
    cases isParam
  | some template =>
    rw [known] at isParam
    exact (around.registry.template known).params param isParam

theorem sorted_enterData {decl : Surface.DataDecl} (new : strict → ranks decl.name = none)
    (there : session.Sorted ranks opened sorting) (here : state.Sorted sorting)
    (run : enterData decl state session = .ok (id, state') last) :
    ∃ later, sorting ≤ later ∧ last.Sorted ranks (fun other => opened other ∨ other = id) later ∧
      state'.Sorted later := by
  unfold enterData at run
  obtain ⟨⟨⟩, middle, distinct, rest⟩ := state_lift_bind_eq_ok.mp run
  obtain ⟨_, -, atMiddle, rfl, -⟩ := (sorted_distinct _ _ _).ok there distinct
  obtain ⟨params, _, middle', bound, entered⟩ := state_bind_eq_ok.mp rest
  obtain ⟨later, grown, there', sorts, here', -⟩ :=
    (sorted_bindParams here decl.params).ok atMiddle bound
  obtain ⟨same, rfl⟩ := EStateM.Result.ok.inj entered
  obtain ⟨rfl, rfl⟩ := Prod.mk.inj same
  let made := Template.openWith decl.name params
  have sorts : ∀ param ∈ made.params, later.Sorts (.var param.1) param.2 := sorts
  let entered := (middle'.registry.alloc made).1
  have wider : ∀ other, opened other → opened other ∨ other = entered := fun _ => Or.inl
  obtain ⟨grown', registry⟩ := there'.registry.alloc sorts rfl wider (.inl (.inr rfl))
  have known : (middle'.registry.alloc made).2.template? entered = some made :=
    (Registry.template?_alloc _ made _).trans (if_pos rfl)
  have data : ∀ id, TypeDef.data entered = .data id →
      ∃ template, (middle'.registry.alloc made).2.template? id = some template :=
    fun id same => ⟨made, TypeDef.data.inj same ▸ known⟩
  have named := registry.defineType decl.name data fun _ _ same => TypeDef.noConfusion same
  have names : strict → ∀ {name kind}, ranks name = some kind →
      ((middle'.registry.alloc made).2.defineType decl.name (.data entered)).kind? name =
      some kind := by
    intro given name kind isKind
    have other : name ≠ decl.name := by
      rintro rfl
      cases (new given).symm.trans isKind
    rw [Registry.kind?_defineType_of_ne other,
      there'.registry.kind?_le (middle'.registry.le_alloc made)]
    exact there'.names given isKind
  exact ⟨_, grown.trans grown', ⟨there'.size, named, names⟩,
    (here'.grow grown' rfl).inScope (List.forall_mem_nil _)⟩

theorem sorted_enterGroup {group : List Surface.DataDecl}
    (new : strict → ∀ decl ∈ group, ranks decl.name = none)
    (there : session.Sorted ranks opened sorting)
    (here : state.Sorted sorting)
    (run : group.mapM enterData state session = .ok (ids, state') last) :
    ∃ later, sorting ≤ later ∧ last.Sorted ranks (fun id => opened id ∨ id ∈ ids) later ∧
      state'.Sorted later := by
  induction group generalizing opened sorting state session ids with
  | nil =>
    obtain ⟨rfl, rfl, rfl⟩ := state_pure_eq_ok.mp run
    exact ⟨sorting, le_rfl, ⟨there.size, there.registry.wider fun _ => Or.inl, there.names⟩, here⟩
  | cons decl group ih =>
    rw [List.mapM_cons] at run
    obtain ⟨id, _, _, first, rest⟩ := state_bind_eq_ok.mp run
    obtain ⟨others, _, _, entered, ended⟩ := state_bind_eq_ok.mp rest
    obtain ⟨rfl, rfl, rfl⟩ := state_pure_eq_ok.mp ended
    obtain ⟨middle, grown, there, here⟩ :=
      sorted_enterData (fun given => new given decl List.mem_cons_self) there here first
    obtain ⟨later, grown', there, here⟩ :=
      ih (fun given other member => new given other (List.mem_cons_of_mem decl member)) there
        here entered
    refine ⟨later, grown.trans grown', ⟨there.size, there.registry.wider fun other isOpen => ?_,
        there.names⟩, here⟩
    rw [List.mem_cons, ← or_assoc]
    exact isOpen

theorem settles_of_forM_sealData {value : PUnit}
    (again : ∀ kind, state.kinds.defaulted (state.kinds.defaulted kind) =
      state.kinds.defaulted kind)
      (run : (forM ids sealData) state session = .ok (value, state') last) :
    last.subst = session.subst ∧
      session.registry.Settles state.kinds.defaulted ids last.registry := by
  induction ids generalizing session with
  | nil =>
    obtain ⟨-, -, rfl⟩ := state_pure_eq_ok.mp run
    exact ⟨rfl, session.registry.settles_refl _⟩
  | cons id ids ih =>
    rw [List.forM_cons] at run
    obtain ⟨⟨⟩, _, middle, here, rest⟩ := state_bind_eq_ok.mp run
    obtain ⟨same, rfl⟩ := EStateM.Result.ok.inj here
    obtain ⟨-, rfl⟩ := Prod.mk.inj same
    obtain ⟨subst, settles⟩ := ih rest
    exact ⟨subst, settles.cons again⟩

end Elaborate

namespace Session

open Check Elaborate

variable {options : Options} {session before reached : Session} {written : Surface.Decl}
  {checked : CheckedDecl}

theorem settled_of_tables {subst subst' : Subst} (settled : registry.Settled subst)
    (le : subst.size ≤ subst'.size)
    (templates : after.templates = registry.templates) (ints : after.ints = registry.ints)
    (types : after.types = registry.types) : after.Settled subst' := by
  obtain ⟨sorting, closed, size, there⟩ := settled
  exact ⟨sorting, closed, Nat.le_trans size le, there.of_tables templates ints types⟩

theorem sorted_data {group : List Surface.DataDecl} (closed : sorting.Closed)
    (new : strict → ∀ decl ∈ group, ranks decl.name = none)
    (permits : ∀ decl ∈ group, ∀ dataCase ∈ decl.cases,
      strict → Surface.TypeExpr.AllQuantifyTypes ranks dataCase.fields)
    (here : before.Sorted ranks (fun _ => False) sorting)
    (run : Check.data group before = .ok ids reached) :
    ∃ later, sorting ≤ later ∧ later.Closed ∧ later.size ≤ reached.subst.size ∧
      reached.registry.Sorted (fun _ => False) later := by
  obtain ⟨filled, ran, rfl⟩ := data_eq_ok run
  obtain ⟨⟨_, _⟩, ran, same⟩ := map_eq_ok.mp ran
  obtain ⟨entered, _, _, first, rest⟩ := state_bind_eq_ok.mp ran
  obtain ⟨⟨⟩, state, _, fields, rest⟩ := state_bind_eq_ok.mp rest
  obtain ⟨⟨⟩, _, _, sealing, ended⟩ := state_bind_eq_ok.mp rest
  obtain ⟨rfl, rfl, rfl⟩ := state_pure_eq_ok.mp ended
  obtain ⟨_, grown, there, elaborator⟩ :=
    sorted_enterGroup new here (sorted_forDeclaration closed) first
  obtain ⟨later, grown', there, elaborator⟩ := (Arrives.state_forM
    (fun _ (entry : Surface.DataDecl × TemplateId) => ∀ dataCase ∈ entry.1.cases,
      strict → Surface.TypeExpr.AllQuantifyTypes ranks dataCase.fields)
    (fun (later : Sorting strict) (state : Elaborator) => state.Sorted later)
    (fun _ permits => permits) (fun entry member => permits entry.1 (List.of_mem_zip member).1)
      elaborator
    fun {_ entry _} _ permits here => sorted_fillData entry.1 entry.2 permits here).ok there fields
  have again : ∀ kind, state.kinds.defaulted (state.kinds.defaulted kind) =
      state.kinds.defaulted kind := by
    intro kind
    rw [elaborator.table, elaborator.tame.defaulted_eq_under (later.table.defaulted kind)]
    exact Kind.Closed.under_eq (KindTable.closed_defaultedWithin later.table _ kind) _
  obtain ⟨subst, settles⟩ := settles_of_forM_sealData again sealing
  rw [elaborator.table] at settles
  have all : ∀ id, False ∨ id ∈ entered → id ∈ entered := fun _ isOpen => isOpen.resolve_left id
  refine ⟨_, there.registry.le_settled elaborator.tame settles all closed (grown.trans grown'),
    there.registry.closed_settled elaborator.tame settles all, ?_, ?_⟩
  · rw [subst]
    exact there.size
  · exact (there.registry.settle elaborator.tame settles all).foldl_defineCtor _

theorem sorted_synonym {name : Name} {params : List Name} {body : Surface.TypeExpr} {span : Span}
    {value : Unit}
    (closed : sorting.Closed) (permits : strict → body.QuantifiesTypes ranks)
    (here : before.Sorted ranks (fun _ => False) sorting)
    (run : Check.synonym name params body span before = .ok value reached) :
    ∃ later, sorting ≤ later ∧ later.Closed ∧ later.size ≤ reached.subst.size ∧
      reached.registry.Sorted (fun _ => False) later := by
  unfold Check.synonym at run
  obtain ⟨⟨⟩, _, distinct, run⟩ := bind_eq_ok.mp run
  obtain ⟨_, -, there, rfl, -⟩ := (sorted_distinct _ _ _).ok here distinct
  obtain ⟨⟨⟨vars, ty, kind⟩, state⟩, middle, read, ended⟩ := bind_eq_ok.mp run
  obtain ⟨later, grown, there, vars', body', elaborator⟩ :=
    (sorted_alias params body permits (sorted_forDeclaration closed)).ok there read
  obtain ⟨-, rfl⟩ := EStateM.Result.ok.inj ended
  have settles := Registry.settles_refl later.table.defaulted middle.registry
  have tame := elaborator.tame
  have sorts :=
    there.registry.sorts_settled tame settles (fun _ => False.elim)
      (Sorting.Sorts.alias vars' body')
  have same : Kind.function (vars.map fun param => state.kinds.defaulted param.2)
    (state.kinds.defaulted kind) =
      (Kind.function (vars.map (·.2)) kind).under later.table.defaults := by
    rw [elaborator.table, Kind.under_function, List.map_map, tame.defaulted_eq_under]
    exact congrArg (Kind.function · _) (List.map_congr_left fun param _ =>
      tame.defaulted_eq_under param.2)
  refine ⟨_, there.registry.le_settled tame settles (fun _ => False.elim) closed grown,
    there.registry.closed_settled tame settles fun _ => False.elim, there.size, ?_⟩
  refine (there.registry.settle tame settles fun _ => False.elim).defineType name
    (fun _ here => TypeDef.noConfusion here) fun ty' kind' here => ?_
  obtain ⟨rfl, isKind⟩ := TypeDef.synonym.inj here
  obtain rfl := isKind.symm.trans same
  exact ⟨sorts.below, sorts⟩

/-- Expressions make variables and integer types only. -/
theorem solving_settled : Solving fun subst registry => registry.Settled subst where
  push := by
    rintro subst registry cell - ⟨sorting, closed, size, sorted⟩
    exact ⟨sorting, closed, Nat.le_trans size (Nat.le_of_lt (by simp)), sorted⟩
  write := by
    rintro subst registry v cell - ⟨sorting, closed, size, sorted⟩
    exact ⟨sorting, closed, by rwa [Subst.size_write], sorted⟩
  int := by
    rintro subst registry width ⟨sorting, closed, size, sorted⟩
    obtain ⟨later, -, same, there, -⟩ := sorted.intTemplate width
    rcases same with rfl | rfl
    · exact ⟨_, closed, size, there⟩
    · exact ⟨_, closed.declare _ (List.forall_mem_nil _), size, there⟩

theorem settled_unit (here : before.registry.Settled before.subst)
    (run : unit written before = .ok checked reached) : reached.registry.Settled reached.subst := by
  have kept : ∀ {α : Type} {check : Check α} {value : α},
      Steady (fun subst registry => registry.Settled subst) anything check →
      check before = .ok value reached → reached.registry.Settled reached.subst := by
    intro α check value steady ran
    have keeps := Steady.keeps steady before here
    rw [ran] at keeps
    exact keeps.1
  cases written with
  | data span group =>
    obtain ⟨ids, ran, -⟩ := map_eq_ok.mp run
    obtain ⟨sorting, closed, size, registry⟩ := here
    have sorted : before.Sorted (fun _ => none) (fun _ => False) sorting := ⟨size, registry, nofun⟩
    obtain ⟨later, -, settled⟩ := sorted_data closed nofun (fun _ _ _ _ => nofun) sorted ran
    exact ⟨later, settled⟩
  | synonym span name params body =>
    obtain ⟨⟨⟩, middle, ran, ended⟩ := bind_eq_ok.mp run
    obtain ⟨-, rfl⟩ := pure_eq_ok.mp ended
    obtain ⟨sorting, closed, size, registry⟩ := here
    have sorted : before.Sorted (fun _ => none) (fun _ => False) sorting := ⟨size, registry, nofun⟩
    obtain ⟨later, -, settled⟩ := sorted_synonym closed nofun sorted ran
    exact ⟨later, settled⟩
  | define span recursive bindings =>
    obtain ⟨definitions, ran, -⟩ := map_eq_ok.mp run
    exact kept (steady_group solving_settled recursive bindings) ran
  | eval span expr =>
    obtain ⟨term, ran, -⟩ := map_eq_ok.mp run
    exact kept (steady_infer solving_settled expr) ran

theorem sorted_initial (strict : Bool) : ∃ sorting : Sorting strict, sorting.Closed ∧
    sorting.size = 0 ∧ Registry.initial.Sorted (fun _ => False) sorting := by
  let known : Sorting strict := ⟨.empty, 0, fun _ => .star, Registry.initial.declared?⟩
  have plain : ∀ {id template}, Registry.initial.template? id = some template →
      template.params = [] ∧ template.cases = [] := by
    intro id template found
    obtain ⟨name, builtin, rfl⟩ := Registry.template?_initial found
    exact ⟨rfl, rfl⟩
  refine ⟨known, ⟨rfl, fun _ => trivial, fun {id params} found => ?_⟩, rfl, ?_⟩
  · obtain ⟨template, there, rfl⟩ := Option.map_eq_some_iff.mp found
    rw [(plain there).1]
    exact List.forall_mem_nil _
  · exact {
      template := fun {id template} there => by
        have declared : Registry.initial.declared? id = some (template.params.map (·.2)) :=
          congrArg (Option.map _) there
        refine ⟨fun reading admits => admits.declared declared, ?_, ?_⟩
        · rw [(plain there).1]
          exact List.forall_mem_nil _
        · rw [(plain there).2]
          exact List.forall_mem_nil _
      settled := fun there _ => by
        rw [Template.Settled, (plain there).1]
        exact List.forall_mem_nil _
      known := fun found => (Option.map_eq_some_iff.mp found).imp fun _ => And.left
      ints := fun found => by cases found
      data := fun {name id} found => by
        rcases Registry.types_initial found with same | same
        · obtain rfl := TypeDef.data.inj same
          exact ⟨_, rfl⟩
        · obtain rfl := TypeDef.data.inj same
          exact ⟨_, rfl⟩
      synonym := fun found => by
        rcases Registry.types_initial found with same | same <;> cases same }

theorem settled_initial (subst : Subst) : Registry.initial.Settled subst := by
  obtain ⟨sorting, closed, size, sorted⟩ := sorted_initial false
  exact ⟨sorting, closed, size ▸ Nat.zero_le _, sorted⟩

theorem Reachable.settled_registry (reachable : session.Reachable options) :
    session.registry.Settled session.subst := by
  refine reachable.keeps (fun session => session.registry.Settled session.subst) (settled_initial _)
    (fun {session _ _ _} settled accepted => ?_) fun _ _ settled => settled
  obtain ⟨found, reached, run, -, rfl⟩ := exists_unit_of_ok accepted
  have here : (opened session).registry.Settled (opened session).subst :=
    settled_of_tables settled (Nat.le_refl _) rfl rfl rfl
  exact settled_of_tables (settled_unit here run) (Nat.le_refl _) rfl rfl rfl

end Session

/-- All parameters have closed kinds, under which the fields are types of values and the aliases
have their kinds. -/
structure Registry.KindSound (kinds : TyVar → Kind) (registry : Registry) : Prop where
  params : ∀ {id template}, registry.template? id = some template →
    ∀ param ∈ template.params, param.2.Closed ∧ kinds param.1 = param.2
  fields : ∀ {id template}, registry.template? id = some template → ∀ dataCase ∈ template.cases,
    ∀ field ∈ dataCase.fields, field.HasKind registry.declared? kinds .star
  synonym : ∀ {name ty kind}, registry.types.get? name = some (.synonym ty kind) →
    kind.Closed ∧ ty.HasKind registry.declared? kinds kind

namespace Session

variable {options : Options} {session : Session}

/-- After any units, the kinds that definitions and aliases declare are those that their types
have. -/
theorem declarations_kindSound (reachable : session.Reachable options) :
    ∃ kinds, session.registry.KindSound kinds := by
  obtain ⟨sorting, closed, -, sorted⟩ := reachable.settled_registry
  have tame : sorting.table.Tame := closed.table ▸ KindTable.tame_empty
  have settles := Registry.settles_refl sorting.table.defaulted session.registry
  have closed := sorted.closed_settled tame settles fun _ => False.elim
  have sorted := sorted.settle tame settles fun _ => False.elim
  let reading : Reading :=
    ⟨fun _ => .star, (sorting.settled session.registry).kinds, session.registry.declared?⟩
  have admits : (sorting.settled session.registry).Admits reading :=
    { values := nofun
      kinds := fun v _ => ((closed.kinds v).under_eq _).symm
      declared := fun known =>
        known.trans (congrArg some (Kind.map_under_of_closed (closed.declared known) _).symm) }
  refine ⟨reading.kinds, ?_, ?_, ?_⟩
  · intro id template known param member
    have isClosed := sorted.settled known not_false param member
    have same := (((sorted.template known).params param member).sorted reading admits).var_inv
    exact ⟨isClosed, same.symm.trans (isClosed.under_eq _)⟩
  · intro id template known dataCase inside field member
    exact (((sorted.template known).fields dataCase inside field member).sorted reading
      admits).hasKind
  · intro name ty kind known
    obtain ⟨isClosed, sorts⟩ := sorted.synonym known
    have kinded := (sorts.sorted reading admits).hasKind
    rw [isClosed.under_eq] at kinded
    exact ⟨isClosed, kinded⟩

/-- The types `fix f` with `Roll (f (fix f))` and `proxy p` with `Proxy`. -/
def fixDecl : Surface.Decl :=
  .data default [⟨default, "fix", ["f"], [⟨default, "Roll",
      [.app default (.var default "f") [.app default (.name default "fix") [.var default "f"]]]⟩]⟩,
    ⟨default, "proxy", ["p"], [⟨default, "Proxy", []⟩]⟩]

/-- The parameter of `fix` is a function on types; the kind of the other one stays open and becomes
`*`. -/
theorem fixDecl_kindSound : ∃ checked session kinds,
    Check.decl fixDecl (Session.start .standard) = .ok checked session ∧
      session.registry.declared? ⟨2⟩ = some [.arrow .star .star] ∧
        session.registry.declared? ⟨3⟩ = some [.star] ∧
      session.registry.KindSound kinds := by
  have shown :
    gives (fun _ session => decide (session.registry.declared? ⟨2⟩ = some [.arrow .star .star] ∧
      session.registry.declared? ⟨3⟩ = some [.star])) (Check.decl fixDecl (Session.start .standard))
        = true := by cbv
  obtain ⟨checked, session, accepted, shown⟩ := exists_of_gives shown
  have reachable : Reachable .standard session := .decl .start fixDecl (.inl ⟨checked, accepted⟩)
  obtain ⟨kinds, sound⟩ := declarations_kindSound reachable
  obtain ⟨fix, proxy⟩ := of_decide_eq_true shown
  exact ⟨checked, session, kinds, accepted, fix, proxy, sound⟩

end Session

end PolyCheck
