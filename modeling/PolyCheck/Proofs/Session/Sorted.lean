import PolyCheck.Proofs.Session.Sorting

/-! Written types are read with the kinds that they have. Each step of reading adds to what is known
about kinds: a variable comes with a kind of its own, and two kinds are found to be the same only
where every reading of the kind variables that is left makes them the same. -/
namespace PolyCheck

open Run

namespace Surface

/-- The type variable stands in the written type at a place for types of kind `*`, if the written
type stands at a place for types of the kind. Of applications only those of names count whose kinds
are known. -/
inductive TypeExpr.Uses (ranks : Name → Option Kind) (v : Name) : TypeExpr → Kind → Prop where
  | here (span : Span) : Uses ranks v (.var span v) .star
  | param {span : Span} {param result : TypeExpr} {kind : Kind}
      (inside : Uses ranks v param .star) : Uses ranks v (.arrow span param result) kind
  | result {span : Span} {param result : TypeExpr} {kind : Kind}
      (inside : Uses ranks v result .star) : Uses ranks v (.arrow span param result) kind
  | group {span : Span} {inner : TypeExpr} {kind : Kind} (inside : Uses ranks v inner kind) :
    Uses ranks v (.tuple span [inner]) kind
  | element {span : Span} {elements : List TypeExpr} {element : TypeExpr} {kind : Kind}
    (several : elements.length ≠ 1) (member : element ∈ elements)
      (inside : Uses ranks v element .star) :
    Uses ranks v (.tuple span elements) kind
  | argument {span span' : Span} {name : Name} {args : List TypeExpr} {params : List Kind}
    {arg : TypeExpr} {param result kind : Kind}
      (known : ranks name = some (.function params result))
    (member : (arg, param) ∈ args.zip params) (inside : Uses ranks v arg param) :
    Uses ranks v (.app span (.name span' name) args) kind
  | body {span : Span} {params : List Name} {body : TypeExpr} {kind : Kind} (other : v ∉ params)
    (inside : Uses ranks v body .star) : Uses ranks v (.quantified span params body) kind

mutual

/-- Every variable that a quantifier binds is used as a type. -/
def TypeExpr.QuantifiesTypes (ranks : Name → Option Kind) : TypeExpr → Prop
  | .name _ _ => True
  | .var _ _ => True
  | .app _ head args => head.QuantifiesTypes ranks ∧ TypeExpr.AllQuantifyTypes ranks args
  | .arrow _ param result => param.QuantifiesTypes ranks ∧ result.QuantifiesTypes ranks
  | .tuple _ elements => TypeExpr.AllQuantifyTypes ranks elements
  | .quantified _ params body =>
    (∀ v ∈ params, body.Uses ranks v .star) ∧ body.QuantifiesTypes ranks
  | .hole _ => True

def TypeExpr.AllQuantifyTypes (ranks : Name → Option Kind) : List TypeExpr → Prop
  | [] => True
  | written :: rest => written.QuantifiesTypes ranks ∧ TypeExpr.AllQuantifyTypes ranks rest

end

end Surface

variable {strict : Bool} {ranks : Name → Option Kind} {opened : TemplateId → Prop}
  {sorting later : Sorting strict} {state : Elaborator}

structure Session.Sorted (ranks : Name → Option Kind) (opened : TemplateId → Prop)
    (sorting : Sorting strict) (session : Session) : Prop where
  size : sorting.size ≤ session.subst.size
  registry : session.registry.Sorted opened sorting
  names : strict → ∀ {name kind}, ranks name = some kind → session.registry.kind? name = some kind

theorem Session.Sorted.grow {session : Session} (here : session.Sorted ranks opened sorting)
    (grown : sorting ≤ later)
    (size : later.size = sorting.size) (declared : later.declared = sorting.declared) :
      session.Sorted ranks opened later :=
  ⟨size ▸ here.size, here.registry.grow grown declared, here.names⟩

theorem Session.Sorted.push {session : Session} (here : session.Sorted ranks opened sorting)
    (cell : Cell) (kind : Kind) :
    ∃ v, (session.subst.push cell).1 = v ∧ sorting.size ≤ v.index ∧
      sorting ≤ sorting.extend v kind ∧
      Session.Sorted ranks opened (sorting.extend v kind)
      { session with subst := (session.subst.push cell).2 } := by
  have grown : sorting ≤ sorting.extend ⟨session.subst.size⟩ kind :=
    Sorting.le_extend here.size kind
  have size : (sorting.extend ⟨session.subst.size⟩ kind).size ≤ (session.subst.push cell).2.size :=
    Nat.le_of_eq (session.subst.size_push cell).symm
  exact ⟨_, rfl, here.size, grown, size, here.registry.grow grown rfl, here.names⟩

/-- The table of the elaborator is what is known of kind variables, and its variables have their
kinds. -/
structure Elaborator.Sorted (sorting : Sorting strict) (state : Elaborator) : Prop where
  table : state.kinds = sorting.table
  tame : sorting.table.Tame
  scope : ∀ binding ∈ state.scope, sorting.Sorts (.var binding.var) binding.kind
  free : ∀ {made}, state.free = some made → ∀ binding ∈ made,
    sorting.Sorts (.var binding.var) binding.kind

namespace Elaborator.Sorted

theorem grow (sorted : state.Sorted sorting) (grown : sorting ≤ later)
    (same : later.table = sorting.table) : state.Sorted later where
  table := sorted.table.trans same.symm
  tame := same ▸ sorted.tame
  scope binding member := (sorted.scope binding member).grow grown
  free known binding member := (sorted.free known binding member).grow grown

theorem advance (sorted : state.Sorted sorting) {table : KindTable} (tame : table.Tame)
    (grown : sorting ≤ sorting.withTable table) : { state with kinds := table }.Sorted
    (sorting.withTable table) where
  table := rfl
  tame := tame
  scope binding member := (sorted.scope binding member).grow grown
  free known binding member := (sorted.free known binding member).grow grown

theorem inScope (sorted : state.Sorted sorting) {scope : List TypeBinding}
    (each : ∀ binding ∈ scope, sorting.Sorts (.var binding.var) binding.kind) :
    { state with scope }.Sorted sorting :=
  ⟨sorted.table, sorted.tame, each, sorted.free⟩

end Elaborator.Sorted

theorem Sorting.Agree.symm {left right : Kind} (agree : sorting.Agree left right) :
    sorting.Agree right left :=
  fun reading admits => (agree reading admits).symm

theorem Sorting.Agree.grow {left right : Kind} (agree : sorting.Agree left right)
    (grown : sorting ≤ later) : later.Agree left right :=
  fun reading admits => agree reading (grown.2.2 reading admits)

namespace Elaborate

structure Kinded {α : Type} (scope : List TypeBinding) (said : Sorting strict → α → Prop)
    (sorting : Sorting strict) (result : α × Elaborator) : Prop where
  said : said sorting result.1
  kinds : result.2.Sorted sorting
  scope : result.2.scope = scope

/-- The parameters that are bound, innermost first. -/
def bindings (params : List Name) (vars : List (TyVar × Kind)) : List TypeBinding :=
  ((params.zip vars).map fun entry => ⟨entry.1, entry.2.1, entry.2.2⟩).reverse

theorem firstRepeated?_eq_none {names : List Name} : Check.firstRepeated? names = none ↔
    names.Nodup := by
  have within : ∀ seen, Check.firstRepeated?.go seen names = none ↔ names.Nodup ∧ ∀ name ∈ names,
      name ∉ seen := by
    induction names with
    | nil => simp [Check.firstRepeated?.go]
    | cons name names ih =>
      intro seen
      rw [Check.firstRepeated?.go]
      split
      · rename_i repeated
        simp only [reduceCtorEq, false_iff, not_and, not_forall]
        exact fun _ => ⟨name, List.mem_cons_self, not_not.mpr (List.contains_iff_mem.mp repeated)⟩
      · rename_i new
        have new : name ∉ seen := fun member => new (List.contains_iff_mem.mpr member)
        rw [ih, List.nodup_cons, List.forall_mem_cons]
        constructor
        · rintro ⟨once, apart⟩
          refine ⟨⟨fun member => apart name member List.mem_cons_self, once⟩, new,
            fun other member inside => ?_⟩
          exact apart other member (List.mem_cons_of_mem name inside)
        · rintro ⟨⟨absent, once⟩, -, apart⟩
          refine ⟨once, fun other member inside => ?_⟩
          rcases List.mem_cons.mp inside with rfl | inside
          · exact absent member
          · exact apart other member inside
  exact (within []).trans (and_iff_left fun _ _ => List.not_mem_nil)

theorem distinct_eq_ok_iff {what : NameKind} {names : List Name} {span : Span}
    {session after : Session} {value : Unit} :
    Check.distinct what names span session = .ok value after ↔ names.Nodup ∧ after = session := by
  rw [← firstRepeated?_eq_none, Check.distinct]
  cases found : Check.firstRepeated? names with
  | some name => simp [Check.fail, throw_apply]
  | none =>
    simp only [true_and]
    exact pure_eq_ok.trans ⟨fun same => same.2.symm, fun same => ⟨rfl, same.symm⟩⟩

theorem sorted_push {change : Subst → TyVar × Subst} {cell : Cell} (pushes : change = (·.push cell))
    (kind : Kind) :
    Reaches (Session.Sorted ranks opened) sorting
    (fun later v => later = sorting.extend v kind ∧ sorting.size ≤ v.index)
      (Check.onSubst change) := by
  subst pushes
  refine .modifyGet fun here => ?_
  obtain ⟨v, rfl, new, grown, there⟩ := here.push cell kind
  exact ⟨_, grown, there, rfl, new⟩

theorem fresh_eq (here : state.Sorted sorting) :
    Reaches (Session.Sorted ranks opened) sorting
      (fun later result => later = sorting.withTable sorting.table.fresh.2 ∧
        result = (.var sorting.table.count, { state with kinds := later.table }))
      (freshKind state) := by
  refine .ahead sorting.le_fresh (fun session => session.grow sorting.le_fresh rfl rfl)
    (.pure ⟨rfl, ?_⟩)
  rw [← here.table]
  rfl

theorem sorted_freshKind (here : state.Sorted sorting) :
    Reaches (Session.Sorted ranks opened) sorting
      (Kinded state.scope fun later kind => kind.Below later.table.count) (freshKind state) := by
  refine (fresh_eq here).imp fun {later result} _ both => ?_
  obtain ⟨rfl, rfl⟩ := both
  exact ⟨by simp [Sorting.withTable, KindTable.fresh, KindTable.count, Kind.Below],
    here.advance here.tame.fresh sorting.le_fresh, rfl⟩

theorem sorted_expectKind (here : state.Sorted sorting) {expected found : Kind}
    (below : expected.Below sorting.table.count) (below' : found.Below sorting.table.count)
    (span : Span) :
    Reaches (Session.Sorted ranks opened) sorting
    (Kinded state.scope fun later _ => later.Agree expected found)
      (expectKind expected found span state) := by
  unfold expectKind
  refine .state_own ?_
  rw [here.table]
  cases compared : sorting.table.unify expected found with
  | mk equal kinds =>
    cases equal with
    | false =>
      have kept : Reaches (Session.Sorted ranks opened) sorting unsaid
          ((set { state with kinds } : Elaborate PUnit) state) := .pure trivial
      exact .state_bind kept fun _ _ => .state_throw _
    | true =>
      have equates := here.tame.equates_unify below below' compared
      obtain ⟨grown, agree⟩ := Sorting.le_of_equates equates
      exact .ahead grown (fun session => session.grow grown rfl rfl)
        (.pure ⟨agree, here.advance equates.tame grown, rfl⟩)

theorem sorted_expectStar (here : state.Sorted sorting) {result : Ty × Kind}
    (sorts : sorting.Sorts result.1 result.2) (span : Span) :
    Reaches (Session.Sorted ranks opened) sorting
      (Kinded state.scope fun later ty => later.Sorts ty .star ∧ later.Agree result.2 .star)
      (expectStar result span state) := by
  have below : Kind.star.Below sorting.table.count := trivial
  exact .state_bind (sorted_expectKind here below sorts.below span) fun grown agree =>
    .state_pure ⟨⟨(sorts.grow grown).convert trivial agree.said.symm, agree.said.symm⟩, agree.kinds,
      agree.scope⟩

theorem sorted_intTy (width : Nat) :
    Reaches (Session.Sorted ranks opened) sorting
    (fun later ty => later.table = sorting.table ∧ later.Sorts ty .star) (Check.intTy width) := by
  refine .modifyGet fun {session} here => ?_
  obtain ⟨later, grown, same, there, declares⟩ := here.registry.intTemplate width
  have kept := here.registry.kind?_le (session.registry.le_intTemplate width)
  have names : strict → ∀ {name kind}, ranks name = some kind →
      (session.registry.intTemplate width).2.kind? name = some kind := by
    rw [kept]
    exact here.names
  refine ⟨later, grown, ⟨?_, there, names⟩, ?_, .named declares⟩
  · rcases same with rfl | rfl
    · exact here.size
    · exact here.size
  · rcases same with rfl | rfl
    · rfl
    · rfl

theorem sorted_typeName (here : state.Sorted sorting) (name : Name) (span : Span) :
    Reaches (Session.Sorted ranks opened) sorting
      (Kinded state.scope fun later result => later.Sorts result.1 result.2 ∧
        (strict → ∀ {kind}, ranks name = some kind → result.2 = kind))
      (typeName name span state) := by
  refine .state_get fun session around => ?_
  have kind : ∀ {found}, session.registry.kind? name = some found →
      strict → ∀ {kind}, ranks name = some kind → found = kind := fun isKind given kind same =>
    Option.some.inj (isKind.symm.trans (around.names given same))
  cases known : session.registry.types.get? name with
  | none =>
    cases spelled : intWidth? name with
    | none => exact .state_throw _
    | some width =>
      refine .state_lift (sorted_intTy width) fun grown read =>
        .state_pure ⟨⟨read.2, kind ?_⟩, here.grow grown read.1, rfl⟩
      rw [Registry.kind?, known]
      simp only [spelled, Option.map_some]
  | some entry =>
    cases entry with
    | synonym ty found =>
      refine .state_pure ⟨⟨(around.registry.synonym known).2, kind ?_⟩, here, rfl⟩
      rw [Registry.kind?, known]
    | data id =>
      obtain ⟨template, defined⟩ := around.registry.data known
      have sorted := around.registry.template defined
      have isKind : session.registry.kind? name = some template.kind := by
        rw [Registry.kind?, known]
        simp only [defined, Option.map_some]
      simp only [defined]
      split
      · rename_i empty
        have none : template.params = [] := List.isEmpty_iff.mp empty
        have declares := sorted.declares
        rw [Template.kind, none] at isKind
        rw [none] at declares
        exact .state_pure ⟨⟨.named declares, kind isKind⟩, here, rfl⟩
      · exact .state_pure ⟨⟨sorted.sorts_selfTy, kind isKind⟩, here, rfl⟩

theorem sorted_typeVar (here : state.Sorted sorting) (name : Name) (span : Span) :
    Reaches (Session.Sorted ranks opened) sorting
      (Kinded state.scope fun later result => later.Sorts result.1 result.2 ∧
        ∀ {binding}, state.scope.find? (·.name = name) = some binding → result.2 = binding.kind)
      (typeVar name span state) := by
  refine .state_own ?_
  cases inScope : state.scope.find? (·.name = name) with
  | some binding =>
    exact .state_pure ⟨⟨here.scope binding (List.mem_of_find?_eq_some inScope),
      fun same => congrArg TypeBinding.kind (Option.some.inj same)⟩, here, rfl⟩
  | none =>
    cases known : state.free with
    | none => exact .state_throw _
    | some made =>
      cases found : made.find? (·.name = name) with
      | some binding =>
        simp only [found]
        exact .state_pure ⟨⟨here.free known binding (List.mem_of_find?_eq_some found), nofun⟩,
          here, rfl⟩
      | none =>
        simp only [found]
        refine .state_bind (sorted_freshKind here) fun {middle kind last} grown fresh => ?_
        refine .state_lift (sorted_push rfl kind) fun {_ var} grown' pushed =>
          .state_modify (.state_pure ?_)
        obtain ⟨rfl, new⟩ := pushed
        have sorts := middle.sorts_extend var fresh.said
        have there := fresh.kinds.grow grown' rfl
        refine ⟨⟨sorts, nofun⟩, ⟨there.table, there.tame, there.scope, fun {_} same => ?_⟩,
          fresh.scope⟩
        obtain rfl := Option.some.inj same
        exact List.forall_mem_cons.mpr ⟨sorts, fun binding member =>
          ((here.free known binding member).grow grown).grow grown'⟩

theorem sorted_bindParam (here : state.Sorted sorting) (name : Name) :
    Reaches (Session.Sorted ranks opened) sorting
      (fun later result => later.Sorts (.var result.1.1) result.1.2 ∧ result.2.Sorted later ∧
        result.2.scope = ⟨name, result.1.1, result.1.2⟩ :: state.scope)
      (bindParam name state) := by
  refine .state_lift (sorted_push rfl (.var sorting.table.count)) fun {later var} grown pushed => ?_
  obtain ⟨rfl, new⟩ := pushed
  have there := here.grow grown rfl
  refine .state_bind (fresh_eq there) fun {last kind _} grown' fresh =>
    .state_modify (.state_pure ?_)
  obtain ⟨rfl, same⟩ := fresh
  obtain ⟨rfl, rfl⟩ := Prod.mk.inj same
  have below : (Kind.var sorting.table.count).Below sorting.table.fresh.2.count := by
    simp [KindTable.fresh, KindTable.count, Kind.Below]
  have sorts := Sorting.sorts_of_extend below grown'
  have after := there.advance there.tame.fresh grown'
  exact ⟨sorts, after.inScope (List.forall_mem_cons.mpr ⟨sorts, after.scope⟩), rfl⟩

theorem sorted_bindParams (here : state.Sorted sorting) (names : List Name) :
    Reaches (Session.Sorted ranks opened) sorting
      (fun later result => (∀ param ∈ result.1, later.Sorts (.var param.1) param.2) ∧
        result.2.Sorted later ∧
        names.length = result.1.length ∧ result.2.scope = bindings names result.1 ++ state.scope)
      (names.mapM bindParam state) := by
  induction names generalizing state sorting with
  | nil => exact .pure ⟨List.forall_mem_nil _, here, rfl, rfl⟩
  | cons name names ih =>
    rw [List.mapM_cons]
    refine .state_bind (sorted_bindParam here name) fun {_ var middle} _ first => ?_
    obtain ⟨sorts, there, scope⟩ := first
    refine .state_bind (ih there) fun {_ vars last} grown rest => .state_pure ?_
    obtain ⟨each, there', length, scope'⟩ := rest
    refine ⟨List.forall_mem_cons.mpr ⟨sorts.grow grown, each⟩, there', congrArg Nat.succ length, ?_⟩
    rw [scope', scope, bindings, bindings, List.zip_cons_cons, List.map_cons, List.reverse_cons,
      List.append_assoc]
    rfl

theorem find?_bindings_of_notMem {names : List Name} {vars : List (TyVar × Kind)} {name : Name}
    (absent : name ∉ names) : (bindings names vars).find? (·.name = name) = none := by
  refine List.find?_eq_none.mpr fun binding inside same => absent ?_
  obtain ⟨entry, inZip, rfl⟩ := List.mem_map.mp (List.mem_reverse.mp inside)
  exact of_decide_eq_true same ▸ (List.of_mem_zip inZip).1

theorem find?_bindings {names : List Name} {vars : List (TyVar × Kind)} {outer : List TypeBinding}
    (once : names.Nodup) (length : names.length = vars.length) {param : TyVar × Kind}
    (member : param ∈ vars) :
    ∃ name ∈ names, (bindings names vars ++ outer).find? (·.name = name) =
      some ⟨name, param.1, param.2⟩ := by
  induction names generalizing vars outer with
  | nil =>
    obtain rfl := List.length_eq_zero_iff.mp length.symm
    cases member
  | cons first names ih =>
    obtain ⟨var, vars, rfl⟩ := List.exists_cons_of_length_eq_add_one length.symm
    obtain ⟨absent, once⟩ := List.nodup_cons.mp once
    have split : bindings (first :: names) (var :: vars) ++ outer =
        bindings names vars ++ ⟨first, var.1, var.2⟩ :: outer := by
      rw [bindings, List.zip_cons_cons, List.map_cons, List.reverse_cons, List.append_assoc]
      rfl
    rw [split]
    rcases List.mem_cons.mp member with rfl | member
    · refine ⟨first, List.mem_cons_self, ?_⟩
      rw [List.find?_append, find?_bindings_of_notMem absent, Option.none_or, List.find?_cons,
        decide_eq_true rfl]
    · obtain ⟨name, inside, found⟩ :=
        @ih vars (⟨first, var.1, var.2⟩ :: outer) once (Nat.succ.inj length) member
      exact ⟨name, List.mem_cons_of_mem first inside, found⟩

theorem sorted_distinct (what : NameKind) (names : List Name) (span : Span) :
    Reaches (Session.Sorted ranks opened) sorting (fun later _ => later = sorting ∧ names.Nodup)
      (Check.distinct what names span) := by
  refine reaches_of_ok fun session after value here ended => ?_
  obtain ⟨once, rfl⟩ := distinct_eq_ok_iff.mp ended
  exact ⟨sorting, le_rfl, here, rfl, once⟩

theorem sorted_freshVar (kind : Kind) :
    Reaches (Session.Sorted ranks opened) sorting
      (fun later ty => ∃ v, ty = .var v ∧ later = sorting.extend v kind ∧ sorting.size ≤ v.index)
      Check.freshVar := by
  refine .modifyGet fun here => ?_
  obtain ⟨v, rfl, new, grown, there⟩ := here.push .unbound kind
  exact ⟨_, grown, there, _, rfl, rfl, new⟩

/-- A written type has been read in the scope. The variables that it uses as types have kind `*`, if
it stands where types of its kind stand. -/
structure Placed (ranks : Name → Option Kind) (scope : List TypeBinding)
    (written : Surface.TypeExpr) (later : Sorting strict)
    (result : (Ty × Kind) × Elaborator) : Prop where
  sorts : later.Sorts result.1.1 result.1.2
  kinds : result.2.Sorted later
  outer : result.2.scope = scope
  known : strict → ∀ {span name kind}, written = .name span name → ranks name = some kind →
    result.1.2 = kind
  star : strict → ∀ {name kind} {binding : TypeBinding}, written.Uses ranks name kind →
    scope.find? (·.name = name) = some binding →
    ∀ {last : Sorting strict}, later ≤ last → last.Agree result.1.2 kind →
      last.Agree binding.kind .star

structure PlacedArgs (ranks : Name → Option Kind) (scope : List TypeBinding)
    (written : List Surface.TypeExpr) (later : Sorting strict)
    (results : List (Ty × Kind) × Elaborator) : Prop where
  sorts : ∀ result ∈ results.1, later.Sorts result.1 result.2
  kinds : results.2.Sorted later
  outer : results.2.scope = scope
  length : results.1.length = written.length
  star : strict → ∀ entry ∈ written.zip results.1, ∀ {name kind} {binding : TypeBinding},
    entry.1.Uses ranks name kind → scope.find? (·.name = name) = some binding →
    ∀ {last : Sorting strict}, later ≤ last → last.Agree entry.2.2 kind →
      last.Agree binding.kind .star

structure PlacedAll (ranks : Name → Option Kind) (scope : List TypeBinding)
    (written : List Surface.TypeExpr) (later : Sorting strict)
    (result : List Ty × Elaborator) : Prop where
  sorts : ∀ ty ∈ result.1, later.Sorts ty .star
  kinds : result.2.Sorted later
  outer : result.2.scope = scope
  star : strict → ∀ element ∈ written, ∀ {name} {binding : TypeBinding},
    element.Uses ranks name .star → scope.find? (·.name = name) = some binding →
    later.Agree binding.kind .star

structure PlacedStar (ranks : Name → Option Kind) (scope : List TypeBinding)
    (written : Surface.TypeExpr) (later : Sorting strict) (result : Ty × Elaborator) : Prop where
  sorts : later.Sorts result.1 .star
  kinds : result.2.Sorted later
  outer : result.2.scope = scope
  star : strict → ∀ {name} {binding : TypeBinding}, written.Uses ranks name .star →
    scope.find? (·.name = name) = some binding → later.Agree binding.kind .star

variable {scope : List TypeBinding} {written : Surface.TypeExpr}

theorem Placed.expectStar {result : Ty × Kind}
    (read : Placed ranks scope written sorting (result, state)) (span : Span) :
    Reaches (Session.Sorted ranks opened) sorting (PlacedStar ranks scope written)
    (expectStar result span state) := by
  refine (sorted_expectStar read.kinds read.sorts span).imp fun grown found => ?_
  exact ⟨found.said.1, found.kinds, found.scope.trans read.outer, fun given _ _ uses inScope =>
    read.star given uses inScope grown found.said.2⟩

theorem PlacedArgs.star_of_name {args : List Surface.TypeExpr} {results : List (Ty × Kind)}
    {params : List Kind}
    {result fresh : Kind} (read : PlacedArgs ranks scope args sorting (results, state))
    (grown : sorting ≤ later)
    (agree : later.Agree (.function (results.map (·.2)) fresh) (.function params result))
    (given : strict) {arg : Surface.TypeExpr} {param : Kind}
    (member : (arg, param) ∈ args.zip params) {name : Name} {binding : TypeBinding}
    (uses : arg.Uses ranks name param) (inScope : scope.find? (·.name = name) = some binding) :
    later.Agree binding.kind .star := by
  obtain ⟨index, inside, same⟩ := List.getElem_of_mem member
  rw [List.getElem_zip] at same
  obtain ⟨rfl, rfl⟩ := Prod.mk.inj same
  rw [List.length_zip] at inside
  have length : results.length = args.length := read.length
  have entry := @getElem_mem_zip _ _ args results index (by omega) (by omega)
  refine read.star given _ entry uses inScope grown fun reading admits => ?_
  have functions := agree reading admits
  rw [Kind.under_function, Kind.under_function] at functions
  have within : index < ((results.map (·.2)).map (Kind.under reading.values)).length := by
    simp only [List.length_map]
    omega
  have within' : index < (params.map (Kind.under reading.values)).length := by
    rw [List.length_map]
    omega
  simpa using Kind.function_getElem functions within within'

mutual

theorem sorted_type : ∀ (written : Surface.TypeExpr) {sorting : Sorting strict}
    {state : Elaborator}, (strict → written.QuantifiesTypes ranks) → state.Sorted sorting →
    Reaches (Session.Sorted ranks opened) sorting (Placed ranks state.scope written)
    (type written state)
  | .name span name, _, _, _, here => by
    unfold type
    refine (sorted_typeName here name span).imp fun _ read => ?_
    refine ⟨read.said.1, read.kinds, read.scope, fun given _ _ _ same => ?_,
      fun _ {_ _ _} uses => ?_⟩
    · obtain ⟨-, rfl⟩ := Surface.TypeExpr.name.inj same
      exact read.said.2 given
    · cases uses
  | .var span name, _, _, _, here => by
    unfold type
    refine (sorted_typeVar here name span).imp fun _ read => ?_
    refine ⟨read.said.1, read.kinds, read.scope,
      fun _ _ _ _ same => Surface.TypeExpr.noConfusion same,
      fun _ {_ _ _} uses inScope _ _ agree => ?_⟩
    cases uses
    rwa [read.said.2 inScope] at agree
  | .app span head args, _, state, permits, here => by
    have permitsHead : strict → head.QuantifiesTypes ranks := fun given => (permits given).1
    have permitsArgs : strict → Surface.TypeExpr.AllQuantifyTypes ranks args :=
      fun given => (permits given).2
    unfold type
    refine .state_bind (sorted_type head permitsHead here) fun {_ headResult _} grown headRead => ?_
    refine .state_bind (sorted_types args permitsArgs headRead.kinds) fun {_ entries _}
      grown read => ?_
    refine .state_bind (sorted_freshKind read.kinds) fun {_ kind _} grown' fresh => ?_
    have each := fun entry member => (read.sorts entry member).grow grown'
    have fst := (headRead.sorts.grow grown).grow grown'
    have below := Kind.below_function.mpr
      ⟨List.forall_mem_map.mpr fun entry member => (each entry member).below, fresh.said⟩
    refine .state_bind (sorted_expectKind fresh.kinds below fst.below span) fun grown'' agree =>
      .state_pure ?_
    refine ⟨?_, agree.kinds,
      agree.scope.trans (fresh.scope.trans (read.outer.trans headRead.outer)),
      fun _ _ _ _ same => Surface.TypeExpr.noConfusion same,
        fun given {_ _ _} uses inScope last further _ => ?_⟩
    · refine .apply ((fst.grow grown'').convert (below.mono grown''.1) agree.said.symm) fun entry
        member => ?_
      exact (each entry member).grow grown''
    · cases uses with
      | argument known member inside =>
        have agree := agree.said.grow further
        rw [headRead.known given rfl known] at agree
        refine read.star_of_name ((grown'.trans grown'').trans further) agree given member inside ?_
        rwa [headRead.outer]
  | .arrow _ param result, _, state, permits, here => by
    have permitsParam : strict → param.QuantifiesTypes ranks := fun given => (permits given).1
    have permitsResult : strict → result.QuantifiesTypes ranks := fun given => (permits given).2
    unfold type
    refine .state_bind (sorted_type param permitsParam here) fun _ read => ?_
    refine .state_bind (read.expectStar _) fun _ fst => ?_
    refine .state_bind (sorted_type result permitsResult fst.kinds) fun grown read => ?_
    refine .state_bind (read.expectStar _) fun grown' snd => .state_pure ?_
    refine ⟨.arrow ((fst.sorts.grow grown).grow grown') snd.sorts, snd.kinds,
      snd.outer.trans fst.outer,
      fun _ _ _ _ same => Surface.TypeExpr.noConfusion same,
        fun given {_ _ _} uses inScope _ further _ => ?_⟩
    cases uses with
    | param inside =>
      exact (fst.star given inside inScope).grow ((grown.trans grown').trans further)
    | result inside => exact (snd.star given inside (fst.outer ▸ inScope)).grow further
  | .tuple _ [inner], _, _, permits, here => by
    have permitsInner : strict → inner.QuantifiesTypes ranks := fun given => (permits given).1
    unfold type
    refine (sorted_type inner permitsInner here).imp fun _ read => ?_
    refine ⟨read.sorts, read.kinds, read.outer,
      fun _ _ _ _ same => Surface.TypeExpr.noConfusion same, fun given {_ _ _} uses => ?_⟩
    cases uses with
    | group inside => exact read.star given inside
    | element several _ _ => exact absurd rfl several
  | .tuple _ [], _, _, permits, here => by
    unfold type
    refine .state_bind (sorted_starTypes [] permits here) fun _ read => .state_pure ?_
    refine ⟨.tuple read.sorts, read.kinds, read.outer,
      fun _ _ _ _ same => Surface.TypeExpr.noConfusion same, fun given {_ _ _} uses => ?_⟩
    cases uses with
    | element _ member _ => cases member
  | .tuple _ (first :: second :: rest), _, _, permits, here => by
    unfold type
    refine .state_bind (sorted_starTypes (first :: second :: rest) permits here) fun _ read =>
      .state_pure ?_
    refine ⟨.tuple read.sorts, read.kinds, read.outer,
      fun _ _ _ _ same => Surface.TypeExpr.noConfusion same,
      fun given {_ _ _} uses inScope _ further _ => ?_⟩
    cases uses with
    | element _ member inside => exact (read.star given _ member inside inScope).grow further
  | .quantified span params body, _, state, permits, here => by
    have permitsBody : strict → body.QuantifiesTypes ranks := fun given => (permits given).2
    unfold type
    refine .state_lift (sorted_distinct _ _ _) fun {_ _} _ same => .state_own ?_
    obtain ⟨rfl, once⟩ := same
    refine .state_bind (sorted_bindParams here params) fun {_ vars _} grown bound => ?_
    obtain ⟨sorts, kinds, length, inner⟩ := bound
    refine .state_bind (sorted_type body permitsBody kinds) fun grown' read => ?_
    refine .state_bind (read.expectStar _) fun {last _ after} grown'' inside => .state_modify ?_
    have outer := inside.kinds.inScope fun binding member =>
      (((here.scope binding member).grow grown).grow grown').grow grown''
    have star : strict → ∀ {name kind} {binding : TypeBinding},
        (Surface.TypeExpr.quantified span params body).Uses ranks name kind →
        state.scope.find? (·.name = name) = some binding → last.Agree binding.kind .star := by
      intro given name kind binding uses inScope
      cases uses with
      | body other uses =>
        refine inside.star given uses ?_
        rw [inner, List.find?_append, find?_bindings_of_notMem other, Option.none_or]
        exact inScope
    have isBound : ∀ v ∈ vars.map (·.1), ∀ reading, last.Admits reading →
        Binds strict (reading.kinds v) := by
      rintro v member reading admits given
      obtain ⟨param, isParam, rfl⟩ := List.mem_map.mp member
      obtain ⟨name, isName, found⟩ := find?_bindings once length isParam
      have agree := inside.star given ((permits given).1 name isName) (inner ▸ found)
      have kind :=
        ((((sorts param isParam).grow grown').grow grown'').sorted reading admits).var_inv
      exact kind.symm.trans (agree reading admits)
    split
    · exact .state_pure ⟨inside.sorts, outer, rfl,
        fun _ _ _ _ same => Surface.TypeExpr.noConfusion same,
        fun given {_ _ _} uses inScope _ further _ => (star given uses inScope).grow further⟩
    · exact .state_pure ⟨.quantified isBound inside.sorts, outer, rfl,
        fun _ _ _ _ same => Surface.TypeExpr.noConfusion same,
        fun given {_ _ _} uses inScope _ further _ => (star given uses inScope).grow further⟩
  | .hole _, _, _, _, here => by
    unfold type
    refine .state_bind (sorted_freshKind here) fun {_ kind _} _ fresh => ?_
    refine .state_lift (sorted_freshVar kind) fun grown made => ?_
    obtain ⟨v, rfl, rfl, -⟩ := made
    refine .state_pure ⟨Sorting.sorts_extend _ v fresh.said, fresh.kinds.grow grown rfl,
      fresh.scope, fun _ _ _ _ same => Surface.TypeExpr.noConfusion same, fun _ {_ _ _} uses => ?_⟩
    cases uses

theorem sorted_types : ∀ (written : List Surface.TypeExpr) {sorting : Sorting strict}
    {state : Elaborator},
    (strict → Surface.TypeExpr.AllQuantifyTypes ranks written) → state.Sorted sorting →
    Reaches (Session.Sorted ranks opened) sorting (PlacedArgs ranks state.scope written)
      (types written state)
  | [], _, _, _, here => by
    unfold types
    exact .state_pure ⟨List.forall_mem_nil _, here, rfl, rfl, fun _ => nofun⟩
  | written :: rest, _, _, permits, here => by
    have permitsFirst : strict → written.QuantifiesTypes ranks := fun given => (permits given).1
    have permitsRest : strict → Surface.TypeExpr.AllQuantifyTypes ranks rest :=
      fun given => (permits given).2
    unfold types
    refine .state_bind (sorted_type written permitsFirst here) fun _ first => ?_
    refine .state_bind (sorted_types rest permitsRest first.kinds) fun grown others =>
      .state_pure ?_
    refine ⟨List.forall_mem_cons.mpr ⟨first.sorts.grow grown, others.sorts⟩, others.kinds,
      others.outer.trans first.outer, congrArg Nat.succ others.length, fun given => ?_⟩
    rw [List.zip_cons_cons]
    refine List.forall_mem_cons.mpr ⟨fun {_ _ _} uses inScope _ further => ?_,
      fun entry member {_ _ _} uses inScope => others.star given entry member uses
        (first.outer ▸ inScope)⟩
    exact first.star given uses inScope (grown.trans further)

theorem sorted_starTypes : ∀ (written : List Surface.TypeExpr) {sorting : Sorting strict}
    {state : Elaborator},
    (strict → Surface.TypeExpr.AllQuantifyTypes ranks written) → state.Sorted sorting →
    Reaches (Session.Sorted ranks opened) sorting (PlacedAll ranks state.scope written)
      (starTypes written state)
  | [], _, _, _, here => by
    unfold starTypes
    exact .state_pure ⟨List.forall_mem_nil _, here, rfl, fun _ => nofun⟩
  | written :: rest, _, _, permits, here => by
    have permitsFirst : strict → written.QuantifiesTypes ranks := fun given => (permits given).1
    have permitsRest : strict → Surface.TypeExpr.AllQuantifyTypes ranks rest :=
      fun given => (permits given).2
    unfold starTypes
    refine .state_bind (sorted_type written permitsFirst here) fun _ read => ?_
    refine .state_bind (read.expectStar _) fun _ first => ?_
    refine .state_bind (sorted_starTypes rest permitsRest first.kinds) fun grown others =>
      .state_pure ?_
    refine ⟨List.forall_mem_cons.mpr ⟨first.sorts.grow grown, others.sorts⟩, others.kinds,
      others.outer.trans first.outer, fun given => List.forall_mem_cons.mpr ⟨?_, ?_⟩⟩
    · exact fun {_ _} uses inScope => (first.star given uses inScope).grow grown
    · exact fun element member {_ _} uses inScope =>
        others.star given element member uses (first.outer ▸ inScope)

end

end Elaborate

end PolyCheck
