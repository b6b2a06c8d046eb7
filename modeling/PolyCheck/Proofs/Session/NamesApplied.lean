import PolyCheck.Proofs.Session.Unapplied

/-! Written types in which only names are applied. Such a name is given no more types than its kind
takes, so no application is left in what is read; declarations then register fields and aliases
without applications. -/
namespace PolyCheck

open Run

namespace Surface

mutual

/-- Only names are applied to types. -/
def TypeExpr.AppliesNames : TypeExpr → Prop
  | .name _ _ => True
  | .var _ _ => True
  | .app _ head args => (∃ span name, head = .name span name) ∧ TypeExpr.AllApplyNames args
  | .arrow _ param result => param.AppliesNames ∧ result.AppliesNames
  | .tuple _ elements => TypeExpr.AllApplyNames elements
  | .quantified _ _ body => body.AppliesNames
  | .hole _ => True

def TypeExpr.AllApplyNames : List TypeExpr → Prop
  | [] => True
  | written :: rest => written.AppliesNames ∧ TypeExpr.AllApplyNames rest

end

/-- All the types written in a unit apply names only. -/
def Decl.AppliesNames : Decl → Prop
  | .data _ types => ∀ type ∈ types, ∀ dataCase ∈ type.cases, TypeExpr.AllApplyNames dataCase.fields
  | .synonym _ _ _ body => body.AppliesNames
  | .define _ _ bindings => ∀ type ∈ Expr.annotationsBindings bindings, type.AppliesNames
  | .eval _ expr => ∀ type ∈ expr.annotations, type.AppliesNames

inductive TypeExpr.IsVar : TypeExpr → Prop where
  | var (span : Span) (name : Name) : IsVar (.var span name)
  | parens {inner : TypeExpr} (span : Span) (isVar : inner.IsVar) : IsVar (.tuple span [inner])

end Surface

namespace Session.Unapplied

variable {env : Env} {world : Unit} {state : Elaborator} {α : Type}

/-- A result as described, and kinds whose chains end. -/
def Reads (said : α → Elaborator → Prop) (_ : Unit) (result : α × Elaborator) : Prop :=
  said result.1 result.2 ∧ result.2.kinds.Ends

/-- A read type takes the types that its kind takes in the end. -/
def Taking (result : Ty × Kind) (state : Elaborator) : Prop :=
  ∀ count, (state.kinds.defaulted result.2).Admits count → result.1.Absorbs count

theorem taking_star {ty : Ty} (unapplied : ty.Unapplied) : Taking (ty, .star) state := by
  intro count admits
  cases count with
  | zero => exact .none unapplied
  | succ count => exact (KindTable.admits_of_defaulted admits).elim

theorem taking_unsolved {ty : Ty} {index : Nat} (unapplied : ty.Unapplied)
    (unsolved : state.kinds.solution? index = none) : Taking (ty, .var index) state := by
  intro count admits
  rw [KindTable.defaulted_of_unsolved unsolved] at admits
  cases count with
  | zero => exact .none unapplied
  | succ count => exact admits.elim

theorem taking_apply {after : Elaborator} {head : Ty × Kind} {args : List (Ty × Kind)} {index : Nat}
    (takes : ∀ count, head.2.Admits count → head.1.Absorbs count)
    (each : ∀ arg ∈ args, arg.1.Unapplied)
    (ends : state.kinds.Ends) (unsolved : state.kinds.solution? index = none)
    (inside : index < state.kinds.count)
    (agree : state.kinds.unify (.function (args.map (·.2)) (.var index)) head.2 =
      (true, after.kinds)) :
    Taking (head.1.apply (args.map (·.1)), .var index) after := by
  intro count admits
  refine (takes _ (ends.admits_of_unify unsolved inside agree admits)).apply
    (List.forall_mem_map.mpr each) ?_
  rw [List.length_map, List.length_map]

theorem Taking.unapplied {result : Ty × Kind} (taking : Taking result state) : result.1.Unapplied :=
  (taking 0 (Kind.admits_zero _)).unapplied

theorem stays_fail {post : Unit → α × Elaborator → Prop} (cause : ErrorCause) (span : Span) :
    Stays (Session.Unapplied env) world post
    (Elaborate.fail cause span state : Check (α × Elaborator)) :=
  .state_throw _

theorem stays_distinct (what : NameKind) (names : List Name) (span : Span) :
    Stays (Session.Unapplied env) world unsaid (Check.distinct what names span) := by
  unfold Check.distinct
  split
  · exact .throw _
  · exact .pure trivial

theorem stays_expectKind (ends : state.kinds.Ends) (expected found : Kind) (span : Span) :
    Stays (Session.Unapplied env) world
      (Reads fun _ after => state.kinds.unify expected found = (true, after.kinds))
      (Elaborate.expectKind expected found span state) := by
  unfold Elaborate.expectKind
  refine .state_own ?_
  cases compared : state.kinds.unify expected found with
  | mk equal kinds =>
    have kept : Stays (Session.Unapplied env) world
        (fun _ (result : PUnit × Elaborator) => result.2.kinds = kinds)
        ((set { state with kinds } : Elaborate PUnit) state) := .pure rfl
    refine .state_bind kept fun {_ _ after} _ same => ?_
    have same : after.kinds = kinds := same
    cases equal with
    | true => exact .state_pure ⟨congrArg (Prod.mk true) same.symm,
        same ▸ (ends.unify compared).ends⟩
    | false => exact stays_fail _ _

theorem stays_freshKind (ends : state.kinds.Ends) :
    Stays (Session.Unapplied env) world
      (Reads fun kind after => ∃ index, kind = .var index ∧ after.kinds.solution? index = none ∧
        index < after.kinds.count)
      (Elaborate.freshKind state) := by
  have unsolved : state.kinds.fresh.2.solution? state.kinds.count = none := by
    rw [KindTable.solution?_fresh, KindTable.solution?, KindTable.count,
      Array.getElem?_eq_none (Nat.le_refl _)]
    rfl
  have inside : state.kinds.count < state.kinds.fresh.2.count := by
    simp [KindTable.fresh, KindTable.count]
  exact .pure ⟨⟨state.kinds.count, rfl, unsolved, inside⟩, ends.fresh⟩

theorem stays_expectStar {result : Ty × Kind} (ends : state.kinds.Ends)
    (unapplied : result.1.Unapplied) (span : Span) :
    Stays (Session.Unapplied env) world (Reads fun ty _ => ty.Unapplied)
    (Elaborate.expectStar result span state) :=
  .state_bind (stays_expectKind ends _ _ _) fun _ kinds => .state_pure ⟨unapplied, kinds.2⟩

theorem stays_typeName (ends : state.kinds.Ends) (name : Name) (span : Span) :
    Stays (Session.Unapplied env) world
      (Reads fun result _ => ∀ count, result.2.Admits count → result.1.Absorbs count)
      (Elaborate.typeName name span state) := by
  have plain : ∀ {ty : Ty}, ty.Unapplied → ∀ count, Kind.star.Admits count → ty.Absorbs count := by
    intro ty unapplied count admits
    cases count with
    | zero => exact .none unapplied
    | succ count => exact admits.elim
  have named : ∀ id, (Ty.named id).Unapplied := fun id => .nominal (List.forall_mem_nil _)
  refine .state_get fun session around => ?_
  cases known : session.registry.types.get? name with
  | none =>
    cases Elaborate.intWidth? name with
    | none => exact stays_fail _ _
    | some width =>
      exact .state_lift (stays_intTy width) fun _ unapplied => .state_pure ⟨plain unapplied, ends⟩
  | some entry =>
    cases entry with
    | synonym ty kind => exact .state_pure ⟨around.registry.type known, ends⟩
    | data id =>
      cases defined : session.registry.template? id with
      | none =>
        simp only [defined]
        exact .state_pure ⟨plain (named id), ends⟩
      | some template =>
        simp only [defined]
        split
        · exact .state_pure ⟨plain (named id), ends⟩
        · exact .state_pure ⟨fun count admits => Registry.Unapplied.absorbs_selfTy template id
            admits, ends⟩

theorem stays_typeVar (ends : state.kinds.Ends) (name : Name) (span : Span) :
    Stays (Session.Unapplied env) world (Reads fun result _ => result.1.Unapplied)
      (Elaborate.typeVar name span state) := by
  refine .state_own ?_
  cases state.scope.find? (·.name = name) with
  | some binding => exact .state_pure ⟨Ty.Applied.var binding.var, ends⟩
  | none =>
    cases state.free with
    | none => exact stays_fail _ _
    | some made =>
      cases found : made.find? (·.name = name) with
      | some binding =>
        simp only [found]
        exact .state_pure ⟨Ty.Applied.var binding.var, ends⟩
      | none =>
        simp only [found]
        refine .state_bind (stays_freshKind ends) fun _ kind => ?_
        exact .state_lift (stays_fresh Cell.isNew_unbound fun _ => rfl) fun _ _ =>
          .state_modify (.state_pure ⟨Ty.Applied.var _, kind.2⟩)

theorem stays_bindParam (ends : state.kinds.Ends) (name : Name) :
    Stays (Session.Unapplied env) world (Reads unsaid) (Elaborate.bindParam name state) := by
  refine .state_lift (stays_fresh (Cell.isNew_rigid (some name)) fun _ => rfl) fun _ _ => ?_
  exact .state_bind (stays_freshKind ends) fun _ kind =>
    .state_modify (.state_pure ⟨trivial, kind.2⟩)

theorem stays_bindParams (ends : state.kinds.Ends) (names : List Name) :
    Stays (Session.Unapplied env) world (fun _ result => result.2.kinds.Ends)
      (names.mapM Elaborate.bindParam state) := by
  refine (Arrives.state_mapM unsaid unsaid (fun _ (state : Elaborator) => state.kinds.Ends)
    (fun _ _ => trivial)
    (fun _ _ => trivial) (fun _ _ => trivial) ends fun {_ name _} _ _ ends =>
      ?_).imp fun _ both => both.2
  exact stays_bindParam ends name

mutual

theorem stays_type : ∀ {written : Surface.TypeExpr} {state : Elaborator}, written.AppliesNames →
    state.kinds.Ends →
    Stays (Session.Unapplied env) world
      (Reads fun result after => result.1.Unapplied ∧ (¬ written.IsVar → Taking result after))
      (Elaborate.type written state)
  | .name span name, _, _, ends => by
    unfold Elaborate.type
    refine (stays_typeName ends name span).imp fun _ read =>
      ⟨⟨?_, fun _ count admits => ?_⟩, read.2⟩
    · exact (read.1 0 (Kind.admits_zero _)).unapplied
    · exact read.1 count (KindTable.admits_of_defaulted admits)
  | .var span name, _, _, ends => by
    unfold Elaborate.type
    exact (stays_typeVar ends name span).imp fun _ read =>
      ⟨⟨read.1, fun notVar => absurd (.var span name) notVar⟩, read.2⟩
  | .app span _ args, _, names, ends => by
    unfold Surface.TypeExpr.AppliesNames at names
    obtain ⟨⟨span', name, rfl⟩, names⟩ := names
    unfold Elaborate.type Elaborate.type
    refine .state_bind (stays_typeName ends name span') fun _ head => ?_
    refine .state_bind (stays_types names head.2) fun _ read => ?_
    refine .state_bind (stays_freshKind read.2) fun {_ kind _} _ fresh => ?_
    obtain ⟨⟨index, isVar, unsolved, inside⟩, ends⟩ := fresh
    obtain rfl : kind = .var index := isVar
    refine .state_bind (stays_expectKind ends _ _ _) fun _ agree => .state_pure ?_
    have takes := taking_apply head.1 read.1 ends unsolved inside agree.1
    exact ⟨⟨takes.unapplied, fun _ => takes⟩, agree.2⟩
  | .arrow _ param result, _, names, ends => by
    unfold Surface.TypeExpr.AppliesNames at names
    unfold Elaborate.type
    refine .state_bind (stays_type names.1 ends) fun _ read => ?_
    refine .state_bind (stays_expectStar read.2 read.1.1 _) fun _ fst => ?_
    refine .state_bind (stays_type names.2 fst.2) fun _ read => ?_
    refine .state_bind (stays_expectStar read.2 read.1.1 _) fun _ snd => .state_pure ?_
    exact ⟨⟨.arrow fst.1 snd.1, fun _ => taking_star (.arrow fst.1 snd.1)⟩, snd.2⟩
  | .tuple span [inner], _, names, ends => by
    unfold Surface.TypeExpr.AppliesNames Surface.TypeExpr.AllApplyNames at names
    unfold Elaborate.type
    refine (stays_type names.1 ends).imp fun _ read =>
      ⟨⟨read.1.1, fun notVar => read.1.2 ?_⟩, read.2⟩
    exact fun isVar => notVar (.parens span isVar)
  | .tuple _ [], _, names, ends => by
    unfold Surface.TypeExpr.AppliesNames at names
    unfold Elaborate.type
    refine .state_bind (stays_starTypes names ends) fun _ read => .state_pure ?_
    exact ⟨⟨.tuple read.1, fun _ => taking_star (.tuple read.1)⟩, read.2⟩
  | .tuple _ (first :: second :: rest), _, names, ends => by
    unfold Surface.TypeExpr.AppliesNames at names
    unfold Elaborate.type
    refine .state_bind (stays_starTypes names ends) fun _ read => .state_pure ?_
    exact ⟨⟨.tuple read.1, fun _ => taking_star (.tuple read.1)⟩, read.2⟩
  | .quantified span params body, _, names, ends => by
    unfold Surface.TypeExpr.AppliesNames at names
    unfold Elaborate.type
    refine .state_lift (stays_distinct _ _ _) fun _ _ => .state_own ?_
    refine .state_bind (stays_bindParams ends params) fun _ bound => ?_
    refine .state_bind (stays_type names bound) fun _ read => ?_
    refine .state_bind (stays_expectStar read.2 read.1.1 _) fun _ inside => .state_modify ?_
    split
    · exact .state_pure ⟨⟨inside.1, fun _ => taking_star inside.1⟩, inside.2⟩
    · exact .state_pure ⟨⟨.quantified inside.1, fun _ => taking_star (.quantified inside.1)⟩,
        inside.2⟩
  | .hole _, _, _, ends => by
    unfold Elaborate.type
    refine .state_bind (stays_freshKind ends) fun _ fresh => ?_
    obtain ⟨⟨index, rfl, unsolved, -⟩, ends⟩ := fresh
    refine .state_lift stays_freshVar fun _ unapplied =>
      .state_pure ⟨⟨unapplied, fun _ => ?_⟩, ends⟩
    exact taking_unsolved unapplied unsolved

theorem stays_types : ∀ {written : List Surface.TypeExpr} {state : Elaborator},
    Surface.TypeExpr.AllApplyNames written → state.kinds.Ends →
    Stays (Session.Unapplied env) world (Reads fun results _ => ∀ result ∈ results,
      result.1.Unapplied) (Elaborate.types written state)
  | [], _, _, ends => by
    unfold Elaborate.types
    exact .state_pure ⟨List.forall_mem_nil _, ends⟩
  | written :: rest, _, names, ends => by
    unfold Surface.TypeExpr.AllApplyNames at names
    unfold Elaborate.types
    refine .state_bind (stays_type names.1 ends) fun _ first => ?_
    refine .state_bind (stays_types names.2 first.2) fun _ others => .state_pure ⟨?_, others.2⟩
    exact List.forall_mem_cons.mpr ⟨first.1.1, others.1⟩

theorem stays_starTypes : ∀ {written : List Surface.TypeExpr} {state : Elaborator},
    Surface.TypeExpr.AllApplyNames written → state.kinds.Ends →
    Stays (Session.Unapplied env) world (Reads fun types _ => ∀ ty ∈ types, ty.Unapplied)
      (Elaborate.starTypes written state)
  | [], _, _, ends => by
    unfold Elaborate.starTypes
    exact .state_pure ⟨List.forall_mem_nil _, ends⟩
  | written :: rest, _, names, ends => by
    unfold Surface.TypeExpr.AllApplyNames at names
    unfold Elaborate.starTypes
    refine .state_bind (stays_type names.1 ends) fun _ read => ?_
    refine .state_bind (stays_expectStar read.2 read.1.1 _) fun _ first => ?_
    refine .state_bind (stays_starTypes names.2 first.2) fun _ others => .state_pure ⟨?_, others.2⟩
    exact List.forall_mem_cons.mpr ⟨first.1, others.1⟩

end

theorem stays_writtenType {written : Surface.TypeExpr} (names : written.AppliesNames) :
    Stays (Session.Unapplied env) world (fun _ ty => ty.Unapplied) (Check.writtenType written) := by
  have reads : Stays (Session.Unapplied env) world (Reads fun ty _ => ty.Unapplied)
      (Elaborate.starType written .forUse) :=
    .state_bind (stays_type names KindTable.ends_empty) fun _ read =>
      stays_expectStar read.2 read.1.1 _
  exact reads.map fun _ read => read.1

section Alias

/-- Parameters in scope, and nothing known about their kinds. -/
structure Blank (state : Elaborator) : Prop where
  unsolved : ∀ index, state.kinds.solution? index = none
  scope : ∀ binding ∈ state.scope, ∃ index, binding.kind = .var index
  free : state.free = none

theorem Blank.ends (blank : Blank state) : state.kinds.Ends := fun _ index _ => blank.unsolved index

theorem stays_blankKind (blank : Blank state) :
    Stays (Session.Unapplied env) world
    (fun _ result => (∃ index, result.1 = .var index) ∧ Blank result.2)
      (Elaborate.freshKind state) :=
  .pure ⟨⟨state.kinds.count, rfl⟩,
    fun index => (KindTable.solution?_fresh _ index).trans (blank.unsolved index),
    blank.scope, blank.free⟩

theorem stays_blank (names : List Name) :
    Stays (Session.Unapplied env) world (fun _ result => Blank result.2)
      (names.mapM Elaborate.bindParam .forDeclaration) := by
  have start : Blank .forDeclaration := ⟨fun _ => rfl, List.forall_mem_nil _, rfl⟩
  refine (Arrives.state_mapM unsaid unsaid (fun _ => Blank) (fun _ _ => trivial)
    (fun _ _ => trivial)
    (fun _ _ => trivial) start fun {_ name state} _ _ blank => ?_).imp fun _ both => both.2
  refine .state_lift (stays_fresh (Cell.isNew_rigid (some name)) fun _ => rfl) fun _ _ => ?_
  refine .state_bind (stays_blankKind blank) fun _ kind => .state_modify (.state_pure ⟨trivial, ?_⟩)
  exact ⟨kind.2.unsolved, List.forall_mem_cons.mpr ⟨kind.1, kind.2.scope⟩, kind.2.free⟩

theorem stays_aliasVar {written : Surface.TypeExpr} (isVar : written.IsVar) (blank : Blank state) :
    Stays (Session.Unapplied env) world (Reads Taking) (Elaborate.type written state) := by
  induction isVar with
  | parens span _ ih =>
    unfold Elaborate.type
    exact ih
  | var span name =>
    unfold Elaborate.type
    refine .state_own ?_
    cases found : state.scope.find? (·.name = name) with
    | some binding =>
      obtain ⟨index, same⟩ := blank.scope binding (List.mem_of_find?_eq_some found)
      simp only [same]
      exact .state_pure ⟨taking_unsolved (.var _) (blank.unsolved index), blank.ends⟩
    | none =>
      simp only [blank.free]
      exact stays_fail _ _

theorem stays_aliasBody {written : Surface.TypeExpr} (names : written.AppliesNames)
    (blank : Blank state) :
    Stays (Session.Unapplied env) world (Reads Taking) (Elaborate.type written state) := by
  by_cases isVar : written.IsVar
  · exact stays_aliasVar isVar blank
  · exact (stays_type names blank.ends).imp fun _ read => ⟨read.1.2 isVar, read.2⟩

theorem stays_synonym (name : Name) (params : List Name) {body : Surface.TypeExpr}
    (names : body.AppliesNames)
    (span : Span) : Stays (Session.Unapplied env) world unsaid
    (Check.synonym name params body span) := by
  refine (stays_distinct _ _ _).bind fun _ _ => ?_
  have read : Stays (Session.Unapplied env) world (Reads fun result => Taking result.2)
      ((do
        let params ← params.mapM Elaborate.bindParam
        let body ← Elaborate.type body
        pure (params, body) : Elaborate (List (TyVar × Kind) × Ty × Kind)) .forDeclaration) :=
    .state_bind (stays_blank params) fun _ blank =>
      .state_bind (stays_aliasBody names blank) fun _ read => .state_pure read
  refine read.bind fun {_ result} _ taking => ?_
  obtain ⟨⟨vars, ty, bodyKind⟩, state⟩ := result
  refine stays_onRegistry fun around => ⟨around.defineType name fun count admits => ?_, trivial⟩
  obtain ⟨rest, admits, le⟩ := Kind.admits_function admits
  have absorbs : ty.Absorbs rest := taking.1 rest admits
  rw [List.length_map] at le
  split
  · rename_i empty
    rw [List.isEmpty_iff.mp empty, List.length_nil, Nat.zero_add] at le
    exact absorbs.le le
  · exact .quantified absorbs (by rwa [List.length_map])

end Alias

section Data

theorem stays_modifyTemplate {id : TemplateId} {change : Template → Template}
    (changed : ∀ template : Template, template.Unapplied → (change template).Unapplied) :
    Stays (Session.Unapplied env) world unsaid
      (Check.onRegistry fun registry => ((), registry.modifyTemplate id change)) :=
  stays_onRegistry fun around =>
    ⟨around.modifyTemplate fun template known => changed template (around.template known), trivial⟩

theorem stays_enterData (decl : Surface.DataDecl) (ends : state.kinds.Ends) :
    Stays (Session.Unapplied env) world (Reads unsaid) (Elaborate.enterData decl state) := by
  refine .state_lift (stays_distinct _ _ _) fun _ _ => ?_
  refine .state_bind (stays_bindParams ends decl.params) fun {_ params _} _ bound => ?_
  have made : (Template.openWith decl.name params).Unapplied := List.forall_mem_nil _
  have entered : Stays (Session.Unapplied env) world unsaid (Check.onRegistry fun registry =>
      let allocated := registry.alloc (.openWith decl.name params)
      (allocated.1, allocated.2.defineType decl.name (.data allocated.1))) :=
    stays_onRegistry fun around => ⟨(around.alloc made).defineType _ trivial, trivial⟩
  exact .state_modify (.state_lifted entered fun _ _ => ⟨trivial, bound⟩)

theorem stays_addCase (id : TemplateId) {decl : Surface.CaseDecl}
    (names : Surface.TypeExpr.AllApplyNames decl.fields) (ends : state.kinds.Ends) :
    Stays (Session.Unapplied env) world (fun _ result => result.2.kinds.Ends)
    (Elaborate.addCase id decl state) := by
  refine .state_bind (stays_starTypes names ends) fun {_ fields _} _ read => ?_
  refine .state_get fun session around => ?_
  cases found : (session.registry.template? id).bind (·.addCase? decl.name fields) with
  | none => exact stays_fail _ _
  | some changed =>
    obtain ⟨template, known, added⟩ := Option.bind_eq_some_iff.mp found
    have unapplied : changed.Unapplied := by
      rw [Template.addCase?] at added
      split at added
      · cases added
      · obtain rfl := Option.some.inj added
        exact List.forall_mem_append.mpr ⟨around.registry.template known,
          List.forall_mem_singleton.mpr read.1⟩
    exact .state_lifted (stays_modifyTemplate fun _ _ => unapplied) fun _ _ => read.2

theorem stays_fillData {decl : Surface.DataDecl}
    (names : ∀ dataCase ∈ decl.cases, Surface.TypeExpr.AllApplyNames dataCase.fields)
    (id : TemplateId)
    (ends : state.kinds.Ends) :
    Stays (Session.Unapplied env) world (fun _ result => result.2.kinds.Ends)
    (Elaborate.fillData decl id state) :=
  .state_get fun _ _ => .state_modify (.state_forM
    (fun _ (dataCase : Surface.CaseDecl) => Surface.TypeExpr.AllApplyNames dataCase.fields)
    (fun _ (state : Elaborator) => state.kinds.Ends) (fun _ names => names) names ends
    fun _ names ends => stays_addCase id names ends)

theorem stays_sealData (id : TemplateId) (ends : state.kinds.Ends) :
    Stays (Session.Unapplied env) world (fun _ result => result.2.kinds.Ends)
    (Elaborate.sealData id state) :=
  .state_own (.state_lifted (stays_modifyTemplate fun _ unapplied => unapplied) fun _ _ => ends)

theorem stays_dataGroup {group : List Surface.DataDecl}
    (names : ∀ decl ∈ group, ∀ dataCase ∈ decl.cases,
      Surface.TypeExpr.AllApplyNames dataCase.fields)
    (ends : state.kinds.Ends) :
    Stays (Session.Unapplied env) world unsaid (Elaborate.dataGroup group state) := by
  refine .state_bind
    (Arrives.state_mapM unsaid unsaid (fun _ (state : Elaborator) => state.kinds.Ends)
    (fun _ _ => trivial) (fun _ _ => trivial) (fun _ _ => trivial) ends
    fun _ _ ends => stays_enterData _ ends) fun {_ ids _} _ entered => ?_
  refine .state_bind (.state_forM (fun _ (entry : Surface.DataDecl × TemplateId) =>
      ∀ dataCase ∈ entry.1.cases, Surface.TypeExpr.AllApplyNames dataCase.fields)
    (fun _ (state : Elaborator) => state.kinds.Ends) (fun _ => id)
    (fun entry member => names entry.1 (List.of_mem_zip member).1) entered.2
    fun {_ entry _} _ names ends => stays_fillData names entry.2 ends) fun _ ends => ?_
  refine .state_bind (.state_forM unsaid (fun _ (state : Elaborator) => state.kinds.Ends)
    (fun _ _ => trivial)
    (fun _ _ => trivial) ends fun _ _ ends => stays_sealData _ ends) fun _ _ => ?_
  exact .state_pure trivial

theorem stays_data {group : List Surface.DataDecl}
    (names : ∀ decl ∈ group, ∀ dataCase ∈ decl.cases,
      Surface.TypeExpr.AllApplyNames dataCase.fields) :
    Stays (Session.Unapplied env) world unsaid (Check.data group) := by
  have rest : Stays (Session.Unapplied env) world unsaid (do
      let ids ← (Elaborate.dataGroup group).run' .forDeclaration
      ids.forM Check.defineCtors
      pure ids) := by
    have declared : Stays (Session.Unapplied env) world unsaid
        ((Elaborate.dataGroup group).run' .forDeclaration) :=
      (stays_dataGroup names KindTable.ends_empty).map fun _ _ => trivial
    refine declared.bind fun _ _ => ?_
    refine (Arrives.forM unsaid (fun _ _ => trivial) (fun _ _ => trivial) fun _ _ => ?_).bind fun _
      _ => .pure trivial
    exact stays_onRegistry fun around => ⟨around.foldl_defineCtor _, trivial⟩
  unfold Check.data
  split
  · exact (stays_distinct _ _ _).bind fun _ _ => (stays_distinct _ _ _).bind fun _ _ => rest
  · exact rest

end Data

end Session.Unapplied

end PolyCheck
