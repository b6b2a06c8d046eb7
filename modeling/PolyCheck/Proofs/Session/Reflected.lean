import PolyCheck.Proofs.Session.Lasting
import PolyCheck.Proofs.Session.Mirror

/-! The elementary checks and the reading of types do the same in both of two mirrored runs. They
look at the cells and the definitions only, which are the same, and at names through what they are
bound to. -/
namespace PolyCheck

open Run

namespace Mirror

variable {mirror : Mirror} {α β γ : Type} {said : α → Prop} {image : α → γ}

section Basic

theorem gives_onSubst (change : Subst → α × Subst) : mirror.Fixes (Check.onSubst change) :=
  fun _ admits => ⟨⟨Nat.le_refl _, admits.options, admits.since⟩, trivial, fun _ => rfl⟩

theorem gives_onRegistry (change : Registry → α × Registry) :
    mirror.Fixes (Check.onRegistry change) :=
  fun _ admits => ⟨⟨Nat.le_refl _, admits.options, admits.since⟩, trivial, fun _ => rfl⟩

theorem follows_fail (cause : ErrorCause) (span : Span) :
    mirror.Follows said image (Check.fail cause span) (Check.fail cause span) :=
  .throw _

theorem fixes_ending {cause : ErrorCause} {ends : Session → Bool} {span : Span}
    (same : ∀ session, ends (mirror.session session) = ends session) :
    mirror.Fixes (Check.ending cause ends span) := by
  refine .get fun session _ => ?_
  rw [same]
  split
  · exact .pure trivial
  · exact follows_fail _ _

theorem follows_mint {stem : String} (inChecks : stem ∈ checkStems) :
    mirror.Follows anything mirror.naming (Check.mint stem) (Check.mint stem) := by
  intro session admits
  refine ⟨⟨Nat.le_succ _, admits.options, admits.since⟩, trivial, fun shifts => ?_⟩
  have name := shifts stem inChecks session.names.next (Nat.le_refl _) (Nat.lt_succ_self _)
  have number : session.names.next + mirror.shift + 1 = session.names.next + 1 + mirror.shift :=
    Nat.add_right_comm _ _ _
  change EStateM.Result.ok ("%" ++ stem ++ toString (session.names.next + mirror.shift)) _ = _
  rw [← name]
  simp only [Mirror.session, number]

theorem fixes_freshVar : mirror.Fixes Check.freshVar := gives_onSubst _

theorem fixes_freshVars (count : Nat) : mirror.Fixes (Check.freshVars count) := gives_onSubst _

theorem fixes_lookupCtor? (name : Name) : mirror.Fixes (Check.lookupCtor? name) :=
  .get fun _ _ => .pure trivial

theorem fixes_intTy (width : Nat) : mirror.Fixes (Check.intTy width) := gives_onRegistry _

theorem fixes_unify (expected found : Ty) (span : Span) :
    mirror.Fixes (Check.unify expected found span) := by
  intro session admits
  rw [Check.unify]
  cases run : Subst.unify expected found session.subst with
  | ok value subst =>
    refine ⟨⟨Nat.le_refl _, admits.options, admits.since⟩, trivial, fun _ => ?_⟩
    rw [Check.unify, Mirror.session, run]
    rfl
  | error error subst =>
    refine ⟨⟨Nat.le_refl _, admits.options, admits.since⟩, fun _ _ => ?_⟩
    rw [Check.unify, Mirror.session, run]
    cases error <;> rfl

theorem follows_inScope {bindings bindings' : List (Name × Scheme)} {body : Check α}
    {body' : Check γ}
    (renamed : bindings' = bindings.map fun (name, scheme) => (mirror.naming name, scheme))
    (follows : mirror.Follows said image body body') :
    mirror.Follows said image (Check.inScope bindings body) (Check.inScope bindings' body') := by
  intro session admits
  have followed := follows { session with env := session.env.enter bindings } ⟨admits.options,
    admits.since⟩
  have entered : mirror.session { session with env := session.env.enter bindings } =
      { mirror.session session with env := (mirror.session session).env.enter bindings' } := by
    rw [renamed]
    simp only [Mirror.session, Env.rename_enter mirror.distinct]
  rw [entered] at followed
  have popped : ∀ inside : Session, mirror.session { inside with env := inside.env.pop.2 } =
      { mirror.session inside with env := (mirror.session inside).env.pop.2 } := fun inside => by
    simp only [Mirror.session, Env.rename_pop]
  rw [Check.inScope, Check.inScope, ← Env.enter, ← Env.enter]
  cases run : body { session with env := session.env.enter bindings } with
  | ok value after =>
    rw [run] at followed
    obtain ⟨leads, holds, mirrored⟩ := followed
    refine ⟨⟨leads.names, leads.admits.options, leads.admits.since⟩, holds, fun shifts => ?_⟩
    rw [mirrored shifts, popped]
  | error error after =>
    rw [run] at followed
    obtain ⟨leads, mirrored⟩ := followed
    refine ⟨⟨leads.names, leads.admits.options, leads.admits.since⟩, fun counts shifts => ?_⟩
    rw [mirrored counts shifts, popped]

theorem fixes_distinct (what : NameKind) (names : List Name) (span : Span) :
    mirror.Fixes (Check.distinct what names span) := by
  unfold Check.distinct
  split
  · exact follows_fail _ _
  · exact .pure trivial

theorem fixes_literal (value : Literal) (span : Span) :
    mirror.Fixes (Check.literal value span) := by
  unfold Check.literal
  cases value with
  | bool value => exact .pure trivial
  | int magnitude width =>
    refine .get fun session admits => ?_
    have same : (mirror.session session).options.defaultIntWidth =
        session.options.defaultIntWidth := by
      rw [admits.options]
      exact mirror.width
    rw [same]
    dsimp only
    cases intValue magnitude (width.getD session.options.defaultIntWidth) with
    | error fault => exact follows_fail _ _
    | ok number => exact (fixes_intTy _).bind fun _ => .pure trivial
  | str raw =>
    dsimp only
    cases Escape.decode raw with
    | error fault => exact follows_fail _ _
    | ok bytes => exact .pure trivial

theorem fixes_ctorInstance (info : CtorInfo) : mirror.Fixes (Check.ctorInstance info) :=
  .get fun _ _ => (fixes_freshVars _).bind fun _ => .pure trivial

end Basic

namespace Elaborate

open PolyCheck.Elaborate

variable {state : Elaborator}

theorem gives_fail {said : α × Elaborator → Prop} (cause : ErrorCause) (span : Span) :
    mirror.Gives said (fail cause span state : Check (α × Elaborator)) :=
  Gives.state_throw _

theorem fixes_forM {items : List α} {visit : α → Elaborate PUnit}
    (visits : ∀ item ∈ items, ∀ state, mirror.Fixes (visit item state)) :
    mirror.Fixes (List.forM items visit state) :=
  Gives.state_forM (fun _ => True) trivial fun item member _ _ => visits item member _

theorem fixes_freshKind : mirror.Fixes (freshKind state) := Follows.pure trivial

theorem fixes_expectKind (expected found : Kind) (span : Span) :
    mirror.Fixes (expectKind expected found span state) := by
  unfold expectKind
  refine .state_own ?_
  obtain ⟨equal, kinds⟩ := state.kinds.unify expected found
  have kept : mirror.Fixes ((set { state with kinds } : Elaborate PUnit) state) :=
    Follows.pure trivial
  refine .state_bind kept fun _ => ?_
  cases equal with
  | true => exact .state_pure trivial
  | false => exact gives_fail _ _

theorem fixes_expectStar (result : Ty × Kind) (span : Span) :
    mirror.Fixes (expectStar result span state) :=
  .state_bind (fixes_expectKind _ _ _) fun _ => .state_pure trivial

theorem fixes_bindParam (name : Name) : mirror.Fixes (bindParam name state) :=
  .state_lift (gives_onSubst _) fun _ => .state_bind fixes_freshKind fun _ =>
    .state_modify (.state_pure trivial)

theorem fixes_typeName (name : Name) (span : Span) : mirror.Fixes (typeName name span state) := by
  refine .state_get fun session _ => ?_
  change mirror.Fixes _
  cases session.registry.types.get? name with
  | none =>
    cases intWidth? name with
    | none => exact gives_fail _ _
    | some width => exact .state_lift (fixes_intTy _) fun _ => .state_pure trivial
  | some meaning =>
    cases meaning with
    | synonym ty kind => exact .state_pure trivial
    | data id =>
      dsimp only
      cases session.registry.template? id with
      | none => exact .state_pure trivial
      | some template =>
        dsimp only
        split
        · exact .state_pure trivial
        · exact .state_pure trivial

theorem fixes_typeVar (name : Name) (span : Span) : mirror.Fixes (typeVar name span state) := by
  refine .state_own ?_
  cases state.scope.find? (·.name = name) with
  | some binding => exact .state_pure trivial
  | none =>
    cases state.free with
    | none => exact gives_fail _ _
    | some free =>
      dsimp only
      cases free.find? (·.name = name) with
      | some binding => exact .state_pure trivial
      | none =>
        refine .state_bind fixes_freshKind fun _ => .state_lift (gives_onSubst _) fun _ => ?_
        exact .state_modify (.state_pure trivial)

mutual

theorem fixes_type : ∀ (written : Surface.TypeExpr) {state : Elaborator},
    mirror.Fixes (type written state)
  | .name span name, _ => fixes_typeName name span
  | .var span name, _ => fixes_typeVar name span
  | .app span head args, _ => by
    unfold type
    refine .state_bind (fixes_type head) fun _ => .state_bind (fixes_types args) fun _ => ?_
    exact .state_bind fixes_freshKind fun _ => .state_bind (fixes_expectKind _ _ _) fun _ =>
      .state_pure trivial
  | .arrow _ param result, _ => by
    unfold type
    refine .state_bind (fixes_type param) fun _ => .state_bind (fixes_expectStar _ _) fun _ => ?_
    refine .state_bind (fixes_type result) fun _ => .state_bind (fixes_expectStar _ _) fun _ => ?_
    exact .state_pure trivial
  | .tuple _ [inner], _ => by
    unfold type
    exact fixes_type inner
  | .tuple _ [], _ => by
    unfold type
    exact .state_bind (fixes_starTypes []) fun _ => .state_pure trivial
  | .tuple _ (first :: second :: rest), _ => by
    unfold type
    exact .state_bind (fixes_starTypes (first :: second :: rest)) fun _ => .state_pure trivial
  | .quantified span params body, _ => by
    unfold type
    refine .state_lift (fixes_distinct _ _ _) fun _ => .state_own ?_
    refine .state_bind (.state_mapM fun _ _ _ => fixes_bindParam _) fun _ => ?_
    refine .state_bind (fixes_type body) fun _ => .state_bind (fixes_expectStar _ _) fun _ =>
      .state_modify ?_
    split
    · exact .state_pure trivial
    · exact .state_pure trivial
  | .hole _, _ => by
    unfold type
    exact .state_bind fixes_freshKind fun _ => .state_lift fixes_freshVar fun _ =>
      .state_pure trivial

theorem fixes_types : ∀ (written : List Surface.TypeExpr) {state : Elaborator},
    mirror.Fixes (types written state)
  | [], _ => by
    unfold types
    exact .state_pure trivial
  | written :: rest, _ => by
    unfold types
    exact .state_bind (fixes_type written) fun _ => .state_bind (fixes_types rest) fun _ =>
      .state_pure trivial

theorem fixes_starTypes : ∀ (written : List Surface.TypeExpr) {state : Elaborator},
    mirror.Fixes (starTypes written state)
  | [], _ => by
    unfold starTypes
    exact .state_pure trivial
  | written :: rest, _ => by
    unfold starTypes
    refine .state_bind (fixes_type written) fun _ => .state_bind (fixes_expectStar _ _) fun _ => ?_
    exact .state_bind (fixes_starTypes rest) fun _ => .state_pure trivial

end

theorem fixes_starType (written : Surface.TypeExpr) : mirror.Fixes (starType written state) :=
  .state_bind (fixes_type written) fun _ => fixes_expectStar _ _

theorem fixes_enterData (decl : Surface.DataDecl) : mirror.Fixes (enterData decl state) := by
  refine .state_lift (fixes_distinct _ _ _) fun _ => ?_
  refine .state_bind (.state_mapM fun _ _ _ => fixes_bindParam _) fun _ => .state_modify ?_
  exact .state_lifted (gives_onRegistry _) fun _ => trivial

theorem fixes_addCase (id : TemplateId) (decl : Surface.CaseDecl) :
    mirror.Fixes (addCase id decl state) := by
  refine .state_bind (fixes_starTypes decl.fields) fun _ => .state_get fun session _ => ?_
  change mirror.Fixes _
  cases (session.registry.template? id).bind (·.addCase? decl.name _) with
  | some template => exact .state_lifted (gives_onRegistry _) fun _ => trivial
  | none => exact gives_fail _ _

theorem fixes_fillData (decl : Surface.DataDecl) (id : TemplateId) :
    mirror.Fixes (fillData decl id state) := by
  refine .state_get fun session _ => Gives.state_modify ?_
  exact fixes_forM fun _ _ _ => fixes_addCase _ _

theorem fixes_sealData (id : TemplateId) : mirror.Fixes (sealData id state) :=
  .state_own (.state_lifted (gives_onRegistry _) fun _ => trivial)

theorem fixes_dataGroup (group : List Surface.DataDecl) : mirror.Fixes (dataGroup group state) := by
  refine .state_bind (.state_mapM fun _ _ _ => fixes_enterData _) fun _ => ?_
  refine .state_bind (fixes_forM fun entry _ _ => fixes_fillData entry.1 entry.2) fun _ => ?_
  exact .state_bind (fixes_forM fun _ _ _ => fixes_sealData _) fun _ => .state_pure trivial

end Elaborate

theorem fixes_run' {τ : Type} {check : StateT τ Check α} {own : τ}
    (fixes : mirror.Fixes (check own)) : mirror.Fixes (check.run' own) :=
  Follows.map fixes fun _ => ⟨trivial, rfl⟩

theorem fixes_writtenType (written : Surface.TypeExpr) : mirror.Fixes (Check.writtenType written) :=
  fixes_run' (Elaborate.fixes_starType written)

theorem fixes_data (group : List Surface.DataDecl) : mirror.Fixes (Check.data group) := by
  have rest : mirror.Fixes (do
      let ids ← (PolyCheck.Elaborate.dataGroup group).run' .forDeclaration
      ids.forM Check.defineCtors
      pure ids) :=
    (fixes_run' (Elaborate.fixes_dataGroup group)).bind fun _ =>
      (Follows.forM fun _ _ => gives_onRegistry _).bind fun _ => .pure trivial
  unfold Check.data
  split
  · exact (fixes_distinct _ _ _).bind fun _ => (fixes_distinct _ _ _).bind fun _ => rest
  · exact rest

theorem fixes_synonym (name : Name) (params : List Name) (body : Surface.TypeExpr) (span : Span) :
    mirror.Fixes (Check.synonym name params body span) := by
  refine (fixes_distinct _ _ _).bind fun _ => ?_
  have read : mirror.Fixes ((do
      let params ← params.mapM PolyCheck.Elaborate.bindParam
      let body ← PolyCheck.Elaborate.type body
      pure (params, body) : Elaborate (List (TyVar × Kind) × Ty × Kind)) .forDeclaration) :=
    .state_bind (.state_mapM fun _ _ _ => Elaborate.fixes_bindParam _) fun _ =>
      .state_bind (Elaborate.fixes_type body) fun _ => .state_pure trivial
  exact Follows.bind read fun _ => gives_onRegistry _

end Mirror

end PolyCheck
