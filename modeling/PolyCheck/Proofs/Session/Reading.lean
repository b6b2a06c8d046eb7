import PolyCheck.Proofs.Pat.Refinement
import PolyCheck.Proofs.Session.Committed
import PolyCheck.Proofs.Subst.Components
import PolyCheck.Proofs.Subst.Repeat

/-! Closed annotations without holes. They are read as types without free variables, over rigid
variables. No check writes the cell of a rigid variable, so what such an annotation is resolved to
lasts, and opened with other unsolved variables it has these as its free ones. -/
namespace PolyCheck

open Run

namespace Surface

mutual

/-- The type variables are among those given, or quantified in the type. -/
def TypeExpr.Closed : List Name → TypeExpr → Prop
  | _, .name _ _ => True
  | _, .hole _ => True
  | names, .var _ own => own ∈ names
  | names, .app _ head args => head.Closed names ∧ TypeExpr.ClosedAll names args
  | names, .arrow _ param result => param.Closed names ∧ result.Closed names
  | names, .tuple _ elems => TypeExpr.ClosedAll names elems
  | names, .quantified _ params body => body.Closed (params.reverse ++ names)

def TypeExpr.ClosedAll : List Name → List TypeExpr → Prop
  | _, [] => True
  | names, written :: rest => written.Closed names ∧ TypeExpr.ClosedAll names rest

end

end Surface

namespace Elaborate

variable {α β : Type} {names middle names' : List Name} {run : Elaborate α} {next : α → Elaborate β}

/-- A run that makes no use of free names: with some names in scope it ends, with others in scope,
as it does where names have to be declared. -/
def Scoped (names names' : List Name) (run : Elaborate α) : Prop :=
  ∀ scope kinds made session value state after, scope.map TypeBinding.name = names →
    run ⟨kinds, scope, some made⟩ session = .ok (value, state) after →
      ∃ kinds' scope', state = ⟨kinds', scope', some made⟩ ∧ scope'.map TypeBinding.name = names' ∧
        run ⟨kinds, scope, none⟩ session = .ok (value, ⟨kinds', scope', none⟩) after

namespace Scoped

theorem bind (first : Scoped names middle run)
    (then_ : ∀ value, Scoped middle names' (next value)) : Scoped names names' (run >>= next) := by
  intro scope kinds made session value state after same ended
  obtain ⟨found, _, between, here, rest⟩ := state_bind_eq_ok.mp ended
  obtain ⟨kinds', scope', rfl, same', here'⟩ := first _ _ _ _ _ _ _ same here
  obtain ⟨kinds'', scope'', rfl, same'', rest'⟩ := then_ found _ _ _ _ _ _ _ same' rest
  exact ⟨kinds'', scope'', rfl, same'', state_bind_eq_ok.mpr ⟨_, _, _, here', rest'⟩⟩

theorem pure (value : α) : Scoped names names (Pure.pure value) := by
  intro scope kinds made session _ state after same ended
  obtain ⟨rfl, rfl, rfl⟩ := state_pure_eq_ok.mp ended
  exact ⟨kinds, scope, rfl, same, rfl⟩

theorem lift (check : Check α) : Scoped names names (liftM check) := by
  intro scope kinds made session value state after same ended
  obtain ⟨found, between, here, rest⟩ := bind_eq_ok.mp ended
  obtain ⟨pair, rfl⟩ := pure_eq_ok.mp rest
  obtain ⟨rfl, rfl⟩ := Prod.mk.inj pair
  exact ⟨kinds, scope, rfl, same, bind_eq_ok.mpr ⟨_, _, here, rfl⟩⟩

theorem ofKinds {change : KindTable → α × KindTable} :
    Scoped names names (modifyGet fun state =>
      ((change state.kinds).1, { state with kinds := (change state.kinds).2 })) := by
  intro scope kinds made session value state after same ended
  obtain ⟨pair, rfl⟩ := EStateM.Result.ok.inj ended
  obtain ⟨rfl, rfl⟩ := Prod.mk.inj pair
  exact ⟨_, scope, rfl, same, rfl⟩

theorem readScope {next : Elaborator → Elaborate β}
    (blind : ∀ kinds scope free, next ⟨kinds, scope, free⟩ = next ⟨kinds, scope, none⟩)
    (then_ : ∀ state, state.scope.map TypeBinding.name = names → Scoped names names' (next state)) :
    Scoped names names' (get >>= next) := by
  intro scope kinds made session value state after same ended
  refine then_ ⟨kinds, scope, none⟩ same scope kinds made session value state after same ?_
  rw [← blind kinds scope (some made)]
  exact ended

theorem setScope {scope : List TypeBinding} (same : scope.map TypeBinding.name = names') :
    Scoped names names' (modify fun state => { state with scope }) := by
  intro _ kinds made session value state after _ ended
  obtain ⟨pair, rfl⟩ := EStateM.Result.ok.inj ended
  obtain ⟨rfl, rfl⟩ := Prod.mk.inj pair
  exact ⟨kinds, scope, rfl, same, rfl⟩

end Scoped

theorem scoped_fail (cause : ErrorCause) (span : Span) :
    Scoped names names' (fail cause span : Elaborate α) := by
  intro scope kinds made session value state after same ended
  cases ended

theorem scoped_freshKind : Scoped names names freshKind :=
  @Scoped.ofKinds _ _ KindTable.fresh

theorem scoped_expectKind (expected found : Kind) (span : Span) :
    Scoped names names (expectKind expected found span) := by
  intro scope kinds made session value state after same ended
  unfold expectKind at ended ⊢
  obtain ⟨_, _, _, here, rest⟩ := state_bind_eq_ok.mp ended
  obtain ⟨rfl, rfl, rfl⟩ := state_pure_eq_ok.mp here
  cases unified : kinds.unify expected found with
  | mk equal kinds' =>
    simp only [unified] at rest
    obtain ⟨_, _, _, here, rest⟩ := state_bind_eq_ok.mp rest
    obtain ⟨pair, rfl⟩ := pure_eq_ok.mp here
    obtain ⟨-, rfl⟩ := Prod.mk.inj pair
    cases equal with
    | true =>
      obtain ⟨-, rfl, rfl⟩ := state_pure_eq_ok.mp rest
      refine ⟨kinds', scope, rfl, same, state_bind_eq_ok.mpr ⟨_, _, _, rfl, ?_⟩⟩
      simp only [unified]
      rfl
    | false => cases rest

theorem scoped_expectStar (result : Ty × Kind) (span : Span) :
    Scoped names names (expectStar result span) :=
  (scoped_expectKind _ _ _).bind fun _ => .pure _

theorem scoped_typeName (name : Name) (span : Span) : Scoped names names (typeName name span) := by
  refine (Scoped.lift get).bind fun session => ?_
  dsimp only
  split
  · split
    · split
      · exact .pure _
      · exact .pure _
    · exact .pure _
  · exact .pure _
  · split
    · exact (Scoped.lift _).bind fun _ => .pure _
    · exact scoped_fail _ _

theorem scoped_typeVar {name : Name} (inScope : name ∈ names) (span : Span) :
    Scoped names names (typeVar name span) := by
  intro scope kinds made session value state after same ended
  unfold typeVar at ended ⊢
  obtain ⟨_, _, _, here, rest⟩ := state_bind_eq_ok.mp ended
  obtain ⟨rfl, rfl, rfl⟩ := state_pure_eq_ok.mp here
  refine ⟨kinds, scope, ?_⟩
  cases found : scope.find? (·.name = name) with
  | none =>
    obtain ⟨binding, member, named⟩ := List.mem_map.mp (same ▸ inScope)
    exact absurd (decide_eq_true named) (List.find?_eq_none.mp found binding member)
  | some binding =>
    simp only [found] at rest
    obtain ⟨rfl, rfl, rfl⟩ := state_pure_eq_ok.mp rest
    refine ⟨rfl, same, state_bind_eq_ok.mpr ⟨_, _, _, rfl, ?_⟩⟩
    simp only [found]
    rfl

theorem scoped_bindParam (name : Name) : Scoped names (name :: names) (bindParam name) := by
  refine (Scoped.lift _).bind fun var => scoped_freshKind.bind fun kind => ?_
  intro scope kinds made session value state after same ended
  obtain ⟨_, _, _, here, rest⟩ := state_bind_eq_ok.mp ended
  obtain ⟨pair, rfl⟩ := EStateM.Result.ok.inj here
  obtain ⟨-, rfl⟩ := Prod.mk.inj pair
  obtain ⟨rfl, rfl, rfl⟩ := state_pure_eq_ok.mp rest
  exact ⟨kinds, _, rfl, congrArg (name :: ·) same, rfl⟩

theorem scoped_bindParams (params : List Name) :
    Scoped names (params.reverse ++ names) (params.mapM bindParam) := by
  induction params generalizing names with
  | nil => exact .pure _
  | cons param params ih =>
    rw [List.mapM_cons, List.reverse_cons, List.append_assoc]
    exact (scoped_bindParam param).bind fun _ => ih.bind fun _ => .pure _

mutual

theorem scoped_type : ∀ (written : Surface.TypeExpr) {names : List Name}, written.Closed names →
    Scoped names names (type written)
  | .name span name, _, _ => by
    unfold type
    exact scoped_typeName name span
  | .var span name, _, inScope => by
    unfold type
    exact scoped_typeVar inScope span
  | .app span head args, _, closed => by
    unfold type
    refine (scoped_type head closed.1).bind fun _ => (scoped_types args closed.2).bind fun _ => ?_
    exact scoped_freshKind.bind fun _ => (scoped_expectKind _ _ _).bind fun _ => .pure _
  | .arrow _ param result, _, closed => by
    unfold type
    refine (scoped_type param closed.1).bind fun _ => (scoped_expectStar _ _).bind fun _ => ?_
    exact (scoped_type result closed.2).bind fun _ => (scoped_expectStar _ _).bind fun _ => .pure _
  | .tuple _ [inner], _, closed => by
    unfold type
    exact scoped_type inner closed.1
  | .tuple _ [], _, _ => by
    unfold type
    exact (scoped_starTypes [] trivial).bind fun _ => .pure _
  | .tuple _ (first :: second :: rest), _, closed => by
    unfold type
    exact (scoped_starTypes (first :: second :: rest) closed).bind fun _ => .pure _
  | .quantified span params body, names, closed => by
    unfold type
    refine (Scoped.lift _).bind fun _ => Scoped.readScope (fun _ _ _ => rfl) fun outer
      outerNames => ?_
    refine (scoped_bindParams params).bind fun vars => (scoped_type body closed).bind fun _ => ?_
    refine (scoped_expectStar _ _).bind fun read => (Scoped.setScope outerNames).bind fun _ => ?_
    split
    · exact .pure _
    · exact .pure _
  | .hole _, _, _ => by
    unfold type
    exact scoped_freshKind.bind fun _ => (Scoped.lift _).bind fun _ => .pure _
termination_by structural written => written

theorem scoped_types : ∀ (written : List Surface.TypeExpr) {names : List Name},
    Surface.TypeExpr.ClosedAll names written → Scoped names names (types written)
  | [], _, _ => by
    unfold types
    exact .pure _
  | written :: rest, _, closed => by
    unfold types
    exact (scoped_type written closed.1).bind fun _ => (scoped_types rest closed.2).bind
      fun _ => .pure _
termination_by structural written => written

theorem scoped_starTypes : ∀ (written : List Surface.TypeExpr) {names : List Name},
    Surface.TypeExpr.ClosedAll names written → Scoped names names (starTypes written)
  | [], _, _ => by
    unfold starTypes
    exact .pure _
  | written :: rest, _, closed => by
    unfold starTypes
    refine (scoped_type written closed.1).bind fun _ => (scoped_expectStar _ _).bind fun _ => ?_
    exact (scoped_starTypes rest closed.2).bind fun _ => .pure _
termination_by structural written => written

end

end Elaborate

theorem Subst.isNew_of_rigid {subst : Subst} {v : TyVar}
    (rigid : ∃ name, subst.cell v = .rigid name) : (subst.cell v).IsNew := by
  obtain ⟨name, cell⟩ := rigid
  exact cell ▸ Cell.isNew_rigid name

section Reading

variable {base : Subst} {env : Env} {kept : Registry → Prop} {world : World}
  {session after : Session} {ty : Ty} {written : Surface.TypeExpr}

/-- A closed type without holes is read as one without free variables; its quantifiers bind rigid
variables. -/
theorem Session.Local.writtenType_closed (here : session.Local True base env kept world)
    (int : Registry.TakesInts kept)
    (complete : written.Complete) (closed : written.Closed [])
    (run : Check.writtenType written session = .ok ty after) :
    ∃ later, world ≤ later ∧ after.Local True base env kept later ∧
      ty.Confined later.binder fun _ => False := by
  have inScope : Elaborate.Scoped [] [] (Elaborate.starType written) :=
    (Elaborate.scoped_type written closed).bind fun _ => Elaborate.scoped_expectStar _ _
  have reads : Run.Reaches (Session.Local True base env kept) world
      (Elaborate.Within True [] fun later ty => later.Reads True [] ty)
      (Elaborate.starType written .forDeclaration) :=
    .state_bind (Elaborate.reaches_type (fun _ => trivial) int written (fun _ => complete)
      Elaborator.local_forDeclaration) fun _ read => Elaborate.reaches_expectStar read.2 read.1 _
  obtain ⟨⟨_, state⟩, ran, rfl⟩ := map_eq_ok.mp run
  obtain ⟨kinds, scope, -, -, declared⟩ := inScope [] .empty [] session _ state after rfl ran
  obtain ⟨later, grown, there, read⟩ := reads.ok here declared
  refine ⟨later, grown, there, read.1.imp ?_⟩
  rintro v (⟨loose, -⟩ | ⟨param, member, -⟩)
  · exact loose trivial
  · exact List.not_mem_nil member

theorem Session.Local.head_of_closed (here : session.Local True base env kept world)
    (int : Registry.TakesInts kept)
    (complete : written.Complete) (closed : written.Closed [])
    (run : Check.writtenType written session = .ok ty after) :
    ∃ binder : TyVar → Prop, (∀ v, binder v → ∃ name, after.subst.cell v = .rigid name) ∧
      (after.subst.shallow ty).Confined binder fun _ => False := by
  obtain ⟨later, -, there, confined⟩ := here.writtenType_closed int complete closed run
  refine ⟨later.binder, fun _ => there.subst.rigid, Subst.Confines.shallow ?_ confined⟩
  exact Subst.confines_isNew (fun v isBinder => Subst.isNew_of_rigid (there.subst.rigid isBinder))
    fun _ => False.elim

end Reading

section Rigid

variable {subst after : Subst} {binder free : TyVar → Prop} {ty result : Ty}

/-- The rigid variables of a substitution are still rigid, under their names. -/
def Subst.KeepsRigid (subst after : Subst) : Prop :=
  ∀ v name, subst.cell v = .rigid name → after.cell v = .rigid name

theorem solving_keepsRigid (base : Subst) : Solving fun subst _ => base.KeepsRigid subst where
  push {subst _ _} _ keeps v name rigid := by
    have known := keeps v name rigid
    rw [Subst.cell_push]
    split
    · rename_i new
      rw [Subst.cell_of_size_le (Nat.le_of_eq new.symm)] at known
      cases known
    · exact known
  int _ keeps := keeps
  write {subst _} x cell flexible keeps v name rigid := by
    have known := keeps v name rigid
    rcases subst.cell_write_cases x v cell with same | ⟨rfl, -⟩
    · rw [same, known]
    · have root : subst.root v = v := Subst.root_of_isNew (known ▸ Cell.isNew_rigid name)
      rw [Subst.isRigid, Subst.rootCell, root, known] at flexible
      cases flexible

theorem Check.Steady.keepsRigid {α : Type} {base : Subst} {post : α → Prop}
    {check : Check α} {value : α}
    {before last : Session}
    (steady : Check.Steady (fun subst _ => base.KeepsRigid subst) post check)
    (keeps : base.KeepsRigid before.subst) (run : check before = .ok value last) :
      base.KeepsRigid last.subst := by
  have atEnd := steady.keeps before keeps
  rw [run] at atEnd
  exact atEnd.1

namespace Subst

theorem KeepsRigid.refl (subst : Subst) : subst.KeepsRigid subst := fun _ _ rigid => rigid

theorem Lengthened.keepsRigid (longer : subst.Lengthened after) : subst.KeepsRigid after := by
  intro v name rigid
  by_cases inside : v.index < subst.size
  · rw [longer.cells inside, rigid]
  · rw [cell_of_size_le (Nat.le_of_not_lt inside)] at rigid
    cases rigid

theorem exists_lengthened (subst : Subst) {count : Nat} (le : subst.size ≤ count) :
    ∃ longer, subst.Lengthened longer ∧ longer.size = count :=
  ⟨_, (subst.lengthened_pushMany Cell.isNew_unbound (count - subst.size)).1,
    (size_pushMany ..).trans (Nat.add_sub_of_le le)⟩

theorem KeepsRigid.zonkWithin (keeps : subst.KeepsRigid after) (ends : subst.LinksEnd)
    (ends' : after.LinksEnd)
    (confined : ty.Confined binder free)
    (rigid : ∀ v, binder v ∨ free v → ∃ name, subst.cell v = .rigid name)
    (depth : Nat) : after.zonkWithin depth ty = subst.zonkWithin depth ty := by
  obtain ⟨part, longer, size⟩ := subst.exists_lengthened (Nat.le_max_left subst.size after.size)
  obtain ⟨whole, longer', size'⟩ := after.exists_lengthened (Nat.le_max_right subst.size after.size)
  -- With as many cells, the two have the same ones at rigid variables and beyond.
  let seen (v : TyVar) : Prop := (∃ name, subst.cell v = .rigid name) ∨ whole.size ≤ v.index
  have cells : ∀ {v : TyVar}, seen v → (whole.cell v).IsNew ∧ part.cell v = whole.cell v := by
    rintro v (⟨name, cell⟩ | outside)
    · rw [longer.keepsRigid v name cell, longer'.keepsRigid v name (keeps v name cell)]
      exact ⟨Cell.isNew_rigid name, rfl⟩
    · rw [cell_of_size_le outside, cell_of_size_le ((size.trans size'.symm).le.trans outside)]
      exact ⟨Cell.isNew_unbound, rfl⟩
  have excerpt : part.Excerpt seen whole := by
    refine ⟨size.trans size'.symm, fun shown => (cells shown).2, fun shown cell => ?_,
      fun shown cell => ?_, .inr⟩
    · exact absurd (cells shown).1 (by simp [cell, Cell.IsNew])
    · exact absurd (cells shown).1 (by simp [cell, Cell.IsNew])
  have among : ty.Among seen := confined.mono (fun v shown => .inl (rigid v (.inl shown)))
    fun v shown => .inl (rigid v (.inr shown))
  rw [← longer.zonkWithin ends, ← longer'.zonkWithin ends', (excerpt.zonkWithin depth among).1]

theorem Lengthened.depthBound_le (longer : subst.Lengthened after) (size : Nat) :
    subst.depthBound size ≤ after.depthBound size := by
  have masses : subst.mass ≤ after.mass := mass_le_of_cells fun v used => longer.cells <| by
    by_contra outside
    exact used (cell_of_size_le (Nat.le_of_not_lt outside))
  have sizes := longer.size_le
  exact Nat.add_le_add_left (Nat.mul_le_mul (by omega) (by omega)) _

theorem Lengthened.zonk? (longer : subst.Lengthened after) (ends : subst.LinksEnd)
    (walk : subst.zonk? ty = some result) : after.zonk? ty = some result := by
  rw [Subst.zonk?, longer.zonkWithin ends]
  exact zonkWithin_mono (longer.depthBound_le ty.size) walk

theorem Lengthened.zonk (longer : subst.Lengthened after) (ends : subst.LinksEnd)
    (walk : subst.zonk? ty = some result) : after.zonk ty = result := by
  rw [Subst.zonk, longer.zonk? ends walk, Option.getD_some]

section Search

variable {gathered noted : Gathered} {depth depth' : Nat}

theorem gather_mono (le : depth ≤ depth') {below : List Ty}
    (visited : subst.gather depth ty gathered = some (below, noted)) :
    subst.gather depth' ty gathered = some (below, noted) := by
  rw [gather] at visited ⊢
  cases walk : subst.shallowWithin depth ty with
  | none => simp [walk] at visited
  | some head =>
    rw [walk] at visited
    rw [shallowWithin_mono le walk]
    exact visited

/-- A search for free variables that ends within a depth ends so within more. -/
theorem descend_gather_mono (le : depth ≤ depth')
    (walk : Agenda.descend (fun _ => none) subst.gather depth ty gathered = some ((), noted)) :
    Agenda.descend (fun _ => none) subst.gather depth' ty gathered = some ((), noted) := by
  induction depth generalizing depth' ty gathered noted with
  | zero => cases walk
  | succ depth ih =>
    obtain ⟨lower, rfl⟩ := Nat.exists_eq_add_of_le le
    rw [Nat.succ_add, Agenda.descend]
    rw [Agenda.descend] at walk
    obtain ⟨⟨below, middle⟩, first, rest⟩ := Option.bind_eq_some_iff.mp walk
    refine Option.bind_eq_some_iff.mpr ⟨⟨below, middle⟩, gather_mono (by omega) first, ?_⟩
    dsimp only at rest ⊢
    clear walk first
    induction below generalizing middle with
    | nil => exact rest
    | cons t below ihBelow =>
      rw [List.forM_cons] at rest ⊢
      obtain ⟨⟨⟨⟩, next⟩, here, others⟩ := Option.bind_eq_some_iff.mp rest
      exact Option.bind_eq_some_iff.mpr ⟨⟨(), next⟩, ih (by omega) here, ihBelow next others⟩

theorem freeVarsWithin_mono (le : depth ≤ depth') {vars : List TyVar}
    (search : subst.freeVarsWithin depth ty = some vars) :
      subst.freeVarsWithin depth' ty = some vars := by
  rw [freeVarsWithin, Agenda.walk_singleton] at search ⊢
  cases walk : Agenda.descend (fun _ => none) subst.gather depth ty ⟨[], []⟩ with
  | none => simp [walk] at search
  | some found =>
    rw [walk] at search
    rw [descend_gather_mono le walk]
    exact search

theorem Lengthened.gather (longer : subst.Lengthened after) (ends : subst.LinksEnd) :
    after.gather = subst.gather := by
  funext depth ty gathered
  have roots : ∀ params : List TyVar, params.map after.root = params.map subst.root :=
    fun params => List.map_congr_left fun v _ => longer.root ends v
  rw [Subst.gather, Subst.gather,
    shallowWithin_congr (longer.root ends) (longer.rootCell_bound ends)]
  simp only [roots]

theorem Lengthened.freeVars? (longer : subst.Lengthened after) (ends : subst.LinksEnd)
    {vars : List TyVar}
    (search : subst.freeVars? ty = some vars) : after.freeVars? ty = some vars := by
  have same : ∀ depth, after.freeVarsWithin depth ty = subst.freeVarsWithin depth ty :=
      fun depth => by
    rw [freeVarsWithin, freeVarsWithin, longer.gather ends]
  rw [Subst.freeVars?, same]
  exact freeVarsWithin_mono (longer.depthBound_le ty.size) search

theorem Normal.exists_freeVars? {binder free : TyVar → Prop} (normal : subst.Normal ty)
    (confines : subst.Confines binder free) (confined : ty.Confined binder free) :
    ∃ vars, subst.freeVars? ty = some vars ∧ ∀ v ∈ vars, free v := by
  obtain ⟨noted, walk, -⟩ :=
    normal.finds (fun v isBinder => confines.binders isBinder) confined
      (subst.size_lt_depthBound ty.size) ⟨[], []⟩
  have search : subst.freeVars? ty =
      some (noted.leaves.reverse.filter fun v => !noted.binders.contains v) := by
    rw [Subst.freeVars?, freeVarsWithin, Agenda.walk_singleton, walk]
  refine ⟨_, search, fun v member => confines.mem_freeVars confined ?_⟩
  rwa [Subst.freeVars, search, Option.getD_some]

end Search

theorem resolved_closed {binder : TyVar → Prop} {params : List TyVar} {body resolved : Ty}
    (ends : subst.LinksEnd)
    (rigid : ∀ v, binder v → ∃ name, subst.cell v = .rigid name) (bound : ∀ v ∈ params, binder v)
    (confined : body.Confined binder (· ∈ params)) (walk : subst.zonk? body = some resolved) :
    subst.Normal resolved ∧ resolved.Confined binder (· ∈ params) := by
  have confines : subst.Confines binder (· ∈ params) := confines_isNew
    (fun v isBinder => isNew_of_rigid (rigid v isBinder)) fun v member =>
      isNew_of_rigid (rigid v (bound v member))
  exact ⟨ends.normal_zonkWithin walk, confines.zonkWithin confined walk⟩

theorem Normal.instantiate {binder : TyVar → Prop} {params copies : List TyVar} {body : Ty}
    (normal : subst.Normal body) (confined : body.Confined binder (· ∈ params))
    (binders : ∀ v, binder v → (subst.cell v).IsNew) (length : copies.length = params.length)
    (unsolved : ∀ v ∈ copies, (subst.cell v).IsNew) :
    subst.Normal (body.substitute (.ofLists params (copies.map .var))) ∧
      (body.substitute (.ofLists params (copies.map .var))).Confined binder (· ∈ copies) ∧
      subst.Confines binder (· ∈ copies) := by
  refine ⟨(normal.rename fun v => ?_).1, ?_, confines_isNew binders unsolved⟩
  · rcases Assignment.image_cases params (copies.map .var) v with member | ⟨same, -⟩
    · obtain ⟨copy, inCopies, image⟩ := List.mem_map.mp member
      exact ⟨copy, image.symm, fun _ => unsolved copy inCopies⟩
    · exact ⟨v, same, id⟩
  · refine (confined.imp fun _ => .inr).instantiate ?_ (List.forall_mem_map.mpr fun v member =>
      .var member)
    rw [List.length_map, length]

theorem nodup_freeVars (subst : Subst) (ty : Ty) : (subst.freeVars ty).Nodup := by
  have visits : ∀ depth, ∀ {ty : Ty} {gathered noted : Gathered}, gathered.leaves.Nodup →
      Agenda.descend (fun _ => none) subst.gather depth ty gathered = some ((), noted) →
      noted.leaves.Nodup := by
    intro depth
    induction depth with
    | zero =>
      intro ty gathered noted _ run
      cases run
    | succ depth ih =>
      intro ty gathered noted once run
      rw [Agenda.descend] at run
      obtain ⟨⟨below, middle⟩, first, rest⟩ := Option.bind_eq_some_iff.mp run
      have once' : middle.leaves.Nodup := by
        unfold gather at first
        split at first
        · cases first
        · obtain ⟨-, rfl⟩ := Prod.mk.inj (Option.some.inj first)
          exact once.insert
        · obtain ⟨-, rfl⟩ := Prod.mk.inj (Option.some.inj first)
          exact once
        · obtain ⟨-, rfl⟩ := Prod.mk.inj (Option.some.inj first)
          exact once
      clear run first once
      induction below generalizing middle with
      | nil =>
        obtain ⟨-, rfl⟩ := Prod.mk.inj (Option.some.inj rest)
        exact once'
      | cons t below ihBelow =>
        dsimp only at rest
        rw [List.forM_cons] at rest
        obtain ⟨⟨⟨⟩, next⟩, here, others⟩ := Option.bind_eq_some_iff.mp rest
        exact ihBelow next others (ih once' here)
  rw [freeVars, freeVars?, freeVarsWithin, Agenda.walk_singleton]
  cases run : Agenda.descend (fun _ => none) subst.gather (subst.depthBound ty.size) ty
    ⟨[], []⟩ with
  | none => exact List.nodup_nil
  | some found =>
    have once := visits _ (List.nodup_nil : ([] : List TyVar).Nodup) run
    exact (List.nodup_reverse.mpr once).filter _

end Subst

theorem Check.rigidCopies_lengthened (vars : List TyVar) (subst : Subst) :
    subst.Lengthened (rigidCopies subst vars).2 ∧ (rigidCopies subst vars).1.length = vars.length ∧
      (rigidCopies subst vars).1.Nodup ∧ ∀ v ∈ (rigidCopies subst vars).1,
        subst.size ≤ v.index ∧ ∃ name, (rigidCopies subst vars).2.cell v = .rigid name := by
  induction vars generalizing subst with
  | nil => exact ⟨subst.lengthened_refl, rfl, List.nodup_nil, List.forall_mem_nil _⟩
  | cons var vars ih =>
    have first := subst.lengthened_push (Cell.isNew_rigid (subst.rigidName? var))
    obtain ⟨rest, length, distinct, each⟩ := ih (subst.push (.rigid (subst.rigidName? var))).2
    have new : (subst.push (.rigid (subst.rigidName? var))).2.cell ⟨subst.size⟩ =
        .rigid (subst.rigidName? var) :=
      Subst.Local.cell_push_new subst _
    refine ⟨first.trans rest, congrArg Nat.succ length,
      List.nodup_cons.mpr ⟨fun member => ?_, distinct⟩,
      List.forall_mem_cons.mpr ⟨⟨Nat.le_refl _, _, rest.keepsRigid _ _ new⟩, fun v member => ?_⟩⟩
    · have later := (each _ member).1
      simp at later
    · exact ⟨Nat.le_trans first.size_le (each v member).1, (each v member).2⟩

end Rigid

end PolyCheck
