import PolyCheck.Proofs.Session.Reading

/-! Ascriptions of quantified types. The quantifier is opened with rigid variables, the expression
is checked against the body over them, and none of them may then be free in the scope. The type of
the result is read off the annotation a second time, over flexible variables. In a closed annotation
without holes nothing has been solved by then, so no rigid variable is in that type; but a rigid
variable can get out through a hole. -/
namespace PolyCheck.Session

open Run

variable {span : Span} {inner value : Surface.Expr} {written : Surface.TypeExpr} {vars : List TyVar}
  {expected head body opened ty : Ty} {rigid : List TyVar}
    {before read middle checked after : Session}
  {term : Term}

section Steps

/-- What a value is checked against for a type that is read, where the head of the type is known:
the body of its quantifier over new rigid variables, or the type itself. -/
inductive Opens (expected : Ty) (read : Session) : Ty → Ty → List TyVar → Session → Prop where
  | quantified {vars : List TyVar} {body : Ty} (resolves : (read.subst.zonk? body).isSome = true) :
    Opens expected read (.quantified vars body)
      (((Check.rigidCopies read.subst vars).2.zonk body).substitute
        (.ofLists vars ((Check.rigidCopies read.subst vars).1.map .var)))
      (Check.rigidCopies read.subst vars).1
        { read with subst := (Check.rigidCopies read.subst vars).2 }
  | plain {head : Ty} (plain : ∀ vars body, head ≠ .quantified vars body) :
    Opens expected read head expected [] read

theorem Opens.unique {opened' : Ty} {rigid' : List TyVar} {middle' : Session}
    (opens : Opens expected read head opened rigid middle)
    (opens' : Opens expected read head opened' rigid' middle') :
    opened = opened' ∧ rigid = rigid' ∧ middle = middle' := by
  cases opens with
  | quantified _ =>
    cases opens' with
    | quantified _ => exact ⟨rfl, rfl, rfl⟩
    | plain plain => exact absurd rfl (plain _ _)
  | plain plain =>
    cases opens' with
    | quantified => exact absurd rfl (plain _ _)
    | plain _ => exact ⟨rfl, rfl, rfl⟩

theorem openRigid_eq_ok : Check.openRigid vars body span read = .ok (rigid, opened) middle ↔
    Opens expected read (.quantified vars body) opened rigid middle := by
  rw [Check.openRigid, Check.ending_bind_eq_ok]
  constructor
  · rintro ⟨resolves, run⟩
    obtain ⟨same, rfl⟩ := EStateM.Result.ok.inj run
    obtain ⟨rfl, rfl⟩ := Prod.mk.inj same
    exact .quantified resolves
  · rintro (resolves | plain)
    · exact ⟨resolves, rfl⟩
    · exact absurd rfl (plain _ _)

theorem Opens.copies (opens : Opens expected read (.quantified vars body) opened rigid middle) :
    read.subst.Lengthened middle.subst ∧ rigid.length = vars.length ∧ rigid.Nodup ∧
      (∀ v ∈ rigid, read.subst.size ≤ v.index ∧ ∃ name, middle.subst.cell v = .rigid name) ∧
      (read.subst.zonk? body).isSome = true ∧
      opened = (middle.subst.zonk body).substitute (.ofLists vars (rigid.map .var)) := by
  obtain ⟨longer, length, distinct, each⟩ := Check.rigidCopies_lengthened vars read.subst
  cases opens with
  | quantified resolves => exact ⟨longer, length, distinct, each, resolves, rfl⟩
  | plain plain => exact absurd rfl (plain _ _)

theorem ty_withTy (term : Term) (ty : Ty) : (term.withTy ty).ty = ty := by
  cases term <;> rfl

/-- What an ascription makes of a checked value: the type is that of the annotation over flexible
variables, or stays as it is. -/
inductive Instance : Ty → Term → Session → Term → Session → Prop where
  | quantified {vars : List TyVar} {body : Ty} {term : Term} {checked : Session}
    (resolves : (checked.subst.zonk? body).isSome = true) :
    Instance (.quantified vars body) term checked
      (term.withTy (((checked.subst.pushMany .unbound vars.length).2.zonk body).substitute
        (.ofLists vars ((checked.subst.pushMany .unbound vars.length).1.map .var))))
      { checked with subst := (checked.subst.pushMany .unbound vars.length).2 }
  | plain {head : Ty} {term : Term} {checked : Session} (plain : ∀ vars body,
      head ≠ .quantified vars body) : Instance head term checked term checked

theorem openFlexible_eq_ok : Check.openFlexible (.quantified vars body) span checked =
    .ok ty after ↔ (checked.subst.zonk? body).isSome = true ∧
      ty = ((checked.subst.pushMany .unbound vars.length).2.zonk body).substitute
        (.ofLists vars ((checked.subst.pushMany .unbound vars.length).1.map .var)) ∧
      after = { checked with subst := (checked.subst.pushMany .unbound vars.length).2 } := by
  have opens : checked.subst.opens (.quantified vars body) = (checked.subst.zonk? body).isSome := by
    rw [Subst.opens, Subst.shallow?_of_head fun _ => rfl]
  rw [Check.openFlexible, Check.ending_bind_eq_ok, opens]
  refine and_congr_right fun _ => ⟨fun run => ?_, ?_⟩
  · obtain ⟨rfl, rfl⟩ := EStateM.Result.ok.inj run
    exact ⟨rfl, rfl⟩
  · rintro ⟨rfl, rfl⟩
    rfl

/-- The walks through the scopes come to an end, and none of some variables is free in them. -/
structure Spared (rigid : List TyVar) (session : Session) : Prop where
  walkable : session.env.walkableBelow session.env.depth session.subst = true
  absent : ∀ v ∈ rigid, v ∉ session.env.freeVars session.subst

theorem ascribed_eq_ok (elaborates : Check.writtenType written before = .ok expected read) :
    Check.infer (.ascribed span value written) before = .ok term after ↔
      ∃ head opened rigid middle inner checked, read.subst.shallow? expected = some head ∧
        Opens expected read head opened rigid middle ∧
        Check.expectExpr value opened middle = .ok inner checked ∧
        ((∀ vars body, head ≠ .quantified vars body) ∨ Spared rigid checked) ∧
        Instance head inner checked term after := by
  unfold Check.infer
  constructor
  · intro run
    obtain ⟨_, _, found, rest⟩ := bind_eq_ok.mp run
    obtain ⟨rfl, rfl⟩ := EStateM.Result.ok.inj (elaborates.symm.trans found)
    obtain ⟨ended, rest⟩ := Check.ending_bind_eq_ok.mp rest
    obtain ⟨head, shallow⟩ := Option.isSome_iff_exists.mp ended
    obtain ⟨_, _, same, rest⟩ := bind_eq_ok.mp rest
    obtain ⟨rfl, rfl⟩ := EStateM.Result.ok.inj same
    rw [Subst.shallow, shallow, Option.getD_some] at rest
    refine ⟨head, ?_⟩
    split at rest
    · obtain ⟨⟨copies, opened⟩, middle, opens, rest⟩ := bind_eq_ok.mp rest
      obtain ⟨_, _, infers, rest⟩ := bind_eq_ok.mp rest
      obtain ⟨inner, checked, compares, rest⟩ := bind_eq_ok.mp rest
      obtain ⟨walkable, rest⟩ := Check.ending_bind_eq_ok.mp rest
      obtain ⟨_, _, same, rest⟩ := bind_eq_ok.mp rest
      obtain ⟨rfl, rfl⟩ := EStateM.Result.ok.inj same
      obtain ⟨_, _, spared, finish⟩ := bind_eq_ok.mp rest
      obtain ⟨rfl, absent⟩ := noEscape_eq_ok.mp spared
      obtain ⟨ty, _, opens', ended⟩ := bind_eq_ok.mp finish
      obtain ⟨rfl, rfl⟩ := pure_eq_ok.mp ended
      obtain ⟨resolves, rfl, rfl⟩ := openFlexible_eq_ok.mp opens'
      exact ⟨opened, copies, middle, inner, _, shallow, openRigid_eq_ok.mp opens,
        bind_eq_ok.mpr ⟨_, _, infers, compares⟩, .inr ⟨walkable, absent⟩, .quantified resolves⟩
    · rename_i plain
      exact ⟨expected, [], read, term, after, shallow, .plain plain, rest, .inl plain, .plain plain⟩
  · rintro ⟨head, opened, rigid, middle, inner, checked, shallow, opens, inferred, spared, result⟩
    refine bind_eq_ok.mpr ⟨_, _, elaborates,
      Check.ending_bind_eq_ok.mpr ⟨?_, bind_eq_ok.mpr ⟨_, _, rfl, ?_⟩⟩⟩
    · rw [shallow]
      rfl
    rw [Subst.shallow, shallow, Option.getD_some]
    cases result with
    | quantified resolves =>
      obtain ⟨walkable, absent⟩ := spared.resolve_left fun plain => plain _ _ rfl
      obtain ⟨_, _, infers, compares⟩ := bind_eq_ok.mp inferred
      have absent : Check.noEscape rigid (checked.env.freeVars checked.subst) span checked =
          .ok () checked :=
        noEscape_eq_ok.mpr ⟨rfl, absent⟩
      refine bind_eq_ok.mpr ⟨_, _, openRigid_eq_ok.mpr opens, bind_eq_ok.mpr ⟨_, _, infers, ?_⟩⟩
      refine bind_eq_ok.mpr ⟨_, _, compares, Check.ending_bind_eq_ok.mpr ⟨walkable, ?_⟩⟩
      refine bind_eq_ok.mpr ⟨_, _, rfl, bind_eq_ok.mpr ⟨_, _, absent, ?_⟩⟩
      exact bind_eq_ok.mpr ⟨_, _, openFlexible_eq_ok.mpr ⟨resolves, rfl, rfl⟩, rfl⟩
    | plain plain =>
      cases opens with
      | quantified => exact absurd rfl (plain _ _)
      | plain _ =>
        split
        · exact absurd rfl (plain _ _)
        · exact inferred

end Steps

section Confined

variable {closed : Prop} {base : Subst} {world : World}

/-- A quantifier whose variables are new rigid ones is the head of the annotation. -/
structure Opening (span : Span) (written : Surface.TypeExpr) (before : Session) where
  expected : Ty
  read : Session
  vars : List TyVar
  body : Ty
  rigid : List TyVar
  rigidBody : Ty
  opened : Session
  elaborates : Check.writtenType written before = .ok expected read
  quantified : read.subst.shallow expected = .quantified vars body
  opens : Check.openRigid vars body span read = .ok (rigid, rigidBody) opened

theorem Opening.over (opening : Opening span written before) : Opens opening.expected opening.read
    (.quantified opening.vars opening.body) opening.rigidBody opening.rigid opening.opened :=
  openRigid_eq_ok.mp opening.opens

theorem Opening.ascribed (opening : Opening span written before)
    (run : Check.infer (.ascribed span inner written) before = .ok term after) :
    ∃ value checked, Check.expectExpr inner opening.rigidBody opening.opened = .ok value checked ∧
      Spared opening.rigid checked ∧
        Instance (.quantified opening.vars opening.body) value checked term after := by
  obtain ⟨head, opened, rigid, middle, value, checked, shallow, opens, inferred, spared, result⟩ :=
    (ascribed_eq_ok opening.elaborates).mp run
  have same := opening.quantified
  rw [Subst.shallow, shallow, Option.getD_some] at same
  subst same
  obtain ⟨rfl, rfl, rfl⟩ := opens.unique opening.over
  exact ⟨value, checked, inferred, spared.resolve_left fun plain => plain _ _ rfl, result⟩

theorem Opening.keepsRigid (opening : Opening span written before) {value : Term}
    (inferred : Check.expectExpr inner opening.rigidBody opening.opened = .ok value checked) :
    opening.read.subst.KeepsRigid checked.subst ∧ ∀ v ∈ opening.rigid, ∃ name,
      checked.subst.cell v = .rigid name := by
  have solving := solving_keepsRigid opening.opened.subst
  have steady : Check.Steady (fun subst _ => opening.opened.subst.KeepsRigid subst) anything
      (Check.expectExpr inner opening.rigidBody) :=
    (Check.steady_infer solving inner).bind fun _ => Check.steady_against solving _ _ _
  have keeps := steady.keepsRigid (.refl _) inferred
  obtain ⟨longer, -, -, each, -⟩ := opening.over.copies
  exact ⟨fun v name rigid => keeps v name (longer.keepsRigid v name rigid),
    fun v member => (each v member).2.imp fun name => keeps v name⟩

/-- An accepted ascription leaves its rigid variables out of the schemes in scope. Where nothing
that is declared has holes, and the annotation is closed and has none, they are not in the type of
the result either. -/
theorem ascribed_confines_rigid (here : before.InPlay closed base world)
    (opening : Opening span written before)
    (run : Check.infer (.ascribed span inner written) before = .ok term after) :
    (∀ scheme ∈ after.env.schemes, ∃ free, after.subst.freeVars? scheme.ty = some free ∧
      ∀ v ∈ opening.rigid, v ∈ free → v ∈ scheme.vars) ∧
    (closed → written.Complete → written.Closed [] → ∃ ty free,
      after.subst.zonk? term.ty = some ty ∧
      after.subst.freeVars? ty = some free ∧ ∀ v ∈ opening.rigid, v ∉ free) := by
  have int : Registry.TakesInts fun _ => True := fun _ _ _ => trivial
  obtain ⟨value, checked, inferred, ⟨walkable, absent⟩, resolves⟩ := opening.ascribed run
  obtain ⟨keeps, rigid⟩ := opening.keepsRigid inferred
  obtain ⟨_, -, atRead, owns⟩ := (Check.reaches_writtenType int written).ok here opening.elaborates
  have shallow := atRead.subst.confines.shallow owns
  rw [opening.quantified] at shallow
  obtain ⟨_, -, atOpened, owns⟩ := (Check.reaches_openRigid shallow).ok atRead opening.opens
  obtain ⟨_, _, infers, compares⟩ := bind_eq_ok.mp inferred
  obtain ⟨_, grown, atInferred, types⟩ :=
    ((World.discipline closed base int).infers inner fun _ _ => trivial).ok atOpened infers
  obtain ⟨_, -, atChecked, -⟩ :=
    ((World.discipline closed base int).checks_against (owns.later grown) types).ok
      atInferred compares
  obtain ⟨longer, length, each⟩ :=
    checked.subst.lengthened_pushMany Cell.isNew_unbound opening.vars.length
  cases resolves with
  | plain plain => exact absurd rfl (plain _ _)
  | quantified resolves =>
  constructor
  · intro scheme member
    have scopes : checked.env.scopes.take checked.env.depth = checked.env.scopes :=
      List.take_of_length_le (by simp [Env.scopes, Env.depth])
    rw [Env.walkableBelow, scopes, List.all_eq_true] at walkable
    obtain ⟨free, search⟩ := Option.isSome_iff_exists.mp (walkable scheme member)
    refine ⟨free, longer.freeVars? atChecked.subst.ends search, fun v isRigid inFree => ?_⟩
    by_contra outside
    refine absent v isRigid ?_
    rw [Env.freeVars, Env.freeVarsBelow, scopes, List.mem_eraseDups]
    refine List.mem_flatMap.mpr ⟨scheme, member, ?_⟩
    rw [Scheme.freeVars, Subst.freeVars, search, Option.getD_some]
    simpa using ⟨inFree, outside⟩
  · intro isClosed complete noFree
    obtain rfl := eq_true isClosed
    obtain ⟨binder, binders, confined⟩ := here.head_of_closed int complete noFree opening.elaborates
    rw [opening.quantified] at confined
    obtain ⟨bound, confined⟩ := confined.quantified_inv
    have atEnd : ∀ v, binder v → ∃ name, checked.subst.cell v = .rigid name := fun v isBinder =>
      (binders v isBinder).imp fun name => keeps v name
    -- The body is one over the variables of the quantifier, and resolved it still is.
    obtain ⟨resolved, walk⟩ := Option.isSome_iff_exists.mp resolves
    obtain ⟨normal, confined⟩ := Subst.resolved_closed atChecked.subst.ends atEnd bound
      (confined.imp fun _ shown => shown.resolve_left id) walk
    -- The new variables are unsolved and take the place of these.
    obtain ⟨normal, confined, confines⟩ := (longer.normal normal).instantiate confined
      (fun v isBinder => longer.isNew_of_isNew (Subst.isNew_of_rigid (atEnd v isBinder))) length
      fun v member => longer.isNew (each v member).1
    rw [← longer.zonk atChecked.subst.ends walk] at normal confined
    obtain ⟨free, search, among⟩ := normal.exists_freeVars? confines confined
    rw [ty_withTy]
    refine ⟨_, free, normal.zonk?, search, fun v isRigid inFree => ?_⟩
    obtain ⟨name, cell⟩ := rigid v isRigid
    rw [Subst.cell_of_size_le (each v (among v inFree)).1] at cell
    cases cell

end Confined

/-- The function `fun x -> x` and the annotation `forall a. a -> a`. -/
def identity : Surface.Expr :=
  .lambda default [⟨default, .bind default "x", .ident default "x"⟩]

def polyIdentity : Surface.TypeExpr :=
  .quantified default ["a"] (.arrow default (.var default "a") (.var default "a"))

def polyOpening : Opening default polyIdentity (Session.start .standard) where
  expected := .quantified [⟨0⟩] (.arrow (.var ⟨0⟩) (.var ⟨0⟩))
  read := _
  vars := [⟨0⟩]
  body := .arrow (.var ⟨0⟩) (.var ⟨0⟩)
  rigid := [⟨1⟩]
  rigidBody := .arrow (.var ⟨1⟩) (.var ⟨1⟩)
  opened := _
  elaborates := rfl
  quantified := rfl
  opens := rfl

theorem polyIdentity_confines_rigid : ∃ term after ty free,
    Check.infer (.ascribed default identity polyIdentity) (Session.start .standard) =
      .ok term after ∧
      after.subst.zonk? term.ty = some ty ∧ after.subst.freeVars? ty = some free ∧
      (⟨1⟩ : TyVar) ∉ free := by
  have shown : gives (fun _ _ => true)
      (Check.infer (.ascribed default identity polyIdentity) (Session.start .standard)) =
      true := by cbv
  obtain ⟨term, after, accepted, -⟩ := exists_of_gives shown
  have complete : polyIdentity.Complete := ⟨trivial, trivial⟩
  have noFree : polyIdentity.Closed [] := ⟨List.mem_singleton_self _, List.mem_singleton_self _⟩
  obtain ⟨ty, free, resolves, search, absent⟩ :=
    (ascribed_confines_rigid (inPlay_start .standard) polyOpening accepted).2 trivial
      complete noFree
  exact ⟨term, after, ty, free, accepted, resolves, search, absent ⟨1⟩ (List.mem_singleton_self _)⟩

def holedIdentity : Surface.TypeExpr :=
  .quantified default ["a"] (.arrow default (.var default "a") (.hole default))

def holedOpening : Opening default holedIdentity (Session.start .standard) where
  expected := .quantified [⟨0⟩] (.arrow (.var ⟨0⟩) (.var ⟨1⟩))
  read := _
  vars := [⟨0⟩]
  body := .arrow (.var ⟨0⟩) (.var ⟨1⟩)
  rigid := [⟨2⟩]
  rigidBody := .arrow (.var ⟨2⟩) (.var ⟨1⟩)
  opened := _
  elaborates := rfl
  quantified := rfl
  opens := rfl

theorem holedIdentity_accepted : ∃ term after,
    Check.infer (.ascribed default identity holedIdentity) (Session.start .standard) =
      .ok term after ∧ after.subst.freeVars (after.subst.zonk term.ty) = [⟨5⟩, ⟨2⟩] := by
  have shown : gives (fun term after =>
      decide (after.subst.freeVars (after.subst.zonk (Term.ty term)) = [⟨5⟩, ⟨2⟩]))
      (Check.infer (.ascribed default identity holedIdentity) (Session.start .standard)) =
        true := by cbv
  obtain ⟨term, after, accepted, free⟩ := exists_of_gives shown
  exact ⟨term, after, accepted, of_decide_eq_true free⟩

/-- The hole is solved by the rigid variable, which is then free in the type of the result. -/
theorem rigid_escapes_through_hole : ¬ ∀ (span : Span) (inner : Surface.Expr)
    (written : Surface.TypeExpr) (before after : Session) (term : Term)
    (opening : Opening span written before),
    Check.infer (.ascribed span inner written) before = .ok term after →
      ∀ v ∈ opening.rigid, v ∉ after.subst.freeVars (after.subst.zonk term.ty) := by
  intro confined
  obtain ⟨term, after, accepted, free⟩ := holedIdentity_accepted
  refine confined default _ _ _ after term holedOpening accepted ⟨2⟩ (List.mem_singleton_self _) ?_
  rw [free]
  decide

end PolyCheck.Session
