import PolyCheck.Proofs.Run
import PolyCheck.Proofs.Subst.Unified
import PolyCheck.Subst.Unify

/-! Unification of first-order types computes most general solutions. One step either solves a
variable, splits a pair of types into pairs of their parts, or fails where nothing makes the pair
equal; `outcome_descend` follows the steps to the end. The depth granted is never used up: it
exceeds the height of both types under every further solution of the variables in use. -/
namespace PolyCheck.Subst

open Run

variable {subst after : Subst}

/-- What a finished comparison leaves behind, with solutions of bounded size. -/
def Outcome (subst : Subst) (bound : Nat) (pairs : List (Ty × Ty)) :
    EStateM.Result UnifyError Subst PUnit → Prop
  | .ok _ after => subst.Unified pairs after ∧ after.SolutionsWithin bound
  | .error error after =>
    (after.Tame ∧ after.size = subst.size ∧ after.SolutionsWithin bound) ∧
      error ≠ .exhausted ∧ ∀ images, ¬ subst.Solver pairs images

/-- The type fits into the depth, whatever else is solved. -/
def Room (subst : Subst) (bound depth : Nat) (ty : Ty) : Prop :=
  ∀ {later : Subst}, later.Tame → later.size = subst.size → later.SolutionsWithin bound →
    subst.Extends later → (later.zonk ty).height < depth

structure Ready (subst : Subst) (bound depth : Nat) (ty : Ty) : Prop where
  plain : ty.FirstOrder subst.size
  size_le : ty.size ≤ bound
  room : subst.Room bound depth ty

theorem Ready.later {bound depth : Nat} {ty : Ty} (tame : subst.Tame)
    (size : after.size = subst.size)
    (later : subst.Extends after) (ready : subst.Ready bound depth ty) :
    after.Ready bound depth ty where
  plain := size ▸ ready.plain
  size_le := ready.size_le
  room tame' size' small extended :=
    ready.room tame' (size'.trans size) small (later.trans tame extended)

structure IsHead (subst : Subst) (bound : Nat) (ty head : Ty) : Prop where
  plain : head.FirstOrder subst.size
  size_le : head.size ≤ bound
  zonk : subst.zonk head = subst.zonk ty
  unsolved : ∀ {v : TyVar}, head = .var v → subst.Unsolved v

theorem Ready.head {bound depth : Nat} {ty : Ty} (tame : subst.Tame)
    (small : subst.SolutionsWithin bound) (ready : subst.Ready bound depth ty) :
    ∃ head, subst.shallowWithin depth ty = some head ∧ subst.IsHead bound ty head := by
  have height := ready.room tame rfl small tame.extends_refl
  have positive := (subst.zonk ty).height_pos
  obtain ⟨rest, rfl⟩ : ∃ rest, depth = rest + 2 := ⟨depth - 2, by omega⟩
  cases notVar : ty.isVar with
  | false =>
    refine ⟨ty, shallowWithin_self ready.plain notVar _, ready.plain, ready.size_le, rfl, ?_⟩
    rintro v rfl
    simp at notVar
  | true =>
    cases ready.plain with
    | var inside =>
      rename_i v
      by_cases bound : ∃ ty, subst.rootCell v = .bound ty
      · obtain ⟨ty, cell⟩ := bound
        obtain ⟨plain, notVar⟩ := tame.solved cell
        refine ⟨ty, tame.shallowWithin_solved cell _, plain, small cell,
          (tame.zonk_solved inside cell).symm, ?_⟩
        rintro w rfl
        simp at notVar
      · have free : ∀ ty, subst.rootCell v ≠ .bound ty := fun ty cell => bound ⟨ty, cell⟩
        have unsolved := tame.unsolved_root inside free
        refine ⟨.var (subst.root v), shallowWithin_free free _, .var unsolved.1,
          ready.size_le, ?_, ?_⟩
        · rw [tame.zonk_var_of_unsolved unsolved, tame.zonk_free inside free]
        · rintro w same
          exact Ty.var.inj same ▸ unsolved
    | arrow _ _ => simp at notVar
    | tuple _ => simp at notVar
    | nominal _ => simp at notVar

def Stepped (subst : Subst) (bound : Nat) (pair : Ty × Ty) :
    EStateM.Result UnifyError Subst (List (Ty × Ty)) → Prop
  | .ok parts next =>
    (parts = [] ∧ subst.Unified [pair] next ∧ next.SolutionsWithin bound) ∨
      next = subst ∧ ∃ left right, SameHead left right ∧ subst.IsHead bound pair.1 left ∧
        subst.IsHead bound pair.2 right ∧ parts = left.children.zip right.children
  | .error error next => subst.Outcome bound [pair] (.error error next)

theorem Tame.cell_of_unsolved (tame : subst.Tame) {v : TyVar} (unsolved : subst.Unsolved v) :
    subst.cell v = .unbound ∧ subst.isRigid v = false ∨
      ∃ name, subst.cell v = .rigid name ∧ subst.isRigid v = true := by
  have notLink := tame.cell_root_ne_link v
  obtain ⟨-, root, notBound⟩ := unsolved
  rw [root] at notLink
  rw [isRigid, rootCell, root]
  cases cell : subst.cell v with
  | unbound => exact .inl ⟨rfl, rfl⟩
  | rigid name => exact .inr ⟨name, rfl, rfl⟩
  | link target => exact absurd cell (notLink target)
  | bound ty => exact absurd cell (notBound ty)

theorem SolutionsWithin.link {bound : Nat} (small : subst.SolutionsWithin bound) {x y : TyVar}
    (inside : x.index < subst.size) : (subst.link x y).SolutionsWithin bound := by
  intro v ty cell
  by_cases same : v = x
  · rw [same, Subst.link, cell_write_self inside] at cell
    simp at cell
  · rw [Subst.link, cell_write_of_ne same] at cell
    exact small cell

theorem SolutionsWithin.bind {bound : Nat} (small : subst.SolutionsWithin bound) {x : TyVar}
    {image : Ty} (inside : x.index < subst.size) (size : image.size ≤ bound) :
    (subst.bind x image).SolutionsWithin bound := by
  intro v ty cell
  by_cases same : v = x
  · rw [same, Subst.bind, cell_write_self inside, Cell.bound.injEq] at cell
    exact cell ▸ size
  · rw [Subst.bind, cell_write_of_ne same] at cell
    exact small cell

theorem Tame.outcome_error (tame : subst.Tame) {bound : Nat} (small : subst.SolutionsWithin bound)
    {pairs : List (Ty × Ty)} {error : UnifyError} (known : error ≠ .exhausted)
    (unsolvable : ∀ images, ¬ subst.Solver pairs images) :
    subst.Outcome bound pairs (.error error subst) :=
  ⟨⟨tame, rfl, small⟩, known, unsolvable⟩

theorem Tame.outcome_vars (tame : subst.Tame) {bound : Nat} (small : subst.SolutionsWithin bound)
    {pair : Ty × Ty} (plain : pair.1.FirstOrder subst.size ∧ pair.2.FirstOrder subst.size)
    {x y : TyVar} (left : subst.zonk pair.1 = .var x) (right : subst.zonk pair.2 = .var y)
    (unsolved : subst.Unsolved x) (unsolved' : subst.Unsolved y) :
    subst.Outcome bound [pair] (Unify.vars x y subst) := by
  have zonkX := tame.zonk_var_of_unsolved unsolved
  have zonkY := tame.zonk_var_of_unsolved unsolved'
  simp only [Unify.vars, bind_apply, get_apply]
  by_cases same : x = y
  · rw [if_pos same]
    refine ⟨tame.unified_of_equal fun other member => ?_, small⟩
    rw [List.mem_singleton.mp member, left, right, same]
  · rw [if_neg same]
    rcases tame.cell_of_unsolved unsolved with ⟨cell, flexible⟩ | ⟨name, cell, rigid⟩
    · rw [flexible]
      have solves := solves_link unsolved.1 cell unsolved' tame same
      exact ⟨solves.unified tame plain (.inl ⟨left, right.trans zonkY.symm⟩),
        small.link unsolved.1⟩
    · rw [rigid]
      rcases tame.cell_of_unsolved unsolved' with ⟨cell', flexible⟩ | ⟨name', cell', rigid'⟩
      · rw [flexible]
        have solves := solves_link unsolved'.1 cell' unsolved tame (Ne.symm same)
        exact ⟨solves.unified tame plain (.inr ⟨left.trans zonkX.symm, right⟩),
          small.link unsolved'.1⟩
      · rw [rigid']
        refine tame.outcome_error small (by simp) fun images solver => same ?_
        have equal := solver.equal pair (List.mem_singleton_self pair)
        rw [left, right, Ty.under, Ty.under, solver.rigid cell, solver.rigid cell'] at equal
        exact Ty.var.inj equal

theorem Tame.isVar_under_zonk (tame : subst.Tame) {ty : Ty} (plain : ty.FirstOrder subst.size)
    (notVar : ty.isVar = false) (images : TyVar → Ty) :
    ((subst.zonk ty).under images).isVar = false := by
  cases plain with
  | var _ => simp at notVar
  | arrow fst snd => rw [tame.zonk_arrow fst snd]; rfl
  | tuple each => rw [tame.zonk_tuple each]; rfl
  | nominal each => rw [tame.zonk_nominal each]; rfl

theorem Tame.outcome_varWith (tame : subst.Tame) {bound depth : Nat}
    (small : subst.SolutionsWithin bound) {pair : Ty × Ty}
    (plain : pair.1.FirstOrder subst.size ∧ pair.2.FirstOrder subst.size) {x : TyVar} {ty : Ty}
    (plainTy : ty.FirstOrder subst.size) (notVar : ty.isVar = false) (size : ty.size ≤ bound)
    (height : (subst.zonk ty).height < depth) (unsolved : subst.Unsolved x)
    (sides : subst.zonk pair.1 = .var x ∧ subst.zonk pair.2 = subst.zonk ty ∨
      subst.zonk pair.1 = subst.zonk ty ∧ subst.zonk pair.2 = .var x) :
    subst.Outcome bound [pair] (Unify.varWith depth x ty subst) := by
  have imageOf : ∀ {images}, subst.Solver [pair] images →
      images x = (subst.zonk ty).under images := fun solver => by
    have equal := solver.equal pair (List.mem_singleton_self pair)
    rcases sides with ⟨left, right⟩ | ⟨left, right⟩
    · rwa [left, right] at equal
    · rw [left, right] at equal
      exact equal.symm
  simp only [Unify.varWith, bind_apply, get_apply]
  rcases tame.cell_of_unsolved unsolved with ⟨cell, flexible⟩ | ⟨name, cell, rigid⟩
  · simp only [flexible, Bool.false_eq_true, if_false, bind_apply,
      tame.occursWithin_eq x plainTy height, Unify.finished, pure_apply, decide_eq_true_eq]
    by_cases occurs : x ∈ (subst.zonk ty).leaves
    · rw [if_pos occurs]
      refine tame.outcome_error small (by simp) fun images solver => ?_
      exact (tame.zonk_firstOrder plainTy).image_ne images occurs
        (by have := tame.isVar_under_zonk plainTy notVar Ty.var
            rwa [(tame.zonk_firstOrder plainTy).under_var] at this) (imageOf solver)
    · rw [if_neg occurs]
      exact ⟨(solves_bind unsolved.1 cell plainTy notVar occurs).unified tame plain sides,
        small.bind unsolved.1 size⟩
  · rw [if_pos rigid]
    refine tame.outcome_error small (by simp) fun images solver => ?_
    have image := imageOf solver
    rw [solver.rigid cell] at image
    have := tame.isVar_under_zonk plainTy notVar images
    simp [← image] at this

theorem stepped_of_outcome {bound : Nat} {pair : Ty × Ty} {comparison : Unify Unit}
    (outcome : subst.Outcome bound [pair] (comparison subst)) :
    subst.Stepped bound pair ((comparison >>= fun _ => pure []) subst) := by
  rw [bind_apply]
  cases result : comparison subst with
  | ok _ next =>
    rw [result] at outcome
    exact .inl ⟨rfl, outcome⟩
  | error error next =>
    rw [result] at outcome
    exact outcome

theorem Tame.stepped_mismatch (tame : subst.Tame) {bound : Nat}
    (small : subst.SolutionsWithin bound) {pair : Ty × Ty} {left right : Ty}
    (isLeft : subst.IsHead bound pair.1 left) (isRight : subst.IsHead bound pair.2 right)
    (notVar : left.isVar = false) (notVar' : right.isVar = false)
    (different : ¬ SameHead left right) :
    subst.Stepped bound pair (.error (.mismatch left right) subst) := by
  refine tame.outcome_error small (by simp) fun images solver => different ?_
  refine tame.sameHead_of_under_eq isLeft.plain isRight.plain notVar notVar'
    (?_ : _ = Ty.under images _)
  rw [isLeft.zonk, isRight.zonk]
  exact solver.equal pair (List.mem_singleton_self pair)

theorem Tame.stepped (tame : subst.Tame) {bound depth : Nat} (small : subst.SolutionsWithin bound)
    {pair : Ty × Ty} (ready : subst.Ready bound depth pair.1)
    (ready' : subst.Ready bound depth pair.2) :
    subst.Stepped bound pair (Unify.step depth pair subst) := by
  obtain ⟨left, shallow, isLeft⟩ := ready.head tame small
  obtain ⟨right, shallow', isRight⟩ := ready'.head tame small
  have plain := And.intro ready.plain ready'.plain
  have height := ready.room tame rfl small tame.extends_refl
  have height' := ready'.room tame rfl small tame.extends_refl
  rw [← isLeft.zonk] at height
  rw [← isRight.zonk] at height'
  have splits : SameHead left right →
      subst.Stepped bound pair (.ok (left.children.zip right.children) subst) := fun same =>
    .inr ⟨rfl, left, right, same, isLeft, isRight, rfl⟩
  have byVar : ∀ {x : TyVar}, right = .var x → left.isVar = false →
      subst.Stepped bound pair ((Unify.varWith depth x left >>= fun _ => pure []) subst) := by
    rintro x rfl notVar
    have unsolved := isRight.unsolved rfl
    have zonkX := isRight.zonk.symm.trans (tame.zonk_var_of_unsolved unsolved)
    exact stepped_of_outcome (tame.outcome_varWith small plain isLeft.plain notVar isLeft.size_le
      height unsolved (.inr ⟨isLeft.zonk.symm, zonkX⟩))
  simp only [Unify.step, bind_apply, get_apply, shallow, shallow', Unify.finished, pure_apply]
  cases isLeft.plain with
  | var inside =>
    rename_i x
    have unsolved := isLeft.unsolved rfl
    have zonkX := isLeft.zonk.symm.trans (tame.zonk_var_of_unsolved unsolved)
    cases isRight.plain with
    | var inside' =>
      rename_i y
      have unsolved' := isRight.unsolved rfl
      have zonkY := isRight.zonk.symm.trans (tame.zonk_var_of_unsolved unsolved')
      exact stepped_of_outcome (tame.outcome_vars small plain zonkX zonkY unsolved unsolved')
    | arrow _ _ =>
      exact stepped_of_outcome (tame.outcome_varWith small plain isRight.plain rfl isRight.size_le
        height' unsolved (.inl ⟨zonkX, isRight.zonk.symm⟩))
    | tuple _ =>
      exact stepped_of_outcome (tame.outcome_varWith small plain isRight.plain rfl isRight.size_le
        height' unsolved (.inl ⟨zonkX, isRight.zonk.symm⟩))
    | nominal _ =>
      exact stepped_of_outcome (tame.outcome_varWith small plain isRight.plain rfl isRight.size_le
        height' unsolved (.inl ⟨zonkX, isRight.zonk.symm⟩))
  | arrow _ _ =>
    have mismatch := tame.stepped_mismatch small isLeft isRight rfl
    cases isRight.plain with
    | var _ => exact byVar rfl rfl
    | arrow _ _ => exact splits (.arrow _ _ _ _)
    | tuple _ => exact mismatch rfl nofun
    | nominal _ => exact mismatch rfl nofun
  | tuple _ =>
    have mismatch := tame.stepped_mismatch small isLeft isRight rfl
    cases isRight.plain with
    | var _ => exact byVar rfl rfl
    | arrow _ _ => exact mismatch rfl nofun
    | tuple _ =>
      rename_i lefts _ rights _
      by_cases length : lefts.length = rights.length
      · simp only [length, if_true]
        exact splits (.tuple length)
      · simp only [length, if_false]
        exact mismatch rfl fun | .tuple same => length same
    | nominal _ => exact mismatch rfl nofun
  | nominal _ =>
    have mismatch := tame.stepped_mismatch small isLeft isRight rfl
    cases isRight.plain with
    | var _ => exact byVar rfl rfl
    | arrow _ _ => exact mismatch rfl nofun
    | tuple _ => exact mismatch rfl nofun
    | nominal _ =>
      rename_i base lefts _ base' rights _
      by_cases same : base = base' ∧ lefts.length = rights.length
      · simp only [same, and_self, if_true]
        obtain ⟨rfl, length⟩ := same
        exact splits (.nominal _ length)
      · simp only [same, if_false]
        exact mismatch rfl fun | .nominal _ length => same ⟨rfl, length⟩

section Descent

theorem IsHead.zonk_later {bound : Nat} {ty head : Ty} (isHead : subst.IsHead bound ty head)
    (plain : ty.FirstOrder subst.size) (later : subst.Extends after) :
    after.zonk head = after.zonk ty := by
  rw [← later.resolved isHead.plain, isHead.zonk, later.resolved plain]

theorem Ready.child {bound depth : Nat} {ty head part : Ty}
    (ready : subst.Ready bound (depth + 1) ty) (isHead : subst.IsHead bound ty head)
    (member : part ∈ head.children) : subst.Ready bound depth part where
  plain := isHead.plain.child member
  size_le := Nat.le_trans (size_child_le isHead.plain member) isHead.size_le
  room {after} tame size small later := by
    have below := tame.height_child_lt (size ▸ isHead.plain) member
    have room := ready.room tame size small later
    rw [isHead.zonk_later ready.plain later] at below
    omega

theorem Tame.outcome_forM {bound depth : Nat} {compare : Ty × Ty → Unify Unit}
    {pairs : List (Ty × Ty)} (tame : subst.Tame) (small : subst.SolutionsWithin bound)
    (ready : ∀ pair ∈ pairs, subst.Ready bound depth pair.1 ∧ subst.Ready bound depth pair.2)
    (each : ∀ {middle : Subst} {pair : Ty × Ty}, middle.Tame → middle.SolutionsWithin bound →
      middle.Ready bound depth pair.1 → middle.Ready bound depth pair.2 →
      middle.Outcome bound [pair] (compare pair middle)) :
    subst.Outcome bound pairs (forM pairs compare subst) := by
  induction pairs generalizing subst with
  | nil => exact ⟨tame.unified_of_equal nofun, small⟩
  | cons pair rest ih =>
    obtain ⟨ready₁, ready₂⟩ := ready pair List.mem_cons_self
    have plain : ∀ other ∈ rest, other.1.FirstOrder subst.size ∧ other.2.FirstOrder subst.size :=
      fun other member =>
        have both := ready other (List.mem_cons_of_mem pair member)
        ⟨both.1.plain, both.2.plain⟩
    have first := each tame small ready₁ ready₂
    rw [List.forM_cons, bind_apply]
    cases result : compare pair subst with
    | error error middle =>
      rw [result] at first
      refine ⟨first.1, first.2.1, fun images solver => first.2.2 images ?_⟩
      exact ⟨solver.rigid, fun other member => solver.equal other
        (List.mem_singleton.mp member ▸ List.mem_cons_self)⟩
    | ok _ middle =>
      rw [result] at first
      obtain ⟨unified, small'⟩ := first
      have rests := ih unified.tame small' fun other member =>
        have both := ready other (List.mem_cons_of_mem pair member)
        ⟨both.1.later tame unified.size unified.later, both.2.later tame unified.size unified.later⟩
      change subst.Outcome bound _ (forM rest compare middle)
      cases result' : forM rest compare middle with
      | ok _ after =>
        rw [result'] at rests
        refine ⟨Unified.append tame ?_ plain unified rests.1, rests.2⟩
        intro other member
        rw [List.mem_singleton.mp member]
        exact ⟨ready₁.plain, ready₂.plain⟩
      | error error after =>
        rw [result'] at rests
        obtain ⟨⟨tame', size', small'⟩, known, unsolvable⟩ := rests
        refine ⟨⟨tame', size'.trans unified.size, small'⟩, known, fun images solver => ?_⟩
        exact unsolvable images (Solver.rest unified solver plain).2

variable {bound : Nat} {pair : Ty × Ty} {left right : Ty}

theorem Tame.solver_iff_parts (tame : subst.Tame) (same : SameHead left right)
    (isLeft : subst.IsHead bound pair.1 left) (isRight : subst.IsHead bound pair.2 right)
    {images : TyVar → Ty} :
    subst.Solver [pair] images ↔ subst.Solver (left.children.zip right.children) images := by
  have parts := tame.under_eq_iff_parts same isLeft.plain isRight.plain images
  rw [isLeft.zonk, isRight.zonk] at parts
  constructor
  · intro solver
    exact ⟨solver.rigid, parts.mp (solver.equal pair (List.mem_singleton_self pair))⟩
  · intro solver
    refine ⟨solver.rigid, fun other member => ?_⟩
    rw [List.mem_singleton.mp member]
    exact parts.mpr solver.equal

theorem Tame.involves_of_parts (tame : subst.Tame) (isLeft : subst.IsHead bound pair.1 left)
    (isRight : subst.IsHead bound pair.2 right) {v : TyVar}
    (involved : subst.Involves (left.children.zip right.children) v) :
    subst.Involves [pair] v := by
  obtain ⟨part, member, inPart⟩ := involved
  obtain ⟨inLeft, inRight⟩ := List.of_mem_zip member
  refine ⟨pair, List.mem_singleton_self pair, inPart.imp (fun inPart => ?_) fun inPart => ?_⟩
  · exact isLeft.zonk ▸ tame.leaves_of_child isLeft.plain inLeft inPart
  · exact isRight.zonk ▸ tame.leaves_of_child isRight.plain inRight inPart

theorem Tame.unified_of_parts (tame : subst.Tame) (same : SameHead left right)
    (isLeft : subst.IsHead bound pair.1 left) (isRight : subst.IsHead bound pair.2 right)
    (plain : pair.1.FirstOrder subst.size ∧ pair.2.FirstOrder subst.size)
    (unified : subst.Unified (left.children.zip right.children) after) :
    subst.Unified [pair] after where
  tame := unified.tame
  size := unified.size
  later := unified.later
  equal other member := by
    have plainLeft : left.FirstOrder after.size := unified.size ▸ isLeft.plain
    have plainRight : right.FirstOrder after.size := unified.size ▸ isRight.plain
    have parts := unified.tame.under_eq_iff_parts same plainLeft plainRight Ty.var
    rw [(unified.tame.zonk_firstOrder plainLeft).under_var,
      (unified.tame.zonk_firstOrder plainRight).under_var] at parts
    rw [List.mem_singleton.mp member, ← isLeft.zonk_later plain.1 unified.later,
      ← isRight.zonk_later plain.2 unified.later, parts]
    intro part inParts
    rw [unified.equal part inParts]
  general solver := unified.general ((tame.solver_iff_parts same isLeft isRight).mp solver)
  leaves plainTy _ member := (unified.leaves plainTy member).imp_right
    (tame.involves_of_parts isLeft isRight)
  untouched notInvolved := unified.untouched fun involved =>
    notInvolved (tame.involves_of_parts isLeft isRight involved)

theorem Tame.outcome_of_parts (tame : subst.Tame) (same : SameHead left right)
    (isLeft : subst.IsHead bound pair.1 left) (isRight : subst.IsHead bound pair.2 right)
    (plain : pair.1.FirstOrder subst.size ∧ pair.2.FirstOrder subst.size)
    {result : EStateM.Result UnifyError Subst PUnit}
    (outcome : subst.Outcome bound (left.children.zip right.children) result) :
    subst.Outcome bound [pair] result := by
  cases result with
  | ok _ after => exact ⟨tame.unified_of_parts same isLeft isRight plain outcome.1, outcome.2⟩
  | error error after =>
    refine ⟨outcome.1, outcome.2.1, fun images solver => outcome.2.2 images ?_⟩
    exact (tame.solver_iff_parts same isLeft isRight).mp solver

/-- The whole comparison of a pair. The induction is on the levels left: a part is lower than its
type, whatever has been solved in between. -/
theorem Tame.outcome_descend {depth : Nat} (tame : subst.Tame)
    (small : subst.SolutionsWithin bound) (ready : subst.Ready bound depth pair.1)
    (ready' : subst.Ready bound depth pair.2) :
    subst.Outcome bound [pair] (Agenda.descend (throw .exhausted) Unify.step depth pair subst) := by
  induction depth generalizing subst pair with
  | zero =>
    have room := ready.room tame rfl small tame.extends_refl
    omega
  | succ depth ih =>
    have stepped := tame.stepped small ready ready'
    rw [Agenda.descend, bind_apply]
    cases result : Unify.step (depth + 1) pair subst with
    | error error next =>
      rw [result] at stepped
      exact stepped
    | ok parts next =>
      rw [result] at stepped
      rcases stepped with ⟨rfl, unified⟩ | ⟨rfl, left, right, same, isLeft, isRight, rfl⟩
      · exact unified
      · refine tame.outcome_of_parts same isLeft isRight ⟨ready.plain, ready'.plain⟩ ?_
        refine tame.outcome_forM small (fun part member => ?_) ih
        obtain ⟨inLeft, inRight⟩ := List.of_mem_zip member
        exact ⟨ready.child isLeft inLeft, ready'.child isRight inRight⟩

/-- Solutions are never larger than the cells and the two types together, and so the depth that is
granted leaves room. -/
theorem ready_of_size_le {ty : Ty} (plain : ty.FirstOrder subst.size) {size : Nat}
    (size_le : ty.size ≤ size) :
    subst.Ready (subst.mass + size) (subst.depthBound size) ty where
  plain := plain
  size_le := Nat.le_trans size_le (Nat.le_add_left _ _)
  room {later} tame' same small _ := by
    have height := tame'.height_zonk_le small (same ▸ plain)
    have allowance : 0 < reductionAllowance := by decide
    rw [same] at height
    rw [depthBound, Nat.succ_mul, Nat.mul_succ]
    omega

theorem Tame.outcome_unify (tame : subst.Tame) {left right : Ty}
    (plain : left.FirstOrder subst.size) (plain' : right.FirstOrder subst.size) :
    subst.Outcome (subst.mass + (left.size + right.size)) [(left, right)]
      (Subst.unify left right subst) := by
  have small : subst.SolutionsWithin (subst.mass + (left.size + right.size)) := fun cell =>
    Nat.le_trans (subst.solutionsWithin_mass cell) (Nat.le_add_right _ _)
  rw [Subst.unify, bind_apply, get_apply]
  simp only [Unify.within, Agenda.walk_singleton]
  exact tame.outcome_descend small (ready_of_size_le plain (Nat.le_add_right _ _))
    (ready_of_size_le plain' (Nat.le_add_left _ _))

end Descent

end PolyCheck.Subst
