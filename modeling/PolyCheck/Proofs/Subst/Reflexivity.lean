import PolyCheck.Proofs.Subst.Calls
import PolyCheck.Proofs.Subst.Repeat

/-! A type unified with itself. Both sides have the same head, so every pair of parts is again a
type and itself: equal variables need nothing, applications of a head split alike, and a quantifier
is opened at the same skolems on both sides. The resolved body has no more levels than its walk
took, so it can be walked once more below the quantifier, and nothing but skolems is made. -/
namespace PolyCheck.Subst

open Run

variable {subst middle after : Subst} {ty result : Ty} {depth : Nat} {v : TyVar}

structure Opened (subst after : Subst) : Prop extends Lengthened subst after where
  skolem : ∀ {v : TyVar}, subst.size ≤ v.index → v.index < after.size → after.cell v = .rigid none

theorem opened_refl (subst : Subst) : subst.Opened subst where
  toLengthened := subst.lengthened_refl
  skolem outside inside := absurd inside (Nat.not_lt_of_ge outside)

theorem Opened.trans (first : subst.Opened middle) (second : middle.Opened after) :
    subst.Opened after where
  toLengthened := first.toLengthened.trans second.toLengthened
  skolem {v} outside inside := by
    by_cases earlier : v.index < middle.size
    · rw [second.cells earlier]
      exact first.skolem outside earlier
    · exact second.skolem (Nat.le_of_not_lt earlier) inside

theorem opened_push (subst : Subst) : subst.Opened (subst.push (.rigid none)).2 where
  toLengthened := subst.lengthened_push (Cell.isNew_rigid none)
  skolem {v} outside inside := by
    rw [size_push] at inside
    rw [cell_push, if_pos (Nat.le_antisymm (Nat.le_of_lt_succ inside) outside)]

theorem opened_pushMany (subst : Subst) (count : Nat) :
    subst.Opened (subst.pushMany (.rigid none) count).2 := by
  induction count generalizing subst with
  | zero => exact subst.opened_refl
  | succ count ih => exact subst.opened_push.trans (ih _)

/-- A type beside itself that can be resolved within a depth. -/
def Mirrored (subst : Subst) (depth : Nat) (pair : Ty × Ty) : Prop :=
  pair.1 = pair.2 ∧ subst.zonkWithin depth pair.1 ≠ none

theorem Opened.mirrored (opened : subst.Opened after) (ends : subst.LinksEnd) {pair : Ty × Ty}
    (mirrored : subst.Mirrored depth pair) : after.Mirrored depth pair := by
  refine ⟨mirrored.1, ?_⟩
  rw [opened.toLengthened.zonkWithin ends]
  exact mirrored.2

theorem mirrored_zip {types results : List Ty}
    (walks : List.Forall₂ (fun t r => subst.zonkWithin depth t = some r) types results) :
    ∀ pair ∈ types.zip types, subst.Mirrored depth pair := by
  intro pair member
  have walks := mapM_eq_some_iff.mpr walks
  obtain ⟨left, right, walk, -, -⟩ := zip_of_mapM walks walks pair member
  refine ⟨?_, walk ▸ Option.some_ne_none _⟩
  obtain ⟨index, inside, rfl⟩ := List.getElem_of_mem member
  rw [List.getElem_zip]

theorem mirrored_opened (ends : subst.LinksEnd) {body : Ty}
    (inside : subst.zonkWithin depth body = some result)
    (params : List TyVar) {count : Nat} {skolems : List TyVar}
    (opened : subst.pushMany (.rigid none) count = (skolems, after)) :
    after.Mirrored depth (result.substitute (.ofLists params (skolems.map .var)),
      result.substitute (.ofLists params (skolems.map .var))) := by
  obtain ⟨longer, -, each⟩ := subst.lengthened_pushMany (Cell.isNew_rigid none) count
  rw [opened] at longer each
  obtain ⟨normal, height⟩ := (longer.normal (ends.normal_zonkWithin inside)).rename fun v => by
    rcases Assignment.image_cases params (skolems.map .var) v with member | ⟨same, -⟩
    · obtain ⟨s, isSkolem, same⟩ := List.mem_map.mp member
      exact ⟨s, same.symm, fun _ => longer.isNew (each s isSkolem).1⟩
    · exact ⟨v, same, id⟩
  refine ⟨rfl, ?_⟩
  rw [normal.zonkWithin (height ▸ ends.height_zonkWithin inside)]
  exact Option.some_ne_none _

theorem step_mirrored (ends : subst.LinksEnd) {pair : Ty × Ty}
    (mirrored : subst.Mirrored (depth + 1) pair) :
    ∃ below after, Unify.step (depth + 1) pair subst = .ok below after ∧ subst.Opened after ∧
      ∀ part ∈ below, after.Mirrored depth part := by
  obtain ⟨left, right⟩ := pair
  obtain ⟨same, resolves⟩ := mirrored
  obtain rfl : left = right := same
  obtain ⟨result, walk⟩ := Option.ne_none_iff_exists'.mp resolves
  obtain ⟨head, shallow, rebuilt⟩ := zonkWithin_eq_some_iff.mp walk
  have mirror : ∀ {t t' : Ty}, subst.zonkWithin depth t = some t' → subst.Mirrored depth (t, t) :=
    fun walk => ⟨rfl, walk ▸ Option.some_ne_none _⟩
  simp only [Unify.step, bind_apply, get_apply, shallow, Unify.finished, pure_apply]
  cases rebuilt with
  | var x =>
    refine ⟨[], subst, ?_, subst.opened_refl, List.forall_mem_nil _⟩
    simp [Unify.vars, bind_apply, pure_apply]
  | arrow first second =>
    exact ⟨_, subst, rfl, subst.opened_refl,
      List.forall_mem_cons.mpr ⟨mirror first, List.forall_mem_singleton.mpr (mirror second)⟩⟩
  | tuple walks =>
    simp only [if_true]
    exact ⟨_, subst, rfl, subst.opened_refl, mirrored_zip walks⟩
  | nominal walks =>
    simp only [and_self, if_true]
    exact ⟨_, subst, rfl, subst.opened_refl, mirrored_zip walks⟩
  | @quantified params body body' within =>
    cases opened : subst.pushMany (.rigid none) params.length with
    | mk skolems after =>
      have longer := subst.opened_pushMany params.length
      rw [opened] at longer
      have zonk : after.zonkWithin (depth + 1) body = some body' :=
        (longer.toLengthened.zonkWithin ends (depth + 1) _).trans
          (zonkWithin_mono (Nat.le_succ _) within)
      refine ⟨_, after, ?_, longer,
        List.forall_mem_singleton.mpr (mirrored_opened ends within params opened)⟩
      have made : Unify.skolems params.length subst = .ok skolems after := by
        change EStateM.Result.ok (subst.pushMany (.rigid none) params.length).1
          (subst.pushMany (.rigid none) params.length).2 = _
        rw [opened]
      simp [bind_apply, get_apply, pure_apply, made, zonk]
  | app first walks =>
    refine ⟨_, subst, rfl, subst.opened_refl, ?_⟩
    simp only [Unify.splitApps, Nat.sub_self, if_true]
    exact List.forall_mem_cons.mpr ⟨mirror first, mirrored_zip walks⟩

theorem descend_mirrored (ends : subst.LinksEnd) {pair : Ty × Ty}
    (mirrored : subst.Mirrored depth pair) :
    ∃ after, Agenda.descend (throw .exhausted) Unify.step depth pair subst = .ok () after ∧
      subst.Opened after := by
  induction depth generalizing subst pair with
  | zero => simp [Mirrored, Subst.zonkWithin] at mirrored
  | succ depth ih =>
    have forM_mirrored : ∀ (below : List (Ty × Ty)) {middle : Subst}, middle.LinksEnd →
        (∀ part ∈ below, middle.Mirrored depth part) →
        ∃ after, forM below (Agenda.descend (throw .exhausted) Unify.step depth) middle =
          .ok () after ∧ middle.Opened after := by
      intro below
      induction below with
      | nil => exact fun {middle} _ _ => ⟨middle, rfl, middle.opened_refl⟩
      | cons part below ihBelow =>
        intro middle ends each
        obtain ⟨first, rest⟩ := List.forall_mem_cons.mp each
        obtain ⟨next, run, longer⟩ := ih ends first
        obtain ⟨after, run', longer'⟩ := ihBelow (longer.toLengthened.ends ends)
          fun other member => longer.mirrored ends (rest other member)
        exact ⟨after, by rw [List.forM_cons, bind_apply, run]; exact run', longer.trans longer'⟩
    obtain ⟨below, middle, run, longer, each⟩ := step_mirrored ends mirrored
    obtain ⟨after, run', longer'⟩ := forM_mirrored below (longer.toLengthened.ends ends) each
    exact ⟨after, by rw [Agenda.descend, bind_apply, run]; exact run', longer.trans longer'⟩

/-- Whatever has been unified before, a type of any kind that can be resolved unifies with itself.
All variables there were keep their cells, their roots and what they resolve to, at any depth; what
is new are skolems. -/
theorem unify_self (calls : Calls anyType empty subst)
    (resolves : subst.zonkWithin (subst.depthBound ty.size) ty ≠ none) :
    ∃ after, Subst.unify ty ty subst = .ok () after ∧ subst.size ≤ after.size ∧
      (∀ v, v.index < subst.size → after.cell v = subst.cell v ∧ after.root v = subst.root v ∧
        ∀ depth, after.zonkWithin depth (.var v) = subst.zonkWithin depth (.var v)) ∧
      ∀ v, subst.size ≤ v.index → v.index < after.size → after.cell v = .rigid none := by
  obtain ⟨_, writes⟩ := calls.writes linksEnd_empty
  have ends := writes.linksEnd linksEnd_empty
  have deeper : subst.depthBound ty.size ≤ subst.depthBound (ty.size + ty.size) :=
    Nat.add_le_add_left (Nat.mul_le_mul_left _ (by omega)) _
  obtain ⟨result, walk⟩ := Option.ne_none_iff_exists'.mp resolves
  have mirrored : subst.Mirrored (subst.depthBound (ty.size + ty.size)) (ty, ty) :=
    ⟨rfl, zonkWithin_mono deeper walk ▸ Option.some_ne_none _⟩
  obtain ⟨after, run, opened⟩ := descend_mirrored ends mirrored
  refine ⟨after, ?_, opened.size_le,
    fun v inside => ⟨opened.cells inside, opened.toLengthened.root ends v,
    fun depth => opened.toLengthened.zonkWithin ends depth _⟩, fun v => opened.skolem⟩
  rw [Subst.unify, bind_apply, get_apply]
  simpa only [Unify.within, Agenda.walk_singleton] using run

/-- A quantified application of an unsolved variable; the variable stays unsolved. -/
theorem unify_self_quantified :
    ∃ after, Subst.unify (.quantified [⟨1⟩] (.app (.var ⟨0⟩) [.var ⟨1⟩]))
    (.quantified [⟨1⟩] (.app (.var ⟨0⟩) [.var ⟨1⟩]))
      empty.fresh.2.freshSkolem.2 = .ok () after ∧ after.cell ⟨0⟩ = .unbound := by
  have calls : Calls anyType empty empty.fresh.2.freshSkolem.2 :=
    .tail (.tail .refl .fresh) .freshSkolem
  obtain ⟨after, run, -, kept, -⟩ :=
    @unify_self _ (.quantified [⟨1⟩] (.app (.var ⟨0⟩) [.var ⟨1⟩])) calls (by cbv; simp)
  exact ⟨after, run, (kept ⟨0⟩ (by decide)).1⟩

end PolyCheck.Subst
