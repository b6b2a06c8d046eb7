import PolyCheck.Proofs.Subst.Fits
import PolyCheck.Proofs.Subst.Hereditary
import PolyCheck.Proofs.Subst.Normal
import PolyCheck.Proofs.Ty.Alike

/-! Unification repeated. When two types resolve to types that are equal up to the names of bound
variables, unifying them succeeds and leaves all cells as they are; only skolems for the quantifiers
that are compared are made on the way. First-order types have this after every unification that
succeeds. Types with quantifiers need not: the bodies are compared under common skolems, and a
skolem may become the solution of a variable outside. -/
namespace PolyCheck.Subst

open Run

variable {subst middle after : Subst} {ty result : Ty} {depth : Nat} {v : TyVar}

section Lengthened

/-- The same cells, and new variables behind them. -/
structure Lengthened (subst after : Subst) : Prop where
  size_le : subst.size ≤ after.size
  cells : ∀ {v : TyVar}, v.index < subst.size → after.cell v = subst.cell v
  isNew : ∀ {v : TyVar}, subst.size ≤ v.index → (after.cell v).IsNew

theorem lengthened_refl (subst : Subst) : subst.Lengthened subst where
  size_le := Nat.le_refl _
  cells _ := rfl
  isNew outside := by
    rw [cell_of_size_le outside]
    trivial

theorem Lengthened.trans (first : subst.Lengthened middle) (second : middle.Lengthened after) :
    subst.Lengthened after where
  size_le := Nat.le_trans first.size_le second.size_le
  cells inside := by rw [second.cells (Nat.lt_of_lt_of_le inside first.size_le), first.cells inside]
  isNew {v} outside := by
    by_cases inside : v.index < middle.size
    · rw [second.cells inside]
      exact first.isNew outside
    · exact second.isNew (Nat.le_of_not_lt inside)

theorem lengthened_push (subst : Subst) {cell : Cell} (isNew : cell.IsNew) :
    subst.Lengthened (subst.push cell).2 where
  size_le := by simp
  cells inside := by rw [cell_push, if_neg (Nat.ne_of_lt inside)]
  isNew outside := by
    rw [cell_push]
    split
    · exact isNew
    · rw [cell_of_size_le outside]
      trivial

theorem lengthened_pushMany (subst : Subst) {cell : Cell} (isNew : cell.IsNew) (count : Nat) :
    subst.Lengthened (subst.pushMany cell count).2 ∧ (subst.pushMany cell count).1.length = count ∧
      ∀ v ∈ (subst.pushMany cell count).1, subst.size ≤ v.index ∧
        v.index < (subst.pushMany cell count).2.size := by
  induction count generalizing subst with
  | zero => exact ⟨subst.lengthened_refl, rfl, nofun⟩
  | succ count ih =>
    have first := subst.lengthened_push isNew
    obtain ⟨rest, length, each⟩ := ih (subst.push cell).2
    refine ⟨first.trans rest, congrArg Nat.succ length,
      List.forall_mem_cons.mpr ⟨⟨Nat.le_refl _, ?_⟩, ?_⟩⟩
    · exact Nat.lt_of_lt_of_le (by simp) rest.size_le
    · exact fun v member => ⟨Nat.le_trans first.size_le (each v member).1, (each v member).2⟩

theorem nodup_pushMany (subst : Subst) {cell : Cell} (isNew : cell.IsNew) (count : Nat) :
    (subst.pushMany cell count).1.Nodup := by
  induction count generalizing subst with
  | zero => exact List.nodup_nil
  | succ count ih =>
    refine List.nodup_cons.mpr ⟨fun member => ?_, ih _⟩
    have later := (((subst.push cell).2.lengthened_pushMany isNew count).2.2 _ member).1
    exact absurd later (by simp)

variable (longer : subst.Lengthened after)
include longer

theorem Lengthened.cell_cases (v : TyVar) :
    after.cell v = subst.cell v ∨ (subst.cell v).IsNew ∧ (after.cell v).IsNew := by
  by_cases inside : v.index < subst.size
  · exact .inl (longer.cells inside)
  · have outside := Nat.le_of_not_lt inside
    rw [cell_of_size_le outside]
    exact .inr ⟨trivial, longer.isNew outside⟩

theorem Lengthened.isNew_of_isNew (isNew : (subst.cell v).IsNew) : (after.cell v).IsNew := by
  rcases longer.cell_cases v with same | ⟨-, isNew'⟩
  · exact same ▸ isNew
  · exact isNew'

theorem Lengthened.ends (ends : subst.LinksEnd) : after.LinksEnd := by
  obtain ⟨rank, lower⟩ := ends
  refine ⟨rank, fun v w linked => ?_⟩
  rcases longer.cell_cases v with same | ⟨-, isNew⟩
  · exact lower v w (same ▸ linked)
  · rw [linked] at isNew
    exact isNew.elim

theorem Lengthened.cell_eq_iff {cell : Cell} (old : ¬ cell.IsNew) : after.cell v = cell ↔
    subst.cell v = cell := by
  rcases longer.cell_cases v with same | ⟨isNew, isNew'⟩
  · rw [same]
  · exact ⟨fun found => absurd (found ▸ isNew') old, fun found => absurd (found ▸ isNew) old⟩

theorem Lengthened.root (ends : subst.LinksEnd) (v : TyVar) : after.root v = subst.root v := by
  have further : ∀ more, subst.rootWithin (subst.size + more) v = subst.root v := by
    intro more
    induction more with
    | zero => rfl
    | succ more ih =>
      rcases rootWithin_succ subst (subst.size + more) v with ⟨w, cell, -⟩ | ⟨-, same⟩
      · rw [ih] at cell
        exact absurd cell (ends.cell_root_ne v w)
      · exact same.trans ih
  obtain ⟨more, sizes⟩ := Nat.exists_eq_add_of_le longer.size_le
  rw [Subst.root, rootWithin_congr (fun _ _ => longer.cell_eq_iff id), sizes, further]

theorem Lengthened.rootCell_bound (ends : subst.LinksEnd) (v : TyVar) (solution : Ty) :
    after.rootCell v = .bound solution ↔ subst.rootCell v = .bound solution := by
  rw [rootCell, rootCell, longer.root ends]
  exact longer.cell_eq_iff id

theorem Lengthened.zonkWithin (ends : subst.LinksEnd) (depth : Nat) (ty : Ty) :
    after.zonkWithin depth ty = subst.zonkWithin depth ty :=
  zonkWithin_congr (longer.root ends) (longer.rootCell_bound ends) depth ty

theorem Lengthened.normal (normal : subst.Normal ty) : after.Normal ty := by
  induction normal with
  | var isNew => exact .var (longer.isNew_of_isNew isNew)
  | arrow _ _ ihParam ihResult => exact .arrow ihParam ihResult
  | tuple _ ih => exact .tuple ih
  | nominal _ ih => exact .nominal ih
  | quantified _ ih => exact .quantified ih
  | app stuck _ some _ ihHead ih => exact .app stuck ihHead some ih

end Lengthened

section Resolved

inductive Parts (subst : Subst) (depth : Nat) : Ty → Ty → Prop where
  | var (v : TyVar) : Parts subst depth (.var v) (.var v)
  | arrow {p r p' r' : Ty} (fst : subst.zonkWithin depth p = some p')
      (snd : subst.zonkWithin depth r = some r') : Parts subst depth (.arrow p r) (.arrow p' r')
  | tuple {es es' : List Ty} (each : es.mapM (subst.zonkWithin depth) = some es') :
    Parts subst depth (.tuple es) (.tuple es')
  | nominal {template : TemplateId} {as as' : List Ty}
      (each : as.mapM (subst.zonkWithin depth) = some as') :
    Parts subst depth (.nominal template as) (.nominal template as')
  | quantified {ps : List TyVar} {b b' : Ty} (inside : subst.zonkWithin depth b = some b') :
    Parts subst depth (.quantified ps b) (.quantified ps b')
  | app {h h' : Ty} {as as' : List Ty} (fst : subst.zonkWithin depth h = some h')
    (each : as.mapM (subst.zonkWithin depth) = some as') : Parts subst depth (.app h as)
      (.app h' as')

theorem zonkWithin_parts (here : subst.Solutions (Ty.Applied True)) (applied : ty.Applied True)
    (walk : subst.zonkWithin (depth + 1) ty = some result) :
    ∃ head, subst.shallowWithin (depth + 1) ty = some head ∧ head.Applied True ∧
      subst.Parts depth head result := by
  obtain ⟨head, shallow, rebuilt⟩ := zonkWithin_eq_some_iff.mp walk
  have applied' := here.shallowWithin (Ty.hereditary_applied True) applied shallow
  refine ⟨head, shallow, applied', ?_⟩
  cases rebuilt with
  | var v => exact .var v
  | arrow first second => exact .arrow first second
  | tuple walks => exact .tuple (mapM_eq_some_iff.mpr walks)
  | nominal walks => exact .nominal (mapM_eq_some_iff.mpr walks)
  | quantified within => exact .quantified within
  | @app _ _ args results first walks =>
    cases applied' with
    | app _ given _ _ =>
      have given' : results ≠ [] := by
        rintro rfl
        exact given (List.forall₂_nil_right_iff.mp walks)
      rw [apply_stuck (here.ends.isStuck_of_head shallow first) given']
      exact .app first (mapM_eq_some_iff.mpr walks)

theorem Normal.rename (normal : subst.Normal ty) {assignment : Assignment}
    (images : ∀ v, ∃ x, assignment.image v = .var x ∧
      ((subst.cell v).IsNew → (subst.cell x).IsNew)) :
    subst.Normal (ty.substitute assignment) ∧ (ty.substitute assignment).height = ty.height := by
  have heights : ∀ {types : List Ty} {assignment : Assignment},
      (∀ t ∈ types, (t.substitute assignment).height = t.height) →
      Ty.heightAll (types.map (Ty.substitute assignment)) = Ty.heightAll types := by
    intro types assignment each
    induction types with
    | nil => rfl
    | cons t types ih =>
      obtain ⟨first, rest⟩ := List.forall_mem_cons.mp each
      rw [List.map_cons, Ty.heightAll, Ty.heightAll, first, ih rest]
  induction normal generalizing assignment with
  | @var v isNew =>
    obtain ⟨x, image, kept⟩ := images v
    change subst.Normal (assignment.image v) ∧ (assignment.image v).height = _
    rw [image]
    exact ⟨.var (kept isNew), rfl⟩
  | arrow _ _ ihParam ihResult =>
    obtain ⟨fst, height⟩ := ihParam images
    obtain ⟨snd, height'⟩ := ihResult images
    exact ⟨.arrow fst snd, by rw [Ty.substitute, Ty.height, Ty.height, height, height']⟩
  | tuple _ ih =>
    rw [Ty.substitute, Ty.substituteAll_eq_map, Ty.height, Ty.height,
      heights fun t member => (ih t member images).2]
    exact ⟨.tuple (List.forall_mem_map.mpr fun t member => (ih t member images).1), rfl⟩
  | nominal _ ih =>
    rw [Ty.substitute, Ty.substituteAll_eq_map, Ty.height, Ty.height,
      heights fun t member => (ih t member images).2]
    exact ⟨.nominal (List.forall_mem_map.mpr fun t member => (ih t member images).1), rfl⟩
  | @quantified params body _ ih =>
    obtain ⟨inside, height⟩ := @ih (assignment.without params) fun v => by
      rw [Assignment.image_without]
      split
      · exact ⟨v, rfl, id⟩
      · exact images v
    exact ⟨.quantified inside, by rw [Ty.substitute, Ty.height, Ty.height, height]⟩
  | @app head args stuck _ some _ ihHead ih =>
    obtain ⟨fst, height⟩ := ihHead images
    have stuck' : (head.substitute assignment).IsStuck := by
      cases head with
      | var v =>
        obtain ⟨x, image, -⟩ := images v
        change (assignment.image v).IsStuck
        rw [image]
        trivial
      | arrow _ _ | tuple _ | nominal _ _ => trivial
      | quantified _ _ | app _ _ => exact stuck.elim
    rw [Ty.substitute, Ty.substituteAll_eq_map, Ty.height, Ty.height, height,
      heights fun t member => (ih t member images).2]
    exact ⟨.app stuck' fst (by simpa using some) (List.forall_mem_map.mpr fun t member =>
        (ih t member images).1), rfl⟩

end Resolved

section Agreement

def Inside (subst : Subst) (v : TyVar) : Prop := v.index < subst.size

/-- Two types that resolve within a depth to types alike, over variables in use. -/
structure Agree (subst : Subst) (depth : Nat) (pair : Ty × Ty) : Prop where
  applied : pair.1.Applied True ∧ pair.2.Applied True
  resolved : ∃ left right, subst.zonkWithin depth pair.1 = some left ∧
    subst.zonkWithin depth pair.2 = some right ∧
    left.Confined subst.Inside subst.Inside ∧ right.Confined subst.Inside subst.Inside ∧
      left.Alike Eq right

theorem Lengthened.confined (longer : subst.Lengthened after)
    (confined : ty.Confined subst.Inside subst.Inside) : ty.Confined after.Inside after.Inside :=
  confined.mono (fun _ inside => Nat.lt_of_lt_of_le inside longer.size_le)
    fun _ inside => Nat.lt_of_lt_of_le inside longer.size_le

theorem Lengthened.agree (longer : subst.Lengthened after) (ends : subst.LinksEnd) {pair : Ty × Ty}
    (agree : subst.Agree depth pair) : after.Agree depth pair := by
  obtain ⟨applied, left, right, walk, walk', confined, confined', alike⟩ := agree
  refine ⟨applied, left, right, ?_, ?_, longer.confined confined, longer.confined confined', alike⟩
  · rw [longer.zonkWithin ends, walk]
  · rw [longer.zonkWithin ends, walk']

theorem Lengthened.solutions {holds : Ty → Prop} (longer : subst.Lengthened after)
    (solutions : subst.Solutions holds) : after.Solutions holds where
  ends := longer.ends solutions.ends
  solved {v ty} solved := by
    rcases longer.cell_cases v with same | ⟨-, isNew⟩
    · exact solutions.solved (same ▸ solved)
    · rw [solved] at isNew
      exact isNew.elim

theorem zip_of_mapM {f : Ty → Option Ty} {types types' results results' : List Ty}
    (walks : types.mapM f = some results) (walks' : types'.mapM f = some results') :
    ∀ pair ∈ types.zip types', ∃ left right, f pair.1 = some left ∧ f pair.2 = some right ∧
      (left, right) ∈ results.zip results' := by
  rw [mapM_eq_some_iff] at walks walks'
  induction walks generalizing types' results' with
  | nil => exact nofun
  | cons here _ ih =>
    cases walks' with
    | nil => exact nofun
    | cons here' rest =>
      refine List.forall_mem_cons.mpr ⟨⟨_, _, here, here', List.mem_cons_self⟩,
        fun pair member => ?_⟩
      obtain ⟨left, right, found, found', inside⟩ := ih rest pair member
      exact ⟨left, right, found, found', List.mem_cons_of_mem _ inside⟩

theorem agree_opened (here : subst.Solutions (Ty.Applied True)) {ps qs : List TyVar}
    {b c b' c' : Ty}
    (inside : subst.zonkWithin depth b = some b') (inside' : subst.zonkWithin depth c = some c')
    (applied : b.Applied True ∧ c.Applied True)
    (confined : (Ty.quantified ps b').Confined subst.Inside subst.Inside)
    (confined' : (Ty.quantified qs c').Confined subst.Inside subst.Inside)
    (length : ps.length = qs.length)
    (alike : Ty.Alike (Ty.Bound ps qs Eq) b' c') {skolems : List TyVar}
    (opened : subst.pushMany (.rigid none) ps.length = (skolems, after)) :
    after.Agree depth (b'.substitute (.ofLists ps (skolems.map .var)),
      c'.substitute (.ofLists qs (skolems.map .var))) := by
  obtain ⟨longer, many, each⟩ := subst.lengthened_pushMany (Cell.isNew_rigid none) ps.length
  rw [opened] at longer many each
  have hereditary := Ty.hereditary_applied True
  have vars : ∀ t ∈ skolems.map Ty.var, t.Applied True := List.forall_mem_map.mpr fun v _ => .var v
  -- The parameters are in use as well, so a body is a type over the variables in use.
  have body : ∀ {params : List TyVar} {t : Ty},
    (Ty.quantified params t).Confined subst.Inside subst.Inside →
      t.Confined subst.Inside subst.Inside := fun whole =>
    have ⟨binders, inner⟩ := whole.quantified_inv
    inner.imp fun v shown => shown.elim id (binders v)
  have image : ∀ (params : List TyVar) (v : TyVar), ∃ x,
    (Assignment.ofLists params (skolems.map .var)).image v =
      .var x ∧ (x = v ∨ x ∈ skolems) := fun params v => by
    rcases Assignment.image_cases params (skolems.map .var) v with member | ⟨same, -⟩
    · obtain ⟨s, isSkolem, same⟩ := List.mem_map.mp member
      exact ⟨s, same.symm, .inr isSkolem⟩
    · exact ⟨v, same, .inl rfl⟩
  have skolem_isNew : ∀ s ∈ skolems, (after.cell s).IsNew :=
    fun s member => longer.isNew (each s member).1
  have resolved : ∀ (params : List TyVar) {t t' : Ty}, t.Applied True →
    subst.zonkWithin depth t = some t' → t'.Confined subst.Inside subst.Inside →
      after.zonkWithin depth (t'.substitute (.ofLists params (skolems.map .var))) =
          some (t'.substitute (.ofLists params (skolems.map .var))) ∧
        (t'.substitute (.ofLists params (skolems.map .var))).Confined after.Inside
          after.Inside := by
    intro params t t' applied walk confined
    obtain ⟨normal, height⟩ := (longer.normal (here.ends.normal_zonkWithin walk)).rename fun v => by
        obtain ⟨x, same, kind⟩ := image params v
        refine ⟨x, same, fun isNew => ?_⟩
        rcases kind with rfl | member
        · exact isNew
        · exact skolem_isNew x member
    refine ⟨normal.zonkWithin (height ▸ here.ends.height_zonkWithin walk), ?_⟩
    refine (longer.confined confined).substitute fun v known => ?_
    obtain ⟨x, same, kind⟩ := image params v
    rw [same]
    rcases kind with rfl | member
    · exact .var known
    · exact .var (each x member).2
  have left := resolved ps applied.1 inside (body confined)
  have right := resolved qs applied.2 inside' (body confined')
  refine ⟨⟨hereditary.substitute_ofLists (here.zonkWithin hereditary applied.1 inside) vars,
    hereditary.substitute_ofLists (here.zonkWithin hereditary applied.2 inside') vars⟩,
    _, _, left.1, right.1, left.2, right.2, ?_⟩
  exact alike.open (body confined) (body confined') many.symm (length ▸ many.symm)
    fun s member known => Nat.not_lt_of_ge (each s member).1 known

theorem step_agree (here : subst.Solutions (Ty.Applied True)) {pair : Ty × Ty}
    (agree : subst.Agree (depth + 1) pair) :
    ∃ below after, Unify.step (depth + 1) pair subst = .ok below after ∧ subst.Lengthened after ∧
      ∀ part ∈ below, after.Agree depth part := by
  obtain ⟨⟨applied, applied'⟩, left, right, walk, walk', confined, confined', alike⟩ := agree
  obtain ⟨head, shallow, appliedHead, parts⟩ := zonkWithin_parts here applied walk
  obtain ⟨head', shallow', appliedHead', parts'⟩ := zonkWithin_parts here applied' walk'
  have below := (Ty.hereditary_applied True).children appliedHead
  have below' := (Ty.hereditary_applied True).children appliedHead'
  have zipped : ∀ {types types' results results' : List Ty},
      types.mapM (subst.zonkWithin depth) = some results → types'.mapM (subst.zonkWithin depth) =
      some results' →
      (∀ t ∈ types, t.Applied True) → (∀ t ∈ types', t.Applied True) →
      (∀ t ∈ results, t.Confined subst.Inside subst.Inside) →
      (∀ t ∈ results', t.Confined subst.Inside subst.Inside) →
      (∀ pair ∈ results.zip results', Ty.Alike Eq pair.1 pair.2) →
      ∀ part ∈ types.zip types', subst.Agree depth part := by
    intro types types' results results' walks walks' given given' inside inside' same part member
    obtain ⟨l, r, found, found', both⟩ := zip_of_mapM walks walks' part member
    exact ⟨⟨given _ (List.of_mem_zip member).1, given' _ (List.of_mem_zip member).2⟩, l, r,
      found, found',
      inside l (List.of_mem_zip both).1, inside' r (List.of_mem_zip both).2, same _ both⟩
  simp only [Unify.step, bind_apply, get_apply, shallow, shallow', Unify.finished, pure_apply]
  cases parts with
  | var v =>
    cases alike with
    | var same =>
      subst same
      cases parts' with
      | var _ =>
        refine ⟨[], subst, ?_, subst.lengthened_refl, List.forall_mem_nil _⟩
        simp [Unify.vars, bind_apply, pure_apply]
  | arrow fst snd =>
    cases alike with
    | arrow same same' =>
      cases parts' with
      | arrow fst' snd' =>
        refine ⟨_, subst, rfl, subst.lengthened_refl,
          List.forall_mem_cons.mpr ⟨?_, List.forall_mem_singleton.mpr ?_⟩⟩
        · exact ⟨⟨below _ (by simp [Ty.children]), below' _ (by simp [Ty.children])⟩, _,
            _, fst, fst', confined.arrow_inv.1, confined'.arrow_inv.1, same⟩
        · exact ⟨⟨below _ (by simp [Ty.children]), below' _ (by simp [Ty.children])⟩, _,
            _, snd, snd', confined.arrow_inv.2, confined'.arrow_inv.2, same'⟩
  | tuple each =>
    cases alike with
    | tuple length same =>
      cases parts' with
      | tuple each' =>
        have lengths :=
          ((mapM_eq_some_iff.mp each).length_eq.trans length).trans
            (mapM_eq_some_iff.mp each').length_eq.symm
        simp only [if_pos lengths]
        exact ⟨_, subst, rfl, subst.lengthened_refl,
          zipped each each' below below' confined.tuple_inv confined'.tuple_inv same⟩
  | nominal each =>
    cases alike with
    | nominal length same =>
      cases parts' with
      | nominal each' =>
        have lengths :=
          ((mapM_eq_some_iff.mp each).length_eq.trans length).trans
            (mapM_eq_some_iff.mp each').length_eq.symm
        simp only [lengths, and_self, if_true]
        exact ⟨_, subst, rfl, subst.lengthened_refl,
          zipped each each' below below' confined.nominal_inv confined'.nominal_inv same⟩
  | @quantified ps b b' inside =>
    cases alike with
    | quantified length same =>
      cases parts' with
      | quantified inside' =>
        simp only [if_pos length]
        cases opened : subst.pushMany (.rigid none) ps.length with
        | mk skolems after =>
          obtain ⟨longer, -⟩ := subst.lengthened_pushMany (Cell.isNew_rigid none) ps.length
          rw [opened] at longer
          have zonk :=
            (longer.zonkWithin here.ends (depth + 1) _).trans
              (zonkWithin_mono (Nat.le_succ _) inside)
          have zonk' :=
            (longer.zonkWithin here.ends (depth + 1) _).trans
              (zonkWithin_mono (Nat.le_succ _) inside')
          refine ⟨_, after, ?_, longer,
            List.forall_mem_singleton.mpr (agree_opened here inside inside'
            ⟨below _ (by simp [Ty.children]), below' _ (by simp [Ty.children])⟩ confined
              confined' length same
            opened)⟩
          have made : Unify.skolems ps.length subst = .ok skolems after := by
            change EStateM.Result.ok (subst.pushMany (.rigid none) ps.length).1
              (subst.pushMany (.rigid none) ps.length).2 = _
            rw [opened]
          simp [bind_apply, get_apply, pure_apply, made, zonk, zonk']
  | app fst each =>
    cases alike with
    | app same length same' =>
      cases parts' with
      | app fst' each' =>
        have lengths :=
          ((mapM_eq_some_iff.mp each).length_eq.trans length).trans
            (mapM_eq_some_iff.mp each').length_eq.symm
        obtain ⟨appliedFst, others⟩ := List.forall_mem_cons.mp below
        obtain ⟨appliedFst', others'⟩ := List.forall_mem_cons.mp below'
        refine ⟨_, subst, rfl, subst.lengthened_refl, ?_⟩
        simp only [Unify.splitApps, lengths, Nat.sub_self, if_true]
        exact List.forall_mem_cons.mpr
          ⟨⟨⟨appliedFst, appliedFst'⟩, _, _, fst, fst', confined.app_inv.1,
          confined'.app_inv.1, same⟩, zipped each each' others others' confined.app_inv.2
            confined'.app_inv.2 same'⟩

theorem descend_agree (here : subst.Solutions (Ty.Applied True)) {pair : Ty × Ty}
    (agree : subst.Agree depth pair) :
    ∃ after, Agenda.descend (throw .exhausted) Unify.step depth pair subst = .ok () after ∧
      subst.Lengthened after := by
  induction depth generalizing subst pair with
  | zero =>
    obtain ⟨-, left, _, walk, -⟩ := agree
    simp [Subst.zonkWithin] at walk
  | succ depth ih =>
    have forM_agree : ∀ (below : List (Ty × Ty)) {middle : Subst},
      middle.Solutions (Ty.Applied True) → (∀ part ∈ below, middle.Agree depth part) →
        ∃ after, forM below (Agenda.descend (throw .exhausted) Unify.step depth) middle =
        .ok () after ∧ middle.Lengthened after := by
      intro below
      induction below with
      | nil => exact fun {middle} _ _ => ⟨middle, rfl, middle.lengthened_refl⟩
      | cons part below ihBelow =>
        intro middle there each
        obtain ⟨first, rest⟩ := List.forall_mem_cons.mp each
        obtain ⟨next, run, longer⟩ := ih there first
        obtain ⟨after, run', longer'⟩ := ihBelow (longer.solutions there)
          fun other member => longer.agree there.ends (rest other member)
        exact ⟨after, by rw [List.forM_cons, bind_apply, run]; exact run', longer.trans longer'⟩
    obtain ⟨below, middle, run, longer, each⟩ := step_agree here agree
    obtain ⟨after, run', longer'⟩ := forM_agree below (longer.solutions here) each
    exact ⟨after, by rw [Agenda.descend, bind_apply, run]; exact run', longer.trans longer'⟩

end Agreement

section Repetition

variable {arity? : TemplateId → Option Nat} {left right : Ty}

/-- A type over variables in use and definitions with as many arguments as they take, in which every
application has arguments. -/
structure Written (arity? : TemplateId → Option Nat) (subst : Subst) (ty : Ty) : Prop where
  fits : ty.Fits ⟨subst.size, arity?⟩
  applied : ty.Applied True

/-- Cells made by new variables and by unifications, successful or not. -/
inductive Made (arity? : TemplateId → Option Nat) : Subst → Prop where
  | empty : Made arity? .empty
  | fresh {subst : Subst} (before : Made arity? subst) : Made arity? subst.fresh.2
  | freshRigid {subst : Subst} (before : Made arity? subst) (name : Name) :
      Made arity? (subst.freshRigid name).2
  | freshSkolem {subst : Subst} (before : Made arity? subst) : Made arity? subst.freshSkolem.2
  | unify {subst after : Subst} (before : Made arity? subst) {left right : Ty}
      (written : subst.Written arity? left)
    (written' : subst.Written arity? right) (result : Subst.unify left right subst = .ok () after ∨
      ∃ error, Subst.unify left right subst = .error error after) : Made arity? after

theorem fits_empty (arity? : TemplateId → Option Nat) : empty.Fits ⟨0, arity?⟩ where
  size := rfl
  cell v := by
    rw [show empty.cell v = .unbound from cell_of_size_le (Nat.zero_le _)]
    exact Cell.isNew_unbound.fits

theorem Written.unify (written : subst.Written arity? left) (written' : subst.Written arity? right)
    (fits : subst.Fits ⟨subst.size, arity?⟩) (solutions : subst.Solutions (Ty.Applied True))
    (result : Subst.unify left right subst = .ok () after ∨
      ∃ error, Subst.unify left right subst = .error error after) :
    after.Fits ⟨after.size, arity?⟩ ∧ after.Solutions (Ty.Applied True) ∧
      subst.size ≤ after.size := by
  have stays := @Subst.stays_unify _ arity? left right written.fits written'.fits
  have stays' := Subst.stays_unify_hereditary (Ty.hereditary_applied True) written.applied
    written'.applied
  have shaped : ∀ {shape : Shape}, ⟨subst.size, arity?⟩ ≤ shape → after.FitsAmong arity? shape →
      after.Fits ⟨after.size, arity?⟩ ∧ subst.size ≤ after.size := by
    intro shape grown there
    obtain ⟨cells, arities⟩ := shape
    obtain rfl : arities = arity? := there.same
    obtain rfl : after.size = cells := there.size
    exact ⟨there.toFits, grown.1⟩
  rcases result with run | ⟨error, run⟩
  · obtain ⟨shape, grown, there, -⟩ := stays.ok ⟨fits, rfl⟩ run
    obtain ⟨_, _, there', -⟩ := stays'.ok solutions run
    exact ⟨(shaped grown there).1, there', (shaped grown there).2⟩
  · obtain ⟨shape, grown, there⟩ := stays.error trivial ⟨fits, rfl⟩ run
    obtain ⟨_, _, there'⟩ := stays'.error trivial solutions run
    exact ⟨(shaped grown there).1, there', (shaped grown there).2⟩

theorem Made.sound (made : subst.Made arity?) :
    subst.Fits ⟨subst.size, arity?⟩ ∧ subst.Solutions (Ty.Applied True) := by
  have pushed : ∀ {subst : Subst} {cell : Cell}, cell.IsNew →
      subst.Fits ⟨subst.size, arity?⟩ ∧ subst.Solutions (Ty.Applied True) →
      (subst.push cell).2.Fits ⟨(subst.push cell).2.size, arity?⟩ ∧
        (subst.push cell).2.Solutions (Ty.Applied True) := by
    intro subst cell isNew sound
    refine ⟨?_, sound.2.push isNew⟩
    rw [size_push]
    exact sound.1.push isNew
  induction made with
  | empty => exact ⟨fits_empty arity?, .empty⟩
  | fresh _ ih => exact pushed Cell.isNew_unbound ih
  | freshRigid _ name ih => exact pushed (Cell.isNew_rigid _) ih
  | freshSkolem _ ih => exact pushed (Cell.isNew_rigid _) ih
  | unify _ written written' result ih =>
    obtain ⟨fits, solutions, -⟩ := written.unify written' ih.1 ih.2 result
    exact ⟨fits, solutions⟩

structure Equates (subst : Subst) (left right : Ty) : Prop where
  ends : subst.zonkWithin (subst.depthBound left.size) left ≠ none
  ends' : subst.zonkWithin (subst.depthBound right.size) right ≠ none
  alike : (subst.zonk left).Alike Eq (subst.zonk right)

/-- Unification succeeds and does nothing to the variables there are. -/
def Repeats (subst : Subst) (left right : Ty) : Prop :=
  ∃ after, Subst.unify left right subst = .ok () after ∧ ∀ v : TyVar, v.index < subst.size →
    after.cell v = subst.cell v

theorem Equates.swap (equates : subst.Equates left right) : subst.Equates right left where
  ends := equates.ends'
  ends' := equates.ends
  alike := equates.alike.swap.mono fun _ _ => Eq.symm

theorem confined_of_fits {shape : Shape} (fits : ty.Fits shape) :
    ty.Confined (fun v => v.index < shape.cells) (fun v => v.index < shape.cells) := by
  induction fits with
  | var inside => exact .var inside
  | arrow _ _ ihParam ihResult => exact .arrow ihParam ihResult
  | tuple _ ih => exact .tuple ih
  | nominal _ _ ih => exact .nominal ih
  | quantified binders _ ih => exact .quantified binders (ih.imp fun _ => .inl)
  | app _ _ ihHead ih => exact .app ihHead ih

theorem Equates.repeats (equates : subst.Equates left right)
    (fits : subst.Fits ⟨subst.size, arity?⟩)
    (solutions : subst.Solutions (Ty.Applied True)) (written : subst.Written arity? left)
    (written' : subst.Written arity? right) : subst.Repeats left right := by
  have deeper : ∀ {size size' : Nat}, size ≤ size' → subst.depthBound size ≤
      subst.depthBound size' := fun le =>
    Nat.add_le_add_left (Nat.mul_le_mul_left _ (by omega)) _
  have walked : ∀ {ty : Ty} {size : Nat}, subst.zonkWithin (subst.depthBound ty.size) ty ≠ none →
    ty.size ≤ size → subst.zonkWithin (subst.depthBound size) ty = some (subst.zonk ty) := by
    intro ty size ends le
    obtain ⟨result, walk⟩ := Option.ne_none_iff_exists'.mp ends
    rw [zonk, zonk?, walk, zonkWithin_mono (deeper le) walk]
    rfl
  have agree : subst.Agree (subst.depthBound (left.size + right.size)) (left, right) :=
    ⟨⟨written.applied, written'.applied⟩, _, _, walked equates.ends (Nat.le_add_right _ _),
      walked equates.ends' (Nat.le_add_left _ _), confined_of_fits (fits.zonk written.fits),
      confined_of_fits (fits.zonk written'.fits), equates.alike⟩
  obtain ⟨after, run, longer⟩ := descend_agree solutions agree
  refine ⟨after, ?_, fun v => longer.cells⟩
  rw [Subst.unify, bind_apply, get_apply]
  simpa only [Unify.within, Agenda.walk_singleton] using run

/-- After a unification that succeeds, first-order types resolve to the same type. Whenever two
types, of any kind, resolve to types alike, unifying them again, in either order, succeeds and
solves and links nothing. -/
theorem unify_again (made : subst.Made arity?) (written : subst.Written arity? left)
    (written' : subst.Written arity? right) (run : Subst.unify left right subst = .ok () after) :
    (subst.Reachable → left.FirstOrder subst.size → right.FirstOrder subst.size →
      after.Equates left right) ∧
      (after.Equates left right → after.Repeats left right ∧ after.Repeats right left) := by
  obtain ⟨fits, solutions⟩ := made.sound
  obtain ⟨fits', solutions', le⟩ := written.unify written' fits solutions (.inl run)
  have later : ∀ {ty : Ty}, subst.Written arity? ty → after.Written arity? ty := fun before =>
    ⟨before.fits.grow ⟨le, fun _ _ => id⟩, before.applied⟩
  refine ⟨fun reachable plain plain' => ?_, fun equates => ?_⟩
  · have unified := reachable.tame.unified_of_unify plain plain' run
    have resolved : ∀ {ty : Ty}, ty.FirstOrder subst.size →
        after.zonkWithin (after.depthBound ty.size) ty ≠ none := fun {ty} plain => by
      rw [unified.tame.zonkWithin_eq (unified.size ▸ plain) _
        (after.height_bound_lt_depthBound ty.size)]
      simp
    refine ⟨resolved plain, resolved plain', ?_⟩
    have equal := unified.equal (left, right) (List.mem_singleton_self _)
    exact (show after.zonk left = after.zonk right from equal) ▸ .refl fun _ => rfl
  · exact ⟨equates.repeats fits' solutions' (later written) (later written'),
      equates.swap.repeats fits' solutions' (later written') (later written)⟩

def flexibleAndTwoRigid : Subst := (((empty.fresh.2).freshRigid "a").2.freshRigid "b").2

theorem made_flexibleAndTwoRigid : flexibleAndTwoRigid.Made arity? :=
  .freshRigid (.freshRigid (.fresh .empty) _) _

/-- Functions from a type to any type. -/
def intoAny (param : TyVar) (source : Ty) : Ty := .quantified [param] (.arrow source (.var param))

theorem written_intoAny {param : TyVar} {source : Ty} (inside : param.index < 3)
    (written : flexibleAndTwoRigid.Written arity? source) :
    flexibleAndTwoRigid.Written arity? (intoAny param source) where
  fits := .quantified (List.forall_mem_singleton.mpr inside) (.arrow written.fits (.var inside))
  applied := .quantified (.arrow written.applied (.var _))

/-- The variable becomes a definition without arguments, and stays it. -/
theorem unify_intoAny_again :
    ∃ after, Subst.unify (intoAny ⟨1⟩ (.var ⟨0⟩)) (intoAny ⟨2⟩ (.named ⟨0⟩)) flexibleAndTwoRigid =
      .ok () after ∧ after.Repeats (intoAny ⟨1⟩ (.var ⟨0⟩)) (intoAny ⟨2⟩ (.named ⟨0⟩)) := by
  have shown : gives (fun _ after => decide
      (after.zonkWithin (after.depthBound (intoAny ⟨1⟩ (.var ⟨0⟩)).size) (intoAny ⟨1⟩ (.var ⟨0⟩)) =
          some (intoAny ⟨1⟩ (.named ⟨0⟩)) ∧
        after.zonkWithin (after.depthBound (intoAny ⟨2⟩ (.named ⟨0⟩)).size)
          (intoAny ⟨2⟩ (.named ⟨0⟩)) = some (intoAny ⟨2⟩ (.named ⟨0⟩))))
      (Subst.unify (intoAny ⟨1⟩ (.var ⟨0⟩)) (intoAny ⟨2⟩ (.named ⟨0⟩)) flexibleAndTwoRigid) =
        true := by
    cbv
  obtain ⟨_, after, run, resolved⟩ := exists_of_gives shown
  obtain ⟨walk, walk'⟩ := of_decide_eq_true resolved
  have written : flexibleAndTwoRigid.Written (fun _ => some 0) (intoAny ⟨1⟩ (.var ⟨0⟩)) :=
    written_intoAny (by decide) ⟨.var (by decide), .var _⟩
  have written' : flexibleAndTwoRigid.Written (fun _ => some 0) (intoAny ⟨2⟩ (.named ⟨0⟩)) :=
    written_intoAny (by decide) ⟨.nominal rfl (List.forall_mem_nil _),
      .nominal (List.forall_mem_nil _)⟩
  refine ⟨after, run,
    ((unify_again made_flexibleAndTwoRigid written written' run).2 ⟨?_, ?_, ?_⟩).1⟩
  · exact walk ▸ Option.some_ne_none _
  · exact walk' ▸ Option.some_ne_none _
  · rw [zonk, zonk, zonk?, zonk?, walk, walk']
    exact .quantified rfl (.arrow (.nominal rfl (List.forall_mem_nil _)) (.var (.inl (by decide))))

/-- The variable is linked to the skolem at which both types are opened. -/
theorem skolem_becomes_solution : ¬ ∀ {arity? : TemplateId → Option Nat} {subst after : Subst}
    {left right : Ty}, subst.Made arity? → subst.Written arity? left → subst.Written arity? right →
    Subst.unify left right subst = .ok () after → after.Equates left right ∧
      after.Repeats left right := by
  intro again
  have shown : gives (fun _ after => !gives (fun _ _ => true)
      (Subst.unify (intoAny ⟨1⟩ (.var ⟨0⟩)) (intoAny ⟨2⟩ (.var ⟨2⟩)) after))
      (Subst.unify (intoAny ⟨1⟩ (.var ⟨0⟩)) (intoAny ⟨2⟩ (.var ⟨2⟩)) flexibleAndTwoRigid) =
        true := by
    cbv
  obtain ⟨_, after, run, refused⟩ := exists_of_gives shown
  have written : ∀ {param source : TyVar}, param.index < 3 → source.index < 3 →
      flexibleAndTwoRigid.Written (fun _ => none) (intoAny param (.var source)) :=
    fun inside inside' => written_intoAny inside ⟨.var inside', .var _⟩
  obtain ⟨-, later, run', -⟩ := again made_flexibleAndTwoRigid (written (by decide) (by decide))
    (written (by decide) (by decide)) run
  simp [run', gives] at refused

end Repetition

end PolyCheck.Subst
