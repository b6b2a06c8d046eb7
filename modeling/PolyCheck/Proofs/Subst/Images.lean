import PolyCheck.Proofs.Subst.Sparing
import PolyCheck.Proofs.Surface.Typing

/-! Images of all variables at once, as a typing chooses them. Cells allow images if every variable
has the image of what it is solved to. New variables may be given any images, and a unification of
types with the same image succeeds and loses none of them. -/
namespace PolyCheck

theorem Assignment.image_map {vars : List TyVar} {v : TyVar} (member : v ∈ vars)
    (images : TyVar → Ty) : (Assignment.ofLists vars (vars.map images)).image v = images v := by
  have found : ∀ {entries : List TyVar}, v ∈ entries →
      (entries.map fun w => (w, images w)).lookup v = some (images v) := by
    intro entries inside
    induction entries with
    | nil => cases inside
    | cons w entries ih =>
      by_cases same : v = w
      · simp [same]
      · simp [List.lookup, beq_false_of_ne same, ih ((List.mem_cons.mp inside).resolve_left same)]
  have pairs : vars.zip (vars.map images) = vars.map fun w => (w, images w) :=
    List.map_prod_left_eq_zip.symm
  rw [image, ofLists, pairs, ← List.map_reverse, found (List.mem_reverse.mpr member),
    Option.getD_some]

namespace Subst

variable {subst after : Subst} {images images' : TyVar → Ty} {ty : Ty}

structure Allows (subst : Subst) (images : TyVar → Ty) : Prop where
  rigid : ∀ {v : TyVar} {name : Option Name}, subst.cell v = .rigid name → images v = .var v
  solved : ∀ {v : TyVar}, v.index < subst.size → (subst.zonk (.var v)).under images = images v

theorem Allows.under (allows : subst.Allows images) (tame : subst.Tame)
    (plain : ty.FirstOrder subst.size) : (subst.zonk ty).under images = ty.under images := by
  rw [tame.zonk_eq_under plain, plain.under_under]
  exact plain.under_congr fun v inLeaves => allows.solved (plain.inside v inLeaves)

theorem Tame.allows_zonk (tame : subst.Tame) : subst.Allows fun v => subst.zonk (.var v) where
  rigid {v name} cell := by
    refine tame.zonk_var_of_unsolved ⟨inside_of_cell cell (by simp), ?_, by simp [cell]⟩
    exact root_of_not_link (by simp [cell])
  solved inside := by
    rw [← tame.zonk_eq_under (tame.zonk_firstOrder (.var inside)), tame.zonk_zonk (.var inside)]

theorem Allows.grown (allows : subst.Allows images) (tame : subst.Tame)
    (grown : subst.Grown after) (unbound : ∀ v, subst.size ≤ v.index → after.cell v = .unbound)
    (same : ∀ v, v.index < subst.size → images' v = images v) : after.Allows images' where
  rigid {v name} cell := by
    by_cases old : v.index < subst.size
    · rw [same v old]
      exact allows.rigid ((grown.cells old).symm.trans cell)
    · simp [unbound v (Nat.le_of_not_lt old)] at cell
  solved {v} inside := by
    by_cases old : v.index < subst.size
    · have resolved := tame.zonk_firstOrder (.var old)
      rw [grown.zonk tame (.var old), same v old, ← allows.solved old]
      exact resolved.under_congr fun w inLeaves => same w (resolved.inside w inLeaves)
    · have cell := unbound v (Nat.le_of_not_lt old)
      have unsolved : after.Unsolved v :=
        ⟨inside, root_of_not_link (by simp [cell]), by simp [cell]⟩
      rw [grown.tame.zonk_var_of_unsolved unsolved, Ty.under]

theorem Allows.push (allows : subst.Allows images) (tame : subst.Tame)
    (same : ∀ v, v.index < subst.size → images' v = images v) :
    (subst.push .unbound).2.Allows images' := by
  refine allows.grown tame (tame.grown_push (.inl rfl)) (fun v outside => ?_) same
  rw [cell_push]
  split
  · rfl
  · exact cell_of_size_le outside

theorem Tame.pushMany_unbound (tame : subst.Tame) (count : Nat) :
    (subst.pushMany .unbound count).1 = (List.range' subst.size count).map .mk ∧
      ∀ v, subst.size ≤ v.index → (subst.pushMany .unbound count).2.cell v = .unbound := by
  induction count generalizing subst with
  | zero => exact ⟨rfl, fun v outside => cell_of_size_le outside⟩
  | succ count ih =>
    have grown := tame.grown_push (.inl rfl)
    obtain ⟨vars, unbound⟩ := ih grown.tame
    rw [size_push] at vars unbound
    refine ⟨congrArg (List.cons _) vars, fun v outside => ?_⟩
    rcases Nat.eq_or_lt_of_le outside with last | later
    · have inside : v.index < (subst.push .unbound).2.size := by
        rw [size_push]
        omega
      rw [Subst.pushMany, (grown.tame.pushMany count).1.cells inside, cell_push, if_pos last.symm]
    · exact unbound v later

theorem Allows.unify (allows : subst.Allows images) (tame : subst.Tame) {left right : Ty}
    (plain : left.FirstOrder subst.size) (plain' : right.FirstOrder subst.size)
    (equal : left.under images = right.under images) :
    ∃ after, Subst.unify left right subst = .ok () after ∧ after.Allows images := by
  have solver : subst.Solver [(left, right)] images := by
    refine ⟨allows.rigid, fun pair member => ?_⟩
    rw [List.mem_singleton.mp member, allows.under tame plain, allows.under tame plain', equal]
  obtain ⟨after, result⟩ := (tame.unify_ok_iff plain plain').mpr ⟨images, solver⟩
  have unified := tame.unified_of_unify plain plain' result
  refine ⟨after, result, fun {v name} cell => ?_, fun {v} inside => ?_⟩
  · have inside : v.index < subst.size := unified.size ▸ inside_of_cell cell (by simp)
    exact allows.rigid ((unified.later.rigid inside).mp cell)
  · rw [unified.size] at inside
    rw [unified.general solver (.var inside), allows.solved inside]

theorem Allows.instantiate (allows : subst.Allows images) (tame : subst.Tame) {scheme : Scheme}
    (plain : scheme.ty.FirstOrder subst.size)
    (isInstance : (scheme.zonk subst).InstanceAt images ty) :
    ∃ images', (scheme.instantiate subst).2.Allows images' ∧
      (∀ v, v.index < subst.size → images' v = images v) ∧
      (scheme.instantiate subst).1.under images' = ty := by
  have resolved := tame.zonk_firstOrder plain
  obtain ⟨chosen, others, rfl⟩ := isInstance
  rw [Scheme.instantiate]
  cases vars : scheme.vars with
  | nil =>
    refine ⟨images, allows, fun _ _ => rfl, resolved.under_congr fun v _ => (others v ?_).symm⟩
    simp [Scheme.zonk, vars]
  | cons first rest =>
    rw [← vars]
    have notEmpty : scheme.vars.isEmpty = false := by simp [vars]
    obtain ⟨grown, length, -⟩ := tame.pushMany scheme.vars.length
    obtain ⟨fresh, unbound⟩ := tame.pushMany_unbound scheme.vars.length
    let images' : TyVar → Ty := fun v =>
      if v.index < subst.size then images v
      else (scheme.vars[v.index - subst.size]?.map chosen).getD (.var v)
    have same : ∀ v, v.index < subst.size → images' v = images v := fun v inside => if_pos inside
    have new : (subst.pushMany .unbound scheme.vars.length).1.map images' =
        scheme.vars.map chosen := by
      rw [fresh, List.map_map]
      refine List.ext_getElem (by simp) fun index inside inside' => ?_
      rw [List.length_map] at inside'
      simp [images', inside']
    refine ⟨images', ?_, same, ?_⟩
    · simp only [notEmpty, Bool.false_eq_true, if_false]
      exact allows.grown tame grown unbound same
    · simp only [notEmpty, Bool.false_eq_true, if_false]
      rw [resolved.substitute_eq, resolved.under_under]
      refine resolved.under_congr fun v inLeaves => ?_
      by_cases quantified : v ∈ scheme.vars
      · have lengths : ((subst.pushMany .unbound scheme.vars.length).1.map Ty.var).length =
            scheme.vars.length := by rw [List.length_map, length]
        rw [← (Assignment.image_of_mem quantified lengths).2 (·.under images'), List.map_map]
        change (Assignment.ofLists scheme.vars
          ((subst.pushMany .unbound scheme.vars.length).1.map images')).image v = chosen v
        rw [new, Assignment.image_map quantified]
      · rw [Assignment.image_of_not_mem quantified, Ty.under, same v (resolved.inside v inLeaves),
          others v quantified]

/-- An instance stays one while the quantified variables are spared. -/
theorem Allows.instance_later (allows : after.Allows images') (tame : subst.Tame)
    (tame' : after.Tame)
    (later : subst.Extends after) (same : ∀ v, v.index < subst.size → images' v = images v)
    {scheme : Scheme} (plain : scheme.ty.FirstOrder subst.size)
    (spares : ∀ v ∈ scheme.vars, Spares v subst after)
    (isInstance : (scheme.zonk subst).InstanceAt images ty) :
    (scheme.zonk after).InstanceAt images' ty := by
  classical
  obtain ⟨chosen, others, rfl⟩ := isInstance
  have resolved := tame.zonk_firstOrder plain
  refine ⟨fun v => if v ∈ scheme.vars then chosen v else images' v, fun v free => if_neg free, ?_⟩
  rw [Scheme.zonk, Scheme.zonk, ← later.resolved plain,
    tame'.zonk_eq_under (resolved.mono later.size_le), resolved.under_under]
  refine resolved.under_congr fun v inLeaves => ?_
  have unsolved := tame.unsolved_of_mem plain inLeaves
  by_cases quantified : v ∈ scheme.vars
  · have still := unsolved.of_cell tame later.size_le (spares v quantified).cell
    rw [tame'.zonk_var_of_unsolved still, Ty.under, if_pos quantified]
  · have inside := Nat.lt_of_lt_of_le unsolved.1 later.size_le
    have apart : ∀ w ∈ (after.zonk (.var v)).leaves, w ∉ scheme.vars := by
      intro w inAfter inVars
      refine (spares w inVars).avoids (.var unsolved.1) (fun inBefore => ?_) inAfter
      rw [tame.zonk_var_of_unsolved unsolved, Ty.leaves, List.mem_singleton] at inBefore
      exact quantified (inBefore ▸ inVars)
    rw [(tame'.zonk_firstOrder (.var inside)).under_congr fun w inAfter => if_neg (apart w inAfter),
      allows.solved inside, same v unsolved.1, others v quantified]

end Subst

end PolyCheck
