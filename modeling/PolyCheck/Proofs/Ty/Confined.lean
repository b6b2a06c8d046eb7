import PolyCheck.Proofs.Template

/-! The variables of types with quantifiers. A variable is free in a type unless a quantifier around
it binds it. Putting types in place of variables brings in no variable that is free in none of them,
and the parameters of quantifiers stay what they are, although names are not changed to keep the two
apart. -/
namespace PolyCheck

/-- The entry of a variable, if there is one; otherwise the variable has no type to be replaced
by. -/
theorem Assignment.image_cases (vars : List TyVar) (types : List Ty) (v : TyVar) :
    (Assignment.ofLists vars types).image v ∈ types ∨
      (Assignment.ofLists vars types).image v = .var v ∧ v ∉ vars.take types.length := by
  cases found : (Assignment.ofLists vars types).lookup v with
  | some ty =>
    obtain ⟨first, rest, split, -⟩ := List.lookup_eq_some_iff.mp found
    have entry : (v, ty) ∈ Assignment.ofLists vars types := by
      rw [split]
      simp
    rw [image, found, Option.getD_some]
    exact .inl (List.of_mem_zip (List.mem_reverse.mp entry)).2
  | none =>
    rw [image, found, Option.getD_none]
    refine .inr ⟨rfl, fun member => ?_⟩
    obtain ⟨index, inside, rfl⟩ := List.getElem_of_mem member
    rw [List.getElem_take] at found
    rw [List.length_take] at inside
    have entry : (vars[index], types[index]) ∈ vars.zip types := by
      refine List.mem_iff_getElem.mpr ⟨index, ?_, List.getElem_zip⟩
      rw [List.length_zip]
      omega
    have absent := List.lookup_eq_none_iff.mp found _ (List.mem_reverse.mpr entry)
    simp at absent

theorem Assignment.image_without (assignment : Assignment) (vars : List TyVar) (v : TyVar) :
    (assignment.without vars).image v = if v ∈ vars then .var v else assignment.image v := by
  rw [without, image, image]
  induction assignment with
  | nil => simp
  | cons entry rest ih =>
    obtain ⟨w, ty⟩ := entry
    by_cases hidden : w ∈ vars
    · rw [List.filter_cons_of_neg (by simpa using hidden), ih]
      by_cases inside : v ∈ vars
      · simp only [if_pos inside]
      · have different : v ≠ w := fun same => inside (same ▸ hidden)
        simp only [if_neg inside, List.lookup_cons, beq_false_of_ne different]
    · rw [List.filter_cons_of_pos (by simpa using hidden), List.lookup_cons]
      by_cases same : v = w
      · subst same
        simp [hidden]
      · simp only [beq_false_of_ne same, ih, List.lookup_cons]

namespace Ty

/-- Every variable that is free in the type is one of the first kind, and every parameter of a
quantifier in it one of the second kind. -/
inductive Confined (binder : TyVar → Prop) : (TyVar → Prop) → Ty → Prop where
  | var {free : TyVar → Prop} {v : TyVar} (holds : free v) : Confined binder free (.var v)
  | arrow {free : TyVar → Prop} {param result : Ty} (fst : Confined binder free param)
    (snd : Confined binder free result) : Confined binder free (.arrow param result)
  | tuple {free : TyVar → Prop} {elems : List Ty} (each : ∀ t ∈ elems, Confined binder free t) :
    Confined binder free (.tuple elems)
  | nominal {free : TyVar → Prop} {template : TemplateId} {args : List Ty}
    (each : ∀ t ∈ args, Confined binder free t) : Confined binder free (.nominal template args)
  | quantified {free : TyVar → Prop} {params : List TyVar} {body : Ty}
    (binders : ∀ p ∈ params, binder p)
      (inside : Confined binder (fun v => free v ∨ v ∈ params) body) :
    Confined binder free (.quantified params body)
  | app {free : TyVar → Prop} {head : Ty} {args : List Ty} (fst : Confined binder free head)
    (each : ∀ t ∈ args, Confined binder free t) : Confined binder free (.app head args)

variable {binder binder' free free' : TyVar → Prop} {ty head : Ty} {args : List Ty}

theorem Confined.mono (confined : ty.Confined binder free) (binders : ∀ v, binder v → binder' v)
    (frees : ∀ v, free v → free' v) : ty.Confined binder' free' := by
  induction confined generalizing free' with
  | var holds => exact .var (frees _ holds)
  | arrow _ _ ihParam ihResult => exact .arrow (ihParam frees) (ihResult frees)
  | tuple _ ih => exact .tuple fun t member => ih t member frees
  | nominal _ ih => exact .nominal fun t member => ih t member frees
  | quantified params _ ih =>
    exact .quantified (fun p member => binders p (params p member))
      (ih fun v => Or.imp_left (frees v))
  | app _ _ ihHead ih => exact .app (ihHead frees) fun t member => ih t member frees

theorem Confined.imp (confined : ty.Confined binder free) (frees : ∀ v, free v → free' v) :
    ty.Confined binder free' :=
  confined.mono (fun _ => id) frees

theorem Confined.and (confined : ty.Confined binder free) (confined' : ty.Confined binder' free') :
    ty.Confined (fun v => binder v ∧ binder' v) fun v => free v ∧ free' v := by
  induction confined generalizing free' with
  | var holds =>
    cases confined' with
    | var holds' => exact .var ⟨holds, holds'⟩
  | arrow _ _ ihParam ihResult =>
    cases confined' with
    | arrow fst snd => exact .arrow (ihParam fst) (ihResult snd)
  | tuple _ ih =>
    cases confined' with
    | tuple each => exact .tuple fun t member => ih t member (each t member)
  | nominal _ ih =>
    cases confined' with
    | nominal each => exact .nominal fun t member => ih t member (each t member)
  | @quantified _ params _ binders _ ih =>
    cases confined' with
    | quantified binders' inside =>
      refine .quantified (fun p member => ⟨binders p member, binders' p member⟩)
        ((ih inside).imp fun v both => ?_)
      by_cases inner : v ∈ params
      · exact .inr inner
      · exact .inl ⟨both.1.resolve_right inner, both.2.resolve_right inner⟩
  | app _ _ ihHead ih =>
    cases confined' with
    | app fst each => exact .app (ihHead fst) fun t member => ih t member (each t member)

theorem Confined.arrow_inv {param result : Ty}
    (confined : Confined binder free (.arrow param result)) :
    param.Confined binder free ∧ result.Confined binder free := by
  cases confined with
  | arrow fst snd => exact ⟨fst, snd⟩

theorem Confined.tuple_inv {elems : List Ty} (confined : Confined binder free (.tuple elems)) :
    ∀ t ∈ elems, t.Confined binder free := by
  cases confined with
  | tuple each => exact each

theorem Confined.nominal_inv {template : TemplateId}
    (confined : Confined binder free (.nominal template args)) :
    ∀ t ∈ args, t.Confined binder free := by
  cases confined with
  | nominal each => exact each

theorem Confined.quantified_inv {params : List TyVar} {body : Ty}
    (confined : Confined binder free (.quantified params body)) :
    (∀ p ∈ params, binder p) ∧ body.Confined binder (fun v => free v ∨ v ∈ params) := by
  cases confined with
  | quantified binders inside => exact ⟨binders, inside⟩

theorem Confined.app_inv (confined : Confined binder free (.app head args)) :
    head.Confined binder free ∧ ∀ t ∈ args, t.Confined binder free := by
  cases confined with
  | app fst each => exact ⟨fst, each⟩

theorem Confined.named (template : TemplateId) : (named template).Confined binder free :=
  .nominal nofun

theorem Confined.substitute (confined : ty.Confined binder free) {assignment : Assignment}
    (images : ∀ v, free v → (assignment.image v).Confined binder free') :
    (ty.substitute assignment).Confined binder free' := by
  induction confined generalizing assignment free' with
  | var holds => exact images _ holds
  | arrow _ _ ihParam ihResult => exact .arrow (ihParam images) (ihResult images)
  | tuple _ ih =>
    rw [Ty.substitute, substituteAll_eq_map]
    exact .tuple (List.forall_mem_map.mpr fun t member => ih t member images)
  | nominal _ ih =>
    rw [Ty.substitute, substituteAll_eq_map]
    exact .nominal (List.forall_mem_map.mpr fun t member => ih t member images)
  | @quantified free params body binders _ ih =>
    refine .quantified binders (ih fun v shown => ?_)
    rw [Assignment.image_without]
    split
    · rename_i member
      exact .var (.inr member)
    · rename_i absent
      exact (images v (shown.resolve_right absent)).imp fun _ => .inl
  | app _ _ ihHead ih =>
    rw [Ty.substitute, substituteAll_eq_map]
    exact .app (ihHead images) (List.forall_mem_map.mpr fun t member => ih t member images)

theorem Confined.substitute_ofLists {vars : List TyVar} {types : List Ty}
    (confined : ty.Confined binder fun v => free v ∨ v ∈ vars)
    (each : ∀ t ∈ types, t.Confined binder free) :
    (ty.substitute (.ofLists vars types)).Confined binder
      fun v => free v ∨ v ∈ vars.drop types.length := by
  refine confined.substitute fun v shown => ?_
  rcases Assignment.image_cases vars types v with member | ⟨same, absent⟩
  · exact (each _ member).imp fun _ => .inl
  · rw [same]
    refine .var (shown.imp_right fun member => ?_)
    rw [← List.take_append_drop types.length vars, List.mem_append] at member
    exact member.resolve_left absent

theorem Confined.instantiate {vars : List TyVar} {types : List Ty}
    (confined : ty.Confined binder fun v => free v ∨ v ∈ vars) (length : vars.length ≤ types.length)
    (each : ∀ t ∈ types, t.Confined binder free) :
    (ty.substitute (.ofLists vars types)).Confined binder free := by
  refine (confined.substitute_ofLists each).imp fun v shown => ?_
  rw [List.drop_eq_nil_of_le length] at shown
  exact shown.resolve_right List.not_mem_nil

theorem Confined.apply (confined : head.Confined binder free)
    (each : ∀ t ∈ args, t.Confined binder free) : (head.apply args).Confined binder free := by
  fun_induction Ty.apply head args with
  | case1 head => exact confined
  | case2 body args _ ih =>
    obtain ⟨-, inside⟩ := confined.quantified_inv
    exact ih (inside.imp fun v shown => shown.resolve_right List.not_mem_nil) each
  | case3 p ps body a as result fewer =>
    obtain ⟨binders, inside⟩ := confined.quantified_inv
    exact .quantified (fun q member => binders q (List.mem_of_mem_drop member))
      (inside.substitute_ofLists each)
  | case4 p ps body a as result enough ih =>
    obtain ⟨-, inside⟩ := confined.quantified_inv
    exact ih (inside.instantiate (Nat.le_of_not_lt enough) each)
      fun t member => each t (List.mem_of_mem_drop member)
  | case5 inner first args _ =>
    obtain ⟨fst, others⟩ := confined.app_inv
    exact .app fst fun t member => (List.mem_append.mp member).elim (others t) (each t)
  | case6 => exact .app confined each

end Ty

end PolyCheck
