import PolyCheck.Proofs.Ty.Confined

/-! Types that are equal up to the names of what their quantifiers bind. Two variables correspond
when they are bound at the same place of the same quantifier, or both free and related. -/
namespace PolyCheck.Ty

variable {related related' : TyVar → TyVar → Prop} {ps qs : List TyVar} {v w : TyVar} {ty ty' : Ty}

/-- The correspondence below two quantifiers. Of two parameters with one name the later one
counts. -/
def Bound (ps qs : List TyVar) (related : TyVar → TyVar → Prop) (v w : TyVar) : Prop :=
  v ∈ ps ∧ w ∈ qs ∧ ps.reverse.idxOf v = qs.reverse.idxOf w ∨ v ∉ ps ∧ w ∉ qs ∧ related v w

inductive Alike : (TyVar → TyVar → Prop) → Ty → Ty → Prop
  | var {related : TyVar → TyVar → Prop} {v w : TyVar} (same : related v w) :
      Alike related (.var v) (.var w)
  | arrow {related : TyVar → TyVar → Prop} {p r q s : Ty} (fst : Alike related p q)
      (snd : Alike related r s) : Alike related (.arrow p r) (.arrow q s)
  | tuple {related : TyVar → TyVar → Prop} {es fs : List Ty} (length : es.length = fs.length)
    (each : ∀ pair ∈ es.zip fs, Alike related pair.1 pair.2) : Alike related (.tuple es) (.tuple fs)
  | nominal {related : TyVar → TyVar → Prop} {template : TemplateId} {as bs : List Ty}
    (length : as.length = bs.length) (each : ∀ pair ∈ as.zip bs, Alike related pair.1 pair.2) :
    Alike related (.nominal template as) (.nominal template bs)
  | quantified {related : TyVar → TyVar → Prop} {ps qs : List TyVar} {b c : Ty}
      (length : ps.length = qs.length)
    (inside : Alike (Bound ps qs related) b c) : Alike related (.quantified ps b) (.quantified qs c)
  | app {related : TyVar → TyVar → Prop} {h k : Ty} {as bs : List Ty} (fst : Alike related h k)
    (length : as.length = bs.length) (each : ∀ pair ∈ as.zip bs, Alike related pair.1 pair.2) :
    Alike related (.app h as) (.app k bs)

theorem Bound.mono (wider : ∀ v w, related v w → related' v w) (bound : Bound ps qs related v w) :
    Bound ps qs related' v w :=
  bound.imp_right fun ⟨free, free', same⟩ => ⟨free, free', wider v w same⟩

theorem Alike.mono (alike : Alike related ty ty') (wider : ∀ v w, related v w → related' v w) :
    Alike related' ty ty' := by
  induction alike generalizing related' with
  | var same => exact .var (wider _ _ same)
  | arrow _ _ ihParam ihResult => exact .arrow (ihParam wider) (ihResult wider)
  | tuple length _ ih => exact .tuple length fun pair member => ih pair member wider
  | nominal length _ ih => exact .nominal length fun pair member => ih pair member wider
  | quantified length _ ih => exact .quantified length (ih fun _ _ => Bound.mono wider)
  | app _ length _ ihHead ih =>
    exact .app (ihHead wider) length fun pair member => ih pair member wider

theorem Bound.refl (same : ∀ v, related v v) (v : TyVar) : Bound ps ps related v v := by
  by_cases inner : v ∈ ps
  · exact .inl ⟨inner, inner, rfl⟩
  · exact .inr ⟨inner, inner, same v⟩

mutual

theorem Alike.refl : ∀ {ty : Ty} {related : TyVar → TyVar → Prop}, (∀ v, related v v) →
    Alike related ty ty
  | .var v, _, same => .var (same v)
  | .arrow _ _, _, same => .arrow (Alike.refl same) (Alike.refl same)
  | .tuple elems, _, same => .tuple rfl (Alike.refl_zip elems same)
  | .nominal _ args, _, same => .nominal rfl (Alike.refl_zip args same)
  | .quantified _ _, _, same => .quantified rfl (Alike.refl (Bound.refl same))
  | .app _ args, _, same => .app (Alike.refl same) rfl (Alike.refl_zip args same)

theorem Alike.refl_zip : ∀ (types : List Ty) {related : TyVar → TyVar → Prop}, (∀ v, related v v) →
    ∀ pair ∈ types.zip types, Alike related pair.1 pair.2
  | [], _, _ => List.forall_mem_nil _
  | _ :: types, _, same => List.forall_mem_cons.mpr ⟨Alike.refl same, Alike.refl_zip types same⟩

end

theorem mem_zip_swap {α : Type} {xs ys : List α} {pair : α × α} (member : pair ∈ ys.zip xs) :
    pair.swap ∈ xs.zip ys := by
  rw [← List.zip_swap]
  exact List.mem_map_of_mem member

theorem Alike.swap (alike : Alike related ty ty') : Alike (fun w v => related v w) ty' ty := by
  induction alike with
  | var same => exact .var same
  | arrow _ _ ihParam ihResult => exact .arrow ihParam ihResult
  | tuple length _ ih => exact .tuple length.symm fun pair member => ih _ (mem_zip_swap member)
  | nominal length _ ih => exact .nominal length.symm fun pair member => ih _ (mem_zip_swap member)
  | quantified length _ ih =>
    refine .quantified length.symm (ih.mono fun w v bound => ?_)
    rcases bound with ⟨inner, inner', place⟩ | ⟨free, free', same⟩
    · exact .inl ⟨inner', inner, place.symm⟩
    · exact .inr ⟨free', free, same⟩
  | app _ length _ ihHead ih =>
    exact .app ihHead length.symm fun pair member => ih _ (mem_zip_swap member)

theorem mem_zip_trans {α β γ : Type} {xs : List α} {ys : List β} {zs : List γ}
    (length : xs.length = ys.length)
    (length' : ys.length = zs.length) {pair : α × γ} (member : pair ∈ xs.zip zs) :
    ∃ y, (pair.1, y) ∈ xs.zip ys ∧ (y, pair.2) ∈ ys.zip zs := by
  obtain ⟨index, inside, rfl⟩ := List.getElem_of_mem member
  rw [List.length_zip] at inside
  refine ⟨ys[index], List.mem_iff_getElem.mpr ⟨index, ?_, ?_⟩,
    List.mem_iff_getElem.mpr ⟨index, ?_, ?_⟩⟩
  · rw [List.length_zip]
    omega
  · rw [List.getElem_zip, List.getElem_zip]
  · rw [List.length_zip]
    omega
  · rw [List.getElem_zip, List.getElem_zip]

theorem Bound.trans {rs : List TyVar} {x : TyVar} (bound : Bound ps qs related v w)
    (bound' : Bound qs rs related' w x) : Bound ps rs (Relation.Comp related related') v x := by
  rcases bound with ⟨inner, middle, place⟩ | ⟨outer, middle, same⟩
  · rcases bound' with ⟨-, inner', place'⟩ | ⟨absent, -, -⟩
    · exact .inl ⟨inner, inner', place.trans place'⟩
    · exact absurd middle absent
  · rcases bound' with ⟨member, -, -⟩ | ⟨-, outer', same'⟩
    · exact absurd member middle
    · exact .inr ⟨outer, outer', w, same, same'⟩

theorem Alike.trans {last : Ty} (alike : Alike related ty ty') (alike' : Alike related' ty' last) :
    Alike (Relation.Comp related related') ty last := by
  induction alike generalizing related' last with
  | var same =>
    cases alike' with
    | var same' => exact .var ⟨_, same, same'⟩
  | arrow _ _ ihParam ihResult =>
    cases alike' with
    | arrow fst snd => exact .arrow (ihParam fst) (ihResult snd)
  | tuple length _ ih =>
    cases alike' with
    | tuple length' each =>
      refine .tuple (length.trans length') fun pair member => ?_
      obtain ⟨y, first, second⟩ := mem_zip_trans length length' member
      exact ih _ first (each _ second)
  | nominal length _ ih =>
    cases alike' with
    | nominal length' each =>
      refine .nominal (length.trans length') fun pair member => ?_
      obtain ⟨y, first, second⟩ := mem_zip_trans length length' member
      exact ih _ first (each _ second)
  | quantified length _ ih =>
    cases alike' with
    | quantified length' inside =>
      refine .quantified (length.trans length') ((ih inside).mono fun v x => ?_)
      rintro ⟨w, bound, bound'⟩
      exact bound.trans bound'
  | app _ length _ ihHead ih =>
    cases alike' with
    | app fst length' each =>
      refine .app (ihHead fst) (length.trans length') fun pair member => ?_
      obtain ⟨y, first, second⟩ := mem_zip_trans length length' member
      exact ih _ first (each _ second)

theorem Alike.eq_trans {last : Ty} (alike : Alike Eq ty ty') (alike' : Alike Eq ty' last) :
    Alike Eq ty last := by
  refine (alike.trans alike').mono ?_
  rintro v x ⟨w, rfl, rfl⟩
  rfl

/-- Corresponding variables are replaced by corresponding variables, of which none is caught by a
quantifier. -/
theorem Alike.substitute {binder free free' : TyVar → Prop} (alike : Alike related ty ty')
    (confined : ty.Confined binder free) (confined' : ty'.Confined binder free')
    {assignment assignment' : Assignment}
    (images : ∀ v w, related v w → ∃ x y, assignment.image v = .var x ∧
      assignment'.image w = .var y ∧ related' x y ∧ (binder x → x = v) ∧ (binder y → y = w)) :
    Alike related' (ty.substitute assignment) (ty'.substitute assignment') := by
  induction alike generalizing related' free free' assignment assignment' with
  | @var _ v w same =>
    obtain ⟨x, y, image, image', same', -⟩ := images v w same
    change Alike related' (assignment.image v) (assignment'.image w)
    rw [image, image']
    exact .var same'
  | arrow _ _ ihParam ihResult =>
    exact .arrow (ihParam confined.arrow_inv.1 confined'.arrow_inv.1 images)
      (ihResult confined.arrow_inv.2 confined'.arrow_inv.2 images)
  | tuple length _ ih =>
    rw [Ty.substitute, Ty.substitute, substituteAll_eq_map, substituteAll_eq_map]
    refine .tuple (by simpa using length) fun pair member => ?_
    rw [List.zip_map, List.mem_map] at member
    obtain ⟨parts, inside, rfl⟩ := member
    exact ih parts inside (confined.tuple_inv _ (List.of_mem_zip inside).1)
      (confined'.tuple_inv _ (List.of_mem_zip inside).2) images
  | nominal length _ ih =>
    rw [Ty.substitute, Ty.substitute, substituteAll_eq_map, substituteAll_eq_map]
    refine .nominal (by simpa using length) fun pair member => ?_
    rw [List.zip_map, List.mem_map] at member
    obtain ⟨parts, inside, rfl⟩ := member
    exact ih parts inside (confined.nominal_inv _ (List.of_mem_zip inside).1)
      (confined'.nominal_inv _ (List.of_mem_zip inside).2) images
  | @quantified _ ps qs _ _ length _ ih =>
    obtain ⟨binders, inside⟩ := confined.quantified_inv
    obtain ⟨binders', inside'⟩ := confined'.quantified_inv
    refine .quantified length (ih inside inside' fun v w bound => ?_)
    rw [Assignment.image_without, Assignment.image_without]
    rcases bound with ⟨inner, inner', place⟩ | ⟨outer, outer', same⟩
    · rw [if_pos inner, if_pos inner']
      exact ⟨v, w, rfl, rfl, .inl ⟨inner, inner', place⟩, fun _ => rfl, fun _ => rfl⟩
    · rw [if_neg outer, if_neg outer']
      obtain ⟨x, y, image, image', same', apart, apart'⟩ := images v w same
      refine ⟨x, y, image, image', .inr ⟨fun caught => ?_, fun caught => ?_, same'⟩, apart, apart'⟩
      · exact outer (apart (binders x caught) ▸ caught)
      · exact outer' (apart' (binders' y caught) ▸ caught)
  | app _ length _ ihHead ih =>
    rw [Ty.substitute, Ty.substitute, substituteAll_eq_map, substituteAll_eq_map]
    refine .app (ihHead confined.app_inv.1 confined'.app_inv.1 images) (by simpa using length)
      fun pair member => ?_
    rw [List.zip_map, List.mem_map] at member
    obtain ⟨parts, inside, rfl⟩ := member
    exact ih parts inside (confined.app_inv.2 _ (List.of_mem_zip inside).1)
      (confined'.app_inv.2 _ (List.of_mem_zip inside).2) images

theorem lookup_zip {vars : List TyVar} {types : List Ty} (length : vars.length = types.length)
    (member : v ∈ vars) : (vars.zip types).lookup v = types[vars.idxOf v]? := by
  induction vars generalizing types with
  | nil => cases member
  | cons first vars ih =>
    obtain ⟨ty, types, rfl⟩ := List.exists_cons_of_length_eq_add_one length.symm
    rw [List.zip_cons_cons, List.lookup_cons]
    by_cases same : v = first
    · subst same
      simp
    · rw [beq_false_of_ne same,
        ih (Nat.succ.inj length) ((List.mem_cons.mp member).resolve_left same),
        List.idxOf_cons_ne _ (Ne.symm same)]
      rfl

theorem Assignment.image_ofLists {vars : List TyVar} {types : List Ty}
    (length : vars.length = types.length)
    (member : v ∈ vars) : some ((Assignment.ofLists vars types).image v) =
      types.reverse[vars.reverse.idxOf v]? := by
  have inside : vars.reverse.idxOf v < types.reverse.length := by
    rw [List.length_reverse, ← length, ← List.length_reverse]
    exact List.idxOf_lt_length_of_mem (List.mem_reverse.mpr member)
  have reversed : (vars.zip types).reverse = vars.reverse.zip types.reverse := by
    rw [← List.zip_unzip (vars.zip types).reverse, List.unzip_eq_map, List.map_reverse,
      List.map_reverse, List.map_fst_zip (Nat.le_of_eq length),
      List.map_snd_zip (Nat.le_of_eq length.symm)]
  have found : (Assignment.ofLists vars types).lookup v = types.reverse[vars.reverse.idxOf v]? := by
    rw [Assignment.ofLists, reversed]
    exact lookup_zip (by simpa using length) (List.mem_reverse.mpr member)
  rw [Assignment.image, found, List.getElem?_eq_getElem inside, Option.getD_some]

theorem Alike.open {inside : TyVar → Prop} {skolems : List TyVar}
    (alike : Alike (Bound ps qs Eq) ty ty')
    (confined : ty.Confined inside inside) (confined' : ty'.Confined inside inside)
    (length : ps.length = skolems.length) (length' : qs.length = skolems.length)
    (new : ∀ s ∈ skolems, ¬ inside s) :
    Alike Eq (ty.substitute (.ofLists ps (skolems.map .var)))
    (ty'.substitute (.ofLists qs (skolems.map .var))) := by
  refine alike.substitute confined confined' fun v w bound => ?_
  rcases bound with ⟨inner, inner', place⟩ | ⟨outer, outer', rfl⟩
  · have image := @Assignment.image_ofLists v ps (skolems.map .var) (by simpa using length) inner
    have image' := @Assignment.image_ofLists w qs (skolems.map .var) (by simpa using length') inner'
    rw [← place, ← image, Option.some.injEq] at image'
    obtain ⟨s, member, same⟩ :=
      List.mem_map.mp (List.mem_reverse.mp (List.mem_of_getElem? image.symm))
    exact ⟨s, s, same.symm, image'.trans same.symm, rfl, fun known => absurd known (new s member),
      fun known => absurd known (new s member)⟩
  · exact ⟨v, v, Assignment.image_of_not_mem outer, Assignment.image_of_not_mem outer', rfl,
      fun _ => rfl, fun _ => rfl⟩

end PolyCheck.Ty
