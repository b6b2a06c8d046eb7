import PolyCheck.Proofs.Ty.Section

/-! Sections that are equal up to the names of their parameters. Parameters that are all different
correspond place by place, and no first component mentions one; so two sections are alike exactly
when they have the same constructor and as many parameters and when their first components are alike
one by one. Functions alike applied to arguments alike give types alike. -/
namespace PolyCheck.Ty

variable {related : TyVar → TyVar → Prop} {binder own : TyVar → Prop} {former former' : Former}
  {xs ys kept kept' args args' : List Ty} {ps qs : List TyVar} {ty ty' head head' : Ty}

abbrev AlikeAll (related : TyVar → TyVar → Prop) : List Ty → List Ty → Prop :=
  List.Forall₂ (Alike related)

theorem alikeAll_iff : AlikeAll related xs ys ↔
    xs.length = ys.length ∧ ∀ pair ∈ xs.zip ys, Alike related pair.1 pair.2 := by
  rw [AlikeAll, List.forall₂_iff_zip]
  simp only [Prod.forall]

theorem alike_build (takes : former.Takes xs.length) (each : AlikeAll related xs ys) :
    Alike related (former.build xs) (former.build ys) := by
  cases former with
  | arrow =>
    obtain ⟨p, r, rfl⟩ := List.length_eq_two.mp takes
    obtain ⟨q, rest, fst, last, rfl⟩ := List.forall₂_cons_left_iff.mp each
    obtain ⟨s, rest, snd, none_, rfl⟩ := List.forall₂_cons_left_iff.mp last
    obtain rfl := List.forall₂_nil_left_iff.mp none_
    exact .arrow fst snd
  | tuple =>
    obtain ⟨length, parts⟩ := alikeAll_iff.mp each
    exact .tuple length parts
  | nominal template =>
    obtain ⟨length, parts⟩ := alikeAll_iff.mp each
    exact .nominal length parts

theorem Alike.build_inv (takes : former.Takes xs.length) (takes' : former'.Takes ys.length)
    (alike : Alike related (former.build xs) (former'.build ys)) : former = former' ∧
      AlikeAll related xs ys := by
  cases former with
  | arrow =>
    obtain ⟨p, r, rfl⟩ := List.length_eq_two.mp takes
    cases former' with
    | arrow =>
      obtain ⟨q, s, rfl⟩ := List.length_eq_two.mp takes'
      cases alike with
      | arrow fst snd => exact ⟨rfl, .cons fst (.cons snd .nil)⟩
    | tuple | nominal _ => cases alike
  | tuple =>
    cases former' with
    | arrow =>
      obtain ⟨q, s, rfl⟩ := List.length_eq_two.mp takes'
      cases alike
    | tuple =>
      cases alike with
      | tuple length parts => exact ⟨rfl, alikeAll_iff.mpr ⟨length, parts⟩⟩
    | nominal _ => cases alike
  | nominal template =>
    cases former' with
    | arrow =>
      obtain ⟨q, s, rfl⟩ := List.length_eq_two.mp takes'
      cases alike
    | tuple => cases alike
    | nominal template' =>
      cases alike with
      | nominal length parts => exact ⟨rfl, alikeAll_iff.mpr ⟨length, parts⟩⟩

/-- Only the free variables of two types need to correspond. -/
theorem Alike.restrict {binder' free free' : TyVar → Prop} (alike : Alike related ty ty')
    (confined : ty.Confined binder free) (confined' : ty'.Confined binder' free') :
    Alike (fun v w => related v w ∧ free v ∧ free' w) ty ty' := by
  induction alike generalizing free free' with
  | var same =>
    cases confined with
    | var holds =>
      cases confined' with
      | var holds' => exact .var ⟨same, holds, holds'⟩
  | arrow _ _ ihParam ihResult =>
    exact .arrow (ihParam confined.arrow_inv.1 confined'.arrow_inv.1)
      (ihResult confined.arrow_inv.2 confined'.arrow_inv.2)
  | tuple length _ ih =>
    exact .tuple length fun pair member =>
      ih pair member (confined.tuple_inv _ (List.of_mem_zip member).1)
      (confined'.tuple_inv _ (List.of_mem_zip member).2)
  | nominal length _ ih =>
    exact .nominal length fun pair member =>
      ih pair member (confined.nominal_inv _ (List.of_mem_zip member).1)
      (confined'.nominal_inv _ (List.of_mem_zip member).2)
  | quantified length _ ih =>
    refine .quantified length ((ih confined.quantified_inv.2 confined'.quantified_inv.2).mono ?_)
    rintro v w ⟨inner | ⟨outer, outer', same⟩, shown, shown'⟩
    · exact .inl inner
    · exact .inr ⟨outer, outer', same, shown.resolve_right outer, shown'.resolve_right outer'⟩
  | app _ length _ ihHead ih =>
    exact .app (ihHead confined.app_inv.1 confined'.app_inv.1) length fun pair member =>
      ih pair member (confined.app_inv.2 _ (List.of_mem_zip member).1)
        (confined'.app_inv.2 _ (List.of_mem_zip member).2)

theorem idxOf_reverse (once : ps.Nodup) {index : Nat} (inside : index < ps.length) :
    ps.reverse.idxOf ps[index] = ps.length - 1 - index := by
  have place : ps.length - 1 - index < ps.reverse.length := by
    rw [List.length_reverse]
    omega
  have same : ps.reverse[ps.length - 1 - index] = ps[index] := by
    rw [List.getElem_reverse]
    congr 1
    omega
  rw [← same, (List.nodup_reverse.mpr once).idxOf_getElem _ place]

theorem alikeAll_params (once : ps.Nodup) (once' : qs.Nodup) (length : ps.length = qs.length) :
    AlikeAll (Bound ps qs related) (ps.map .var) (qs.map .var) := by
  rw [AlikeAll, List.forall₂_map_left_iff, List.forall₂_map_right_iff, List.forall₂_iff_get]
  refine ⟨length, fun index inside inside' => .var (.inl ⟨List.get_mem _ _, List.get_mem _ _, ?_⟩)⟩
  rw [List.get_eq_getElem, List.get_eq_getElem, idxOf_reverse once inside,
    idxOf_reverse once' inside', length]

section Apart

variable (apart : ∀ v, own v → ¬ binder v)
include apart

/-- Below two quantifiers, types over free variables are alike when they are alike outside. -/
theorem alike_below (binders : ∀ p ∈ ps, binder p) (binders' : ∀ q ∈ qs, binder q)
    (sectional : ty.Sectional binder own)
    (sectional' : ty'.Sectional binder own) : Alike (Bound ps qs Eq) ty ty' ↔ Alike Eq ty ty' := by
  have free : ∀ {v : TyVar} {params : List TyVar}, own v → (∀ p ∈ params, binder p) → v ∉ params :=
    fun holds each member => apart _ holds (each _ member)
  constructor
  · refine fun alike => (alike.restrict sectional.confined sectional'.confined).mono ?_
    rintro v w ⟨⟨inner, -⟩ | ⟨-, -, same⟩, holds, -⟩
    · exact absurd inner (free holds binders)
    · exact same
  · refine fun alike => (alike.restrict sectional.confined sectional'.confined).mono ?_
    rintro v w ⟨same, holds, holds'⟩
    exact .inr ⟨free holds binders, free holds' binders', same⟩

theorem alikeAll_below (binders : ∀ p ∈ ps, binder p) (binders' : ∀ q ∈ qs, binder q)
    (each : ∀ t ∈ xs, t.Sectional binder own) (each' : ∀ t ∈ ys, t.Sectional binder own) :
    AlikeAll (Bound ps qs Eq) xs ys ↔ AlikeAll Eq xs ys := by
  rw [alikeAll_iff, alikeAll_iff]
  refine and_congr_right fun _ => forall₂_congr fun pair member => ?_
  exact alike_below apart binders binders' (each _ (List.of_mem_zip member).1)
    (each' _ (List.of_mem_zip member).2)

theorem alike_lambda (sections : Sections binder own former kept ps)
    (sections' : Sections binder own former kept' qs)
    (length : ps.length = qs.length) (each : AlikeAll Eq kept kept') :
    Alike Eq (former.lambda kept ps) (former.lambda kept' qs) := by
  refine .quantified length (alike_build (by simpa using sections.takes) (List.rel_append ?_ ?_))
  · exact (alikeAll_below apart sections.binders sections'.binders sections.each
      sections'.each).mpr each
  · exact alikeAll_params sections.once sections'.once length

theorem Alike.lambda_inv (sections : Sections binder own former kept ps)
    (sections' : Sections binder own former' kept' qs)
    (alike : Alike Eq (former.lambda kept ps) (former'.lambda kept' qs)) :
    former = former' ∧ ps.length = qs.length ∧ AlikeAll Eq kept kept' := by
  rw [Former.lambda, Former.lambda] at alike
  cases alike with
  | quantified length inside =>
    obtain ⟨same, parts⟩ :=
      inside.build_inv (by simpa using sections.takes) (by simpa using sections'.takes)
    have lengths := parts.length_eq
    simp only [List.length_append, List.length_map] at lengths
    have firsts := List.forall₂_take kept.length parts
    rw [List.take_left, show kept.length = kept'.length by omega, List.take_left] at firsts
    exact ⟨same, length,
      (alikeAll_below apart sections.binders sections'.binders sections.each
        sections'.each).mp firsts⟩

theorem Alike.apply (sectional : head.Sectional binder own)
    (sectional' : head'.Sectional binder own)
    (each : ∀ t ∈ args, t.Sectional binder own) (each' : ∀ t ∈ args', t.Sectional binder own)
    (alike : Alike Eq head head') (all : AlikeAll Eq args args') : Alike Eq (head.apply args)
    (head'.apply args') := by
  have stuck : ∀ {other other' : Ty} {others others' : List Ty}, other.IsStuck → other'.IsStuck →
      Alike Eq other other' → AlikeAll Eq others others' →
      Alike Eq (other.apply others) (other'.apply others') := by
    intro other other' others others' isStuck isStuck' same all
    obtain ⟨length, parts⟩ := alikeAll_iff.mp all
    rcases eq_or_ne others [] with rfl | given
    · obtain rfl := List.forall₂_nil_left_iff.mp all
      rwa [apply_nil, apply_nil]
    · have given' : others' ≠ [] := by
        rw [← List.length_pos_iff, ← length]
        exact List.length_pos_iff.mpr given
      rw [Subst.apply_stuck isStuck given, Subst.apply_stuck isStuck' given']
      exact .app same length parts
  rcases eq_or_ne args [] with rfl | given
  · obtain rfl := List.forall₂_nil_left_iff.mp all
    rwa [apply_nil, apply_nil]
  have lengths := all.length_eq
  have given' : args' ≠ [] := by
    rw [← List.length_pos_iff, ← lengths]
    exact List.length_pos_iff.mpr given
  cases alike with
  | var same => exact stuck trivial trivial (.var same) all
  | arrow fst snd => exact stuck trivial trivial (.arrow fst snd) all
  | tuple length parts => exact stuck trivial trivial (.tuple length parts) all
  | nominal length parts => exact stuck trivial trivial (.nominal length parts) all
  | @app _ _ _ first first' fst length parts =>
    have together : AlikeAll Eq (first ++ args) (first' ++ args') :=
      List.rel_append (alikeAll_iff.mpr ⟨length, parts⟩) all
    obtain ⟨length, parts⟩ := alikeAll_iff.mp together
    rw [apply_app, apply_app]
    exact .app fst length parts
  | @quantified _ ps qs body body' length inside =>
    obtain ⟨former, kept, rfl, sections⟩ := sectional.quantified_inv
    obtain ⟨former', kept', rfl, sections'⟩ := sectional'.quantified_inv
    obtain ⟨rfl, -, firsts⟩ := Alike.lambda_inv apart sections sections' (.quantified length inside)
    change Alike Eq ((former.lambda kept ps).apply args) ((former.lambda kept' qs).apply args')
    rcases Nat.lt_or_ge args.length ps.length with fewer | enough
    · rw [sections.apply_fewer apart given fewer, sections'.apply_fewer apart given' (by omega)]
      refine alike_lambda apart (sections.fewer each fewer) (sections'.fewer each' (by omega)) ?_
        (List.rel_append firsts all)
      rw [List.length_drop, List.length_drop, length, lengths]
    · rw [sections.apply_enough apart enough, sections'.apply_enough apart (by omega)]
      refine stuck (Former.isStuck_build _ _) (Former.isStuck_build _ _) ?_ ?_
      · exact alike_build (sections.enough enough)
          (List.rel_append firsts (length ▸ List.forall₂_take ps.length all))
      · exact length ▸ List.forall₂_drop ps.length all

end Apart

end PolyCheck.Ty
