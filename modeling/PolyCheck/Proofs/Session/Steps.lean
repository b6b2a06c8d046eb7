import PolyCheck.Proofs.Literal.Integer
import PolyCheck.Proofs.Run
import PolyCheck.Proofs.Session.Outlook
import PolyCheck.Session.Inference

/-! The smallest checks: new variables, literals, and constructors and schemes at new variables. -/
namespace PolyCheck

open Run

namespace Subst

variable {subst after : Subst} {types types' : List Ty} {ty : Ty}

theorem covers_of_mem (member : ty ∈ types) (plain : ty.FirstOrder subst.size) :
    subst.Covers types ty :=
  ⟨plain, fun _ inside => ⟨ty, member, inside⟩⟩

theorem Covers.mono (covers : subst.Covers types ty) (subset : types ⊆ types') :
    subst.Covers types' ty :=
  ⟨covers.1, fun v inside =>
    let ⟨other, member, inOther⟩ := covers.2 v inside
    ⟨other, subset member, inOther⟩⟩

theorem Covers.later (covers : subst.Covers types ty) (tame : subst.Tame) (tame' : after.Tame)
    (later : subst.Extends after) (plain : ∀ ty ∈ types, ty.FirstOrder subst.size) :
    after.Covers types ty := by
  refine ⟨covers.1.mono later.size_le, fun v inside => ?_⟩
  obtain ⟨w, before, inAfter⟩ := (later.mem_leaves tame tame' covers.1).mp inside
  obtain ⟨other, member, inOther⟩ := covers.2 w before
  exact ⟨other, member, (later.mem_leaves tame tame' (plain other member)).mpr
    ⟨w, inOther, inAfter⟩⟩

theorem Tame.covers_arrow (tame : subst.Tame) {param result : Ty} (fst : subst.Covers types param)
    (snd : subst.Covers types result) : subst.Covers types (.arrow param result) := by
  refine ⟨.arrow fst.1 snd.1, fun v inside => ?_⟩
  rw [tame.zonk_arrow fst.1 snd.1, Ty.leaves] at inside
  exact (List.mem_append.mp inside).elim (fst.2 v) (snd.2 v)

theorem Tame.covers_tuple (tame : subst.Tame) {elems : List Ty}
    (each : ∀ t ∈ elems, subst.Covers types t) : subst.Covers types (.tuple elems) := by
  refine ⟨.tuple fun t member => (each t member).1, fun v inside => ?_⟩
  rw [tame.zonk_tuple fun t member => (each t member).1] at inside
  obtain ⟨resolved, member, inLeaves⟩ := Ty.mem_leavesAll.mp inside
  obtain ⟨t, inElems, rfl⟩ := List.mem_map.mp member
  exact (each t inElems).2 v inLeaves

theorem Tame.covers_tupled (tame : subst.Tame) {elems : List Ty}
    (each : ∀ t ∈ elems, subst.Covers types t) : subst.Covers types (.tupled elems) := by
  match elems with
  | [only] => exact each only List.mem_cons_self
  | [] => exact tame.covers_tuple nofun
  | _ :: _ :: _ => exact tame.covers_tuple each

theorem Tame.zonk_tupled (tame : subst.Tame) {elems : List Ty}
    (each : ∀ t ∈ elems, t.FirstOrder subst.size) :
    subst.zonk (.tupled elems) = .tupled (elems.map subst.zonk) := by
  match elems with
  | [only] => rfl
  | [] => exact tame.zonk_tuple nofun
  | _ :: _ :: _ => exact tame.zonk_tuple each

end Subst

/-- A constant of a type that needs no declaration. -/
def Constant.Fits (registry : Registry) (ty : Ty) : Constant → Prop
  | .bool _ => registry.Provides .bool ty
  | .int width value => registry.Provides (.int width) ty ∧ InWidth width value
  | .str _ => registry.Provides .str ty

namespace Session

variable {before after : Session} {claim : Claim} {types : List Ty}

theorem Sound.yields_grown (sound : before.Sound) {subst : Subst} (grown : before.subst.Grown subst)
    (plain : ∀ ty ∈ types, ty.FirstOrder subst.size)
    (known : ∀ ty ∈ types, ∀ v ∈ (subst.zonk ty).leaves,
      before.env.Live before.subst v ∨ before.subst.size ≤ v.index)
    (holds : ∀ {final registry context},
      Outlook before { before with subst } types final registry context →
      claim final registry context) :
    Yields before { before with subst } types claim := by
  refine ⟨sound.advance rfl (Nat.le_refl _) grown.tame (grown.later sound.tame)
    (fun v dead => grown.spares sound.tame dead.1.1) sound.registry (Registry.grows_refl _), plain,
    fun ty member v dead inside => ?_, holds⟩
  rcases known ty member v inside with live | new
  · exact dead.2 live
  · exact absurd dead.1.1 (Nat.not_lt.mpr new)

theorem yields_freshVar (sound : before.Sound) {ty : Ty}
    (run : Check.freshVar before = .ok ty after) :
    Yields before after [ty] fun _ _ _ => True := by
  have shape : ty = .var ⟨before.subst.size⟩ ∧
      after = { before with subst := (before.subst.push .unbound).2 } :=
    (EStateM.Result.ok.inj run).imp Eq.symm Eq.symm
  obtain ⟨rfl, rfl⟩ := shape
  have unsolved := Subst.unsolved_push before.subst
  have grown := sound.tame.grown_push (.inl rfl)
  refine sound.yields_grown grown (fun ty member => ?_) (fun ty member v inside => ?_)
    fun _ => trivial
  · rw [List.mem_singleton.mp member]
    exact .var unsolved.1
  · rw [List.mem_singleton.mp member] at inside
    rw [grown.tame.zonk_var_of_unsolved unsolved] at inside
    rw [List.mem_singleton.mp inside]
    exact .inr (Nat.le_refl _)

theorem yields_mint (sound : before.Sound) {stem : String} {name : Name}
    (run : Check.mint stem before = .ok name after) :
    name = (before.names.mint stem).1 ∧ after.names = (before.names.mint stem).2 ∧
      Yields before after [] fun _ _ _ => True := by
  obtain ⟨rfl, rfl⟩ := EStateM.Result.ok.inj run
  refine ⟨rfl, rfl, ?_, nofun, nofun, fun _ => trivial⟩
  exact sound.advance rfl (Nat.le_succ _) sound.tame sound.tame.extends_refl
    (fun v _ => Subst.spares_refl v _) sound.registry (Registry.grows_refl _)

theorem yields_intTy (sound : before.Sound) {width : Nat} {ty : Ty}
    (run : Check.intTy width before = .ok ty after) :
    after.registry.Provides (.int width) ty ∧ Yields before after [] fun _ _ _ => True := by
  obtain ⟨rfl, rfl⟩ := EStateM.Result.ok.inj run
  obtain ⟨coherent, grows, provides⟩ := sound.registry.intTemplate width
  refine ⟨provides, ?_, nofun, nofun, fun _ => trivial⟩
  exact sound.advance rfl (Nat.le_refl _) sound.tame sound.tame.extends_refl
    (fun v _ => Subst.spares_refl v _) coherent grows

theorem Yields.add_provided {builtin : Builtin} {ty : Ty} (yields : Yields before after types claim)
    (provides : after.registry.Provides builtin ty) :
    Yields before after (ty :: types) fun final registry context =>
      claim final registry context ∧ registry.Provides builtin ty ∧ final.zonk ty = ty := by
  have closed : ∀ {subst : Subst}, subst.Tame → subst.zonk ty = ty := by
    obtain ⟨id, template, rfl, -⟩ := provides
    exact fun tame => tame.zonk_nominal nofun
  have leaves : ty.leaves = [] := by
    obtain ⟨id, template, rfl, -⟩ := provides
    rfl
  have covers : after.subst.Covers types ty := by
    refine ⟨(resolved_of_provides provides _).1, ?_⟩
    rw [closed yields.advance.sound.tame, leaves]
    exact nofun
  refine yields.narrow (List.forall_mem_cons.mpr ⟨covers, fun other member =>
    Subst.covers_of_mem member (yields.plain other member)⟩) fun outlook holds => ⟨holds, ?_, ?_⟩
  · exact provides.grow outlook.registry
  · exact closed outlook.tame

theorem yields_literal (sound : before.Sound) {value : Literal} {span : Span} {constant : Constant}
    {ty : Ty} (run : Check.literal value span before = .ok (constant, ty) after) :
    Yields before after [ty] fun final registry _ =>
      constant.Fits registry ty ∧ final.zonk ty = ty := by
  have start := @Yields.refl before (fun _ _ _ => True) sound fun _ _ _ => trivial
  cases value with
  | bool b =>
    obtain ⟨same, rfl⟩ := EStateM.Result.ok.inj run
    obtain ⟨rfl, rfl⟩ := Prod.mk.inj same
    exact (start.add_provided sound.registry.bool).imp fun _ holds => holds.2
  | str raw =>
    cases decoded : Escape.decode raw with
    | error fault => simp [Check.literal, decoded, Check.fail, throw_apply] at run
    | ok bytes =>
      simp only [Check.literal, decoded] at run
      obtain ⟨same, rfl⟩ := EStateM.Result.ok.inj run
      obtain ⟨rfl, rfl⟩ := Prod.mk.inj same
      exact (start.add_provided sound.registry.str).imp fun _ holds => holds.2
  | int magnitude width =>
    obtain ⟨session, middle, read, run⟩ := bind_eq_ok.mp run
    obtain ⟨rfl, rfl⟩ := EStateM.Result.ok.inj read
    cases result : intValue magnitude (width.getD before.options.defaultIntWidth) with
    | error fault => simp [result, Check.fail, throw_apply] at run
    | ok number =>
      rw [result] at run
      obtain ⟨found, middle, int, run⟩ := bind_eq_ok.mp run
      obtain ⟨same, rfl⟩ := EStateM.Result.ok.inj run
      obtain ⟨rfl, rfl⟩ := Prod.mk.inj same
      obtain ⟨provides, yields⟩ := yields_intTy sound int
      exact (yields.add_provided provides).imp fun _ holds =>
        ⟨⟨holds.2.1, inWidth_of_intValue result⟩, holds.2.2⟩

theorem Outlook.resolved {final : Subst} {registry : Registry} {context : Context}
    (outlook : Outlook before after types final registry context) {ty : Ty}
    (plain : ty.FirstOrder after.subst.size) : final.Resolved (final.zonk ty) :=
  outlook.tame.zonk_resolved (plain.mono outlook.later.size_le)

structure AtNew (registry : Registry) (info : CtorInfo) (dataCase : DataCase) (args : List Ty) :
    Prop where
  declares : registry.Declares info.template info.index dataCase args
  name : dataCase.name = info.name
  arity : info.arity = dataCase.fields.length

theorem yields_ctorInstance (sound : before.Sound) {info : CtorInfo}
    (registers : before.registry.Registers info) {fields : List Ty} {result : Ty}
    (run : Check.ctorInstance info before = .ok (fields, result) after) :
    ∃ dataCase args, AtNew after.registry info dataCase args ∧
      fields = after.registry.fieldsAt info.template info.index args ∧
      result = .nominal info.template args ∧
      (Yields before after [result] fun _ _ _ => True) ∧
      ∀ field ∈ fields, after.subst.Covers [result] field := by
  obtain ⟨session, middle, read, run⟩ := bind_eq_ok.mp run
  obtain ⟨rfl, rfl⟩ := EStateM.Result.ok.inj read
  obtain ⟨args, middle, fresh, run⟩ := bind_eq_ok.mp run
  obtain ⟨same, rfl⟩ := EStateM.Result.ok.inj run
  obtain ⟨rfl, rfl⟩ := Prod.mk.inj same
  obtain ⟨grown, length, new⟩ := sound.tame.pushMany (before.registry.paramCount info.template)
  generalize pushed : before.subst.pushMany .unbound (before.registry.paramCount info.template) =
    found at grown length new
  obtain ⟨vars, subst⟩ := found
  have shape : args = vars.map .var ∧ middle = { before with subst } := by
    have result := EStateM.Result.ok.inj fresh
    simp only [pushed] at result
    exact result.imp Eq.symm Eq.symm
  obtain ⟨rfl, rfl⟩ := shape
  obtain ⟨dataCase, declares, name, arity⟩ := @Registry.Registers.declares before.registry
    (vars.map .var) info registers (by rw [List.length_map, length])
  have plain : ∀ arg ∈ vars.map Ty.var, arg.FirstOrder subst.size := by
    intro arg member
    obtain ⟨v, inVars, rfl⟩ := List.mem_map.mp member
    exact .var (new v inVars).2.1
  have plainResult : (Ty.nominal info.template (vars.map .var)).FirstOrder subst.size :=
    .nominal plain
  have zonkResult := @Subst.Tame.zonk_nominal _ grown.tame info.template _ plain
  refine ⟨dataCase, vars.map .var, ⟨declares, name, arity⟩, rfl, rfl, ?_, fun field member => ?_⟩
  · refine sound.yields_grown grown (fun ty member => ?_) (fun ty member v inside => ?_)
      fun _ => trivial
    · rw [List.mem_singleton.mp member]
      exact plainResult
    · rw [List.mem_singleton.mp member, zonkResult] at inside
      obtain ⟨resolved, inArgs, inLeaves⟩ := Ty.mem_leavesAll.mp inside
      obtain ⟨arg, inVars, rfl⟩ := List.mem_map.mp inArgs
      obtain ⟨w, known, rfl⟩ := List.mem_map.mp inVars
      rw [grown.tame.zonk_var_of_unsolved (new w known).2] at inLeaves
      rw [List.mem_singleton.mp inLeaves]
      exact .inr (new w known).1
  · obtain ⟨plainField, among⟩ := declares.firstOrder_fieldsAt sound.registry.plain plain member
    refine ⟨plainField, fun v inside => ⟨_, List.mem_singleton_self _, ?_⟩⟩
    obtain ⟨w, inLeaves, inVar⟩ := (grown.tame.mem_leaves_zonk plainField).mp inside
    obtain ⟨arg, inArgs, inArg⟩ := among w inLeaves
    exact (grown.tame.mem_leaves_zonk plainResult).mpr
      ⟨w, Ty.mem_leavesAll.mpr ⟨arg, inArgs, inArg⟩, inVar⟩

theorem Outlook.fieldsAt {final : Subst} {registry : Registry} {context : Context}
    (outlook : Outlook before after types final registry context) (sound : after.Sound)
    {info : CtorInfo} {dataCase : DataCase} {args : List Ty}
    (atNew : AtNew after.registry info dataCase args)
    (plain : (Ty.nominal info.template args).FirstOrder after.subst.size) :
    registry.Declares info.template info.index dataCase (args.map final.zonk) ∧
      final.zonk (.nominal info.template args) = .nominal info.template (args.map final.zonk) ∧
      registry.fieldsAt info.template info.index (args.map final.zonk) =
        (after.registry.fieldsAt info.template info.index args).map final.zonk := by
  have plainArgs : ∀ arg ∈ args, arg.FirstOrder final.size := by
    cases plain with
    | nominal each => exact fun arg member => (each arg member).mono outlook.later.size_le
  have declares := atNew.declares
  refine ⟨(declares.grow outlook.registry).change _, outlook.tame.zonk_nominal plainArgs, ?_⟩
  rw [declares.fieldsAt_grow outlook.registry]
  refine declares.fieldsAt_change sound.registry.plain fun firstOrder inArgs => ?_
  exact outlook.tame.zonk_under firstOrder fun v member => plainArgs _ (inArgs v member)

section Schemes

variable {scheme : Scheme} {final : Subst} {registry : Registry} {context : Context}

theorem Outlook.quantified_fixed (outlook : Outlook before after types final registry context)
    (sound : after.Sound) (member : scheme ∈ after.env.schemes) {v : TyVar}
    (inVars : v ∈ scheme.vars) :
    final.zonk (.var v) = .var v ∧ ∀ {w : TyVar}, after.subst.Unsolved w → w ≠ v →
      v ∉ (final.zonk (.var w)).leaves := by
  have spares := outlook.quantified scheme member v inVars
  have unsolved := (sound.env.dead scheme member v inVars).1
  refine ⟨outlook.tame.zonk_var_of_unsolved
    (unsolved.of_cell sound.tame outlook.later.size_le spares.cell),
    fun {w} unsolved' different => ?_⟩
  refine spares.avoids (.var unsolved'.1) ?_
  rw [sound.tame.zonk_var_of_unsolved unsolved', Ty.leaves, List.mem_singleton]
  exact Ne.symm different

theorem Outlook.isInstance (outlook : Outlook before after types final registry context)
    (sound : after.Sound) (member : scheme ∈ after.env.schemes) {ty : Ty} {images : TyVar → Ty}
    (plain : ty.FirstOrder after.subst.size) (unsolved : ∀ w ∈ ty.leaves, after.subst.Unsolved w)
    (resolved : final.zonk scheme.ty = final.zonk ty)
    (others : ∀ w ∈ ty.leaves, w ∉ scheme.vars → images w = .var w)
    (plainImages : ∀ w ∈ ty.leaves, (images w).FirstOrder after.subst.size) :
    (scheme.zonk final).Instance (final.zonk (ty.under images)) := by
  classical
  have size := outlook.later.size_le
  refine ⟨fun v => if v ∈ scheme.vars then final.zonk (images v) else .var v,
    fun v outside => if_neg outside, ?_⟩
  rw [outlook.tame.zonk_under plain fun w inside => (plainImages w inside).mono size, Scheme.zonk,
    resolved, outlook.tame.zonk_eq_under (plain.mono size), plain.under_under]
  refine plain.under_congr fun w inside => ?_
  by_cases quantified : w ∈ scheme.vars
  · rw [(outlook.quantified_fixed sound member quantified).1, Ty.under, if_pos quantified]
  · rw [others w inside quantified]
    have plainVar : (Ty.var w).FirstOrder final.size :=
      .var (Nat.lt_of_lt_of_le (unsolved w inside).1 size)
    refine ((outlook.tame.zonk_firstOrder plainVar).under_fixed fun v inLeaves => ?_).symm
    refine if_neg fun inVars => ?_
    have different : w ≠ v := fun same => quantified (same ▸ inVars)
    exact (outlook.quantified_fixed sound member inVars).2 (unsolved w inside) different inLeaves

theorem yields_instantiate (sound : before.Sound) (member : scheme ∈ before.env.schemes) {ty : Ty}
    (run : Check.onSubst scheme.instantiate before = .ok ty after) :
    Yields before after [ty] fun final _ _ => (scheme.zonk final).Instance (final.zonk ty) := by
  have plain := sound.env.plain scheme member
  have resolved := sound.tame.zonk_firstOrder plain
  have unsolved := fun w inside => @Subst.Tame.unsolved_of_mem _ sound.tame _ plain w inside
  have live : ∀ {w : TyVar}, w ∈ (before.subst.zonk scheme.ty).leaves → w ∉ scheme.vars →
      before.env.Live before.subst w := fun inside free => ⟨scheme, member, inside, free⟩
  obtain ⟨rfl, rfl⟩ : ty = (scheme.instantiate before.subst).1 ∧
      after = { before with subst := (scheme.instantiate before.subst).2 } :=
    (EStateM.Result.ok.inj run).imp Eq.symm Eq.symm
  rw [Scheme.instantiate]
  cases vars : scheme.vars with
  | nil =>
    simp only [List.isEmpty_nil, if_true]
    refine sound.yields_grown sound.tame.grown_refl (fun ty inTypes => ?_)
      (fun ty inTypes v inside => .inl ?_) fun {final registry context} outlook => ?_
    · rw [List.mem_singleton.mp inTypes]
      exact resolved
    · rw [List.mem_singleton.mp inTypes, sound.tame.zonk_zonk plain] at inside
      exact live inside (by simp [vars])
    · have instance_ := outlook.isInstance sound member resolved unsolved
        (outlook.later.resolved plain).symm (fun w _ _ => rfl) fun w inside =>
          .var (unsolved w inside).1
      rwa [resolved.under_var] at instance_
  | cons first rest =>
    obtain ⟨grown, length, new⟩ := sound.tame.pushMany (first :: rest).length
    generalize before.subst.pushMany .unbound (first :: rest).length = pushed at grown length new
    obtain ⟨fresh, subst⟩ := pushed
    simp only [List.isEmpty_cons, Bool.false_eq_true, if_false, resolved.substitute_eq]
    rw [← vars] at length ⊢
    have lengths : (fresh.map Ty.var).length = scheme.vars.length := by rw [List.length_map, length]
    have inFresh : ∀ w ∈ scheme.vars, ∃ x ∈ fresh,
        (Assignment.ofLists scheme.vars (fresh.map .var)).image w = .var x := by
      intro w inVars
      obtain ⟨x, inside, same⟩ := List.mem_map.mp (Assignment.image_of_mem inVars lengths).1
      exact ⟨x, inside, same.symm⟩
    have plainImages : ∀ w ∈ (before.subst.zonk scheme.ty).leaves,
        ((Assignment.ofLists scheme.vars (fresh.map .var)).image w).FirstOrder subst.size := by
      intro w inside
      by_cases quantified : w ∈ scheme.vars
      · obtain ⟨x, isNew, same⟩ := inFresh w quantified
        rw [same]
        exact .var (new x isNew).2.1
      · rw [Assignment.image_of_not_mem quantified]
        exact .var (Nat.lt_of_lt_of_le (unsolved w inside).1 grown.size_le)
    refine sound.yields_grown grown (fun ty inTypes => ?_) (fun ty inTypes v inside => ?_)
      fun {final registry context} outlook => ?_
    · rw [List.mem_singleton.mp inTypes]
      exact resolved.under plainImages
    · rw [List.mem_singleton.mp inTypes, grown.tame.zonk_under resolved plainImages,
        resolved.mem_leaves_under] at inside
      obtain ⟨w, inLeaves, inImage⟩ := inside
      by_cases quantified : w ∈ scheme.vars
      · obtain ⟨x, isNew, same⟩ := inFresh w quantified
        rw [same, grown.tame.zonk_var_of_unsolved (new x isNew).2] at inImage
        rw [List.mem_singleton.mp inImage]
        exact .inr (new x isNew).1
      · rw [Assignment.image_of_not_mem quantified,
          grown.zonk sound.tame (.var (unsolved w inLeaves).1),
          sound.tame.zonk_var_of_unsolved (unsolved w inLeaves)] at inImage
        rw [List.mem_singleton.mp inImage]
        exact .inl (live inLeaves quantified)
    · have sound' : Sound { before with subst } := (@Sound.yields_grown before
        (fun _ _ _ => True) [] sound subst grown nofun nofun fun _ => trivial).advance.sound
      refine outlook.isInstance sound' member (resolved.mono grown.size_le) (fun w inside => ?_) ?_
        (fun w _ free => Assignment.image_of_not_mem free) plainImages
      · exact (unsolved w inside).of_cell sound.tame grown.size_le
          (grown.cells (unsolved w inside).1)
      · exact (((grown.later sound.tame).trans sound.tame outlook.later).resolved plain).symm

theorem openFlexible_firstOrder (sound : before.Sound) {ty opened : Ty} {span : Span}
    (plain : ty.FirstOrder before.subst.size)
    (run : Check.openFlexible ty span before = .ok opened after) :
    after = before ∧ opened.FirstOrder before.subst.size ∧
      before.subst.zonk opened = before.subst.zonk ty := by
  obtain ⟨-, run⟩ := Check.ending_bind_eq_ok.mp run
  obtain ⟨rfl, rfl⟩ := EStateM.Result.ok.inj run
  obtain ⟨head, same⟩ := sound.tame.shallow_firstOrder plain
  cases shape : before.subst.shallow ty with
  | quantified params body =>
    rw [shape] at head
    cases head
  | var _ | arrow _ _ | tuple _ | nominal _ _ | app _ _ =>
    rw [shape] at head same
    exact ⟨rfl, head, same⟩

end Schemes

end Session

end PolyCheck
