import PolyCheck.Proofs.Term.Evaluation
import PolyCheck.Proofs.Term.Typing

/-! Types of values. A function value has the type of its body in some scope, at some types for the
variables in it; the names of that scope then have values of all the types that their schemes give.
A value of a type shows the heads of that type, and what a pattern captures of it has the types that
the pattern gives to its names. -/
namespace PolyCheck

namespace Ty

mutual

theorem under_congr_leaves : ∀ (ty : Ty) {images images' : TyVar → Ty},
    (∀ v ∈ ty.leaves, images v = images' v) → ty.under images = ty.under images'
  | .var v, _, _, same => same v (List.mem_singleton_self v)
  | .arrow param result, _, _, same => by
    rw [under, under,
      under_congr_leaves param fun v member => same v (List.mem_append_left _ member),
      under_congr_leaves result fun v member => same v (List.mem_append_right _ member)]
  | .tuple elems, _, _, same => by rw [under, under, underAll_congr_leaves elems same]
  | .nominal _ args, _, _, same => by rw [under, under, underAll_congr_leaves args same]
  | .quantified params body, images, images', same => by
    rw [under, under]
    refine congrArg (Ty.quantified params) (under_congr_leaves body fun v member => ?_)
    rw [same v member]
  | .app head args, _, _, same => by
    rw [under, under,
      under_congr_leaves head fun v member => same v (List.mem_append_left _ member),
      underAll_congr_leaves args fun v member => same v (List.mem_append_right _ member)]

theorem underAll_congr_leaves : ∀ (types : List Ty) {images images' : TyVar → Ty},
    (∀ v ∈ leavesAll types, images v = images' v) → underAll images types = underAll images' types
  | [], _, _, _ => rfl
  | ty :: types, _, _, same => by
    rw [underAll, underAll,
      under_congr_leaves ty fun v member => same v (List.mem_append_left _ member),
      underAll_congr_leaves types fun v member => same v (List.mem_append_right _ member)]

end

end Ty

def SameOutside (vars : List TyVar) (images images' : TyVar → Ty) : Prop :=
  ∀ v, v ∉ vars → images' v = images v

inductive Value.Typed (subst : Subst) (registry : Registry) : Value → Ty → Prop where
  | bool {ty : Ty} (provided : registry.Provides .bool ty) (value : Bool) :
    Typed subst registry (.bool value) ty
  | int {ty : Ty} {width : Nat} {value : Int} (provided : registry.Provides (.int width) ty)
    (range : InWidth width value) : Typed subst registry (.int value) ty
  | str {ty : Ty} (provided : registry.Provides .str ty) (bytes : Bytes) :
    Typed subst registry (.str bytes) ty
  | tuple {elems : List Value} {types : List Ty} (length : elems.length = types.length)
    (each : ∀ entry ∈ elems.zip types, Typed subst registry entry.1 entry.2) :
    Typed subst registry (.tuple elems) (.tuple types)
  | ctor {id : TemplateId} {index : Nat} {dataCase : DataCase} {args : List Ty}
      {fields : List Value} (declares : registry.Declares id index dataCase args)
    (length : fields.length = (registry.fieldsAt id index args).length)
    (each : ∀ entry ∈ fields.zip (registry.fieldsAt id index args),
      Typed subst registry entry.1 entry.2) :
    Typed subst registry (.ctor index (Value.pack fields)) (.nominal id args)
  | closure {param : Name} {body : Term} {env : Bindings} {context : Context} {paramTy : Ty}
    {images : TyVar → Ty}
    (typed : Term.Typed subst registry (context.extend [(param, .mono paramTy)]) body)
    (values : ∀ name scheme value, context name = some scheme → env.value? name = some value →
      ∀ images', SameOutside scheme.vars images images' →
        Typed subst registry value (scheme.ty.under images')) :
    Typed subst registry (.closure param body env)
      (.arrow (paramTy.under images) (body.ty.under images))

/-- The names in scope have values of all the types that their schemes give. -/
def Bindings.Typed (subst : Subst) (registry : Registry) (images : TyVar → Ty) (context : Context)
    (env : Bindings) : Prop :=
  ∀ name scheme value, context name = some scheme → env.value? name = some value →
    ∀ images', SameOutside scheme.vars images images' →
      Value.Typed subst registry value (scheme.ty.under images')

variable {subst : Subst} {registry : Registry} {images : TyVar → Ty}

namespace Value

variable {value : Value} {ty : Ty}

theorem typed_tuple_iff {elems : List Value} {types : List Ty} :
    Typed subst registry (.tuple elems) (.tuple types) ↔
      List.Forall₂ (Typed subst registry) elems types := by
  rw [List.forall₂_iff_zip]
  constructor
  · intro typed
    cases typed with
    | tuple length each => exact ⟨length, fun {a b} member => each (a, b) member⟩
  · exact fun ⟨length, each⟩ => .tuple length fun entry member => each member

theorem Typed.tuple_inv {types : List Ty} (typed : Typed subst registry value (.tuple types)) :
    ∃ elems, value = .tuple elems ∧ List.Forall₂ (Typed subst registry) elems types := by
  generalize same : Ty.tuple types = ty at typed
  cases typed with
  | bool provided => obtain ⟨_, _, rfl, -⟩ := provided; cases same
  | int provided => obtain ⟨_, _, rfl, -⟩ := provided; cases same
  | str provided => obtain ⟨_, _, rfl, -⟩ := provided; cases same
  | tuple length each =>
    obtain rfl := Ty.tuple.inj same
    exact ⟨_, rfl, typed_tuple_iff.mp (.tuple length each)⟩
  | ctor _ _ _ => cases same
  | closure _ _ => cases same

theorem typed_ctor {id : TemplateId} {index : Nat} {dataCase : DataCase} {args : List Ty}
    {fields : List Value} (declares : registry.Declares id index dataCase args)
    (each : List.Forall₂ (Typed subst registry) fields (registry.fieldsAt id index args)) :
    Typed subst registry (.ctor index (pack fields)) (.nominal id args) := by
  obtain ⟨length, each⟩ := List.forall₂_iff_zip.mp each
  exact .ctor declares length fun entry member => each member

theorem Typed.ctor_inv {id : TemplateId} {index : Nat} {arg : Option Value} {args : List Ty}
    (typed : Typed subst registry (.ctor index arg) (.nominal id args)) :
    ∃ dataCase fields, registry.Declares id index dataCase args ∧ arg = pack fields ∧
      List.Forall₂ (Typed subst registry) fields (registry.fieldsAt id index args) := by
  cases typed with
  | ctor declares length each =>
    exact ⟨_, _, declares, rfl, List.forall₂_iff_zip.mpr ⟨length, fun member => each _ member⟩⟩

theorem Typed.arrow_inv {param result : Ty}
    (typed : Typed subst registry value (.arrow param result)) :
    ∃ name body env context paramTy images, value = .closure name body env ∧
      Term.Typed subst registry (Context.extend context [(name, .mono paramTy)]) body ∧
      Bindings.Typed subst registry images context env ∧ param = paramTy.under images ∧
      result = body.ty.under images := by
  generalize same : Ty.arrow param result = ty at typed
  cases typed with
  | bool provided => obtain ⟨_, _, rfl, -⟩ := provided; cases same
  | int provided => obtain ⟨_, _, rfl, -⟩ := provided; cases same
  | str provided => obtain ⟨_, _, rfl, -⟩ := provided; cases same
  | tuple _ _ => cases same
  | ctor _ _ _ => cases same
  | closure typed values =>
    obtain ⟨rfl, rfl⟩ := Ty.arrow.inj same
    exact ⟨_, _, _, _, _, _, rfl, typed, values, rfl, rfl⟩

theorem resolved_head (registry : Registry) {head : Ty} (resolved : subst.Resolved ty)
    (same : ty.under images = head) :
    Family.of ty subst registry = .unknown ∨
      match head with
      | .tuple types => ∃ elems, ty = .tuple elems ∧ types = elems.map (·.under images)
      | .nominal id args => ∃ params, ty = .nominal id params ∧ args = params.map (·.under images)
      | _ => True := by
  obtain ⟨plain, unsolved⟩ := resolved
  cases plain with
  | var _ => exact .inl (Pat.family_unsolved (unsolved _ (List.mem_singleton_self _)))
  | arrow _ _ => exact .inl (Pat.family_arrow subst registry _ _)
  | tuple _ =>
    rw [Ty.under, Ty.underAll_eq_map] at same
    subst same
    exact .inr ⟨_, rfl, rfl⟩
  | nominal _ =>
    rw [Ty.under, Ty.underAll_eq_map] at same
    subst same
    exact .inr ⟨_, rfl, rfl⟩

theorem provides_of_under {builtin : Builtin}
    (provided : registry.Provides builtin (ty.under images)) (resolved : subst.Resolved ty) :
    Family.of ty subst registry = .unknown ∨ registry.Provides builtin ty := by
  obtain ⟨id, template, same, known, rest⟩ := provided
  rcases resolved_head registry resolved same with unknown | ⟨params, rfl, none⟩
  · exact .inl unknown
  · obtain rfl := List.map_eq_nil_iff.mp none.symm
    exact .inr ⟨id, template, rfl, known, rest⟩

theorem resolved_elem {elems : List Ty} (resolved : subst.Resolved (.tuple elems)) {elem : Ty}
    (member : elem ∈ elems) : subst.Resolved elem := by
  obtain ⟨plain, unsolved⟩ := resolved
  cases plain with
  | tuple each =>
    exact ⟨each elem member,
      fun v inLeaves => unsolved v (Ty.mem_leavesAll.mpr ⟨elem, member, inLeaves⟩)⟩

theorem resolved_field {id : TemplateId} {index : Nat} {dataCase : DataCase} {args : List Ty}
    (resolved : subst.Resolved (.nominal id args)) (plain : registry.Plain)
    (declares : registry.Declares id index dataCase args) {field : Ty}
    (member : field ∈ registry.fieldsAt id index args) : subst.Resolved field := by
  obtain ⟨firstOrder, unsolved⟩ := resolved
  cases firstOrder with
  | nominal each =>
    obtain ⟨fieldPlain, leaves⟩ := declares.firstOrder_fieldsAt plain each member
    refine ⟨fieldPlain, fun v inLeaves => ?_⟩
    obtain ⟨arg, inArgs, inArg⟩ := leaves v inLeaves
    exact unsolved v (Ty.mem_leavesAll.mpr ⟨arg, inArgs, inArg⟩)

theorem declares_of_map {id : TemplateId} {index : Nat} {dataCase : DataCase} {args : List Ty}
    {change : Ty → Ty} (declares : registry.Declares id index dataCase (args.map change)) :
    registry.Declares id index dataCase args := by
  obtain ⟨template, known, declared, inside, length⟩ := declares
  exact ⟨template, known, declared, inside, by rwa [List.length_map] at length⟩

theorem Typed.hasType (plain : registry.Plain) {whole : Ty}
    (typed : Typed subst registry value whole) :
    ∀ {ty : Ty}, subst.Resolved ty → ty.under images = whole → value.HasType subst registry ty := by
  induction typed with
  | bool provided value =>
    rintro ty resolved rfl
    rcases provides_of_under provided resolved with unknown | provided
    · exact .unknown unknown _
    · exact .bool (Pat.family_provided provided) value
  | int provided range =>
    rintro ty resolved rfl
    rcases provides_of_under provided resolved with unknown | provided
    · exact .unknown unknown _
    · exact .int (Pat.family_provided provided) range
  | str provided bytes =>
    rintro ty resolved rfl
    rcases provides_of_under provided resolved with unknown | provided
    · exact .unknown unknown _
    · exact .str (Pat.family_provided provided) bytes
  | @tuple elems types length each ih =>
    intro ty resolved same
    rcases resolved_head registry resolved same with unknown | ⟨parts, rfl, rfl⟩
    · exact .unknown unknown _
    · rw [List.length_map] at length
      refine .tuple (Pat.family_tuple subst registry parts) (List.forall₂_iff_zip.mpr ⟨length, ?_⟩)
      intro elem part member
      refine ih (elem, part.under images) ?_ (resolved_elem resolved (List.of_mem_zip member).2) rfl
      rw [List.zip_map_right]
      exact List.mem_map_of_mem member
  | @ctor id index dataCase args fields declares length each ih =>
    intro ty resolved same
    rcases resolved_head registry resolved same with unknown | ⟨params, rfl, rfl⟩
    · exact .unknown unknown _
    · have declares' := declares_of_map declares
      rw [declares'.fieldsAt_under plain images, List.length_map] at length
      rw [declares'.fieldsAt_under plain images, List.zip_map_right] at ih
      refine .ctor (Pat.family_declared declares') (Family.lt_of_case? declares'.case?)
        (List.forall₂_iff_zip.mpr ⟨length, fun {field part} member => ?_⟩)
      exact ih (field, part.under images) (List.mem_map_of_mem member)
        (resolved_field resolved plain declares' (List.of_mem_zip member).2) rfl
  | closure _ _ =>
    intro ty resolved same
    obtain ⟨firstOrder, unsolved⟩ := resolved
    cases firstOrder with
    | var _ => exact .unknown (Pat.family_unsolved (unsolved _ (List.mem_singleton_self _))) _
    | arrow _ _ => exact .unknown (Pat.family_arrow subst registry _ _) _
    | tuple _ => cases same
    | nominal _ => cases same

end Value

namespace Pat

/-- Names with values of the types that go with them. -/
def Captured (subst : Subst) (registry : Registry) (images : TyVar → Ty)
    (captures : List (Name × Ty)) (bindings : Bindings) : Prop :=
  ∀ entry ∈ bindings, ∃ ty, (entry.1, ty) ∈ captures ∧
    Value.Typed subst registry entry.2 (ty.under images)

theorem Captured.mono {captures captures' : List (Name × Ty)} {bindings : Bindings}
    (captured : Captured subst registry images captures bindings)
    (more : ∀ capture ∈ captures, capture ∈ captures') :
    Captured subst registry images captures' bindings := by
  intro entry member
  obtain ⟨ty, known, typed⟩ := captured entry member
  exact ⟨ty, more _ known, typed⟩

mutual

theorem Typed.captures_typed (plain : registry.Plain) :
    ∀ {p : Pat} {ty : Ty} {captures : List (Name × Ty)} {value : Value} {bindings : Bindings},
      Typed registry p ty captures → Value.Typed subst registry value (ty.under images) →
        p.match? value = some bindings → Captured subst registry images captures bindings
  | .wild _, ty, _, value, bindings, typed, valued, found => by
    rw [match?_wild] at found
    obtain rfl := Option.some.inj found
    cases typed with
    | any => exact nofun
    | capturing =>
      intro entry member
      obtain rfl := List.mem_singleton.mp member
      exact ⟨ty, List.mem_singleton_self _, valued⟩
  | .bool _, _, _, value, bindings, _, _, found => by
    cases value <;> simp only [match?, reduceCtorEq, Option.ite_none_right_eq_some] at found
    obtain rfl := Option.some.inj found.2
    exact nofun
  | .int _ _, _, _, value, bindings, _, _, found => by
    cases value <;> simp only [match?, reduceCtorEq, Option.ite_none_right_eq_some] at found
    obtain rfl := Option.some.inj found.2
    exact nofun
  | .str _, _, _, value, bindings, _, _, found => by
    cases value <;> simp only [match?, reduceCtorEq, Option.ite_none_right_eq_some] at found
    obtain rfl := Option.some.inj found.2
    exact nofun
  | .tuple _, _, _, value, bindings, typed, valued, found => by
    cases typed with
    | tuple each =>
      rw [Ty.under, Ty.underAll_eq_map] at valued
      cases value <;> simp only [match?, reduceCtorEq] at found
      exact TypedAll.captures_typed plain each (Value.typed_tuple_iff.mp valued) found
  | .ctor _ _ _ args, _, _, value, bindings, typed, valued, found => by
    cases typed with
    | ctor declares each =>
      rw [Ty.under, Ty.underAll_eq_map] at valued
      cases value <;> simp only [match?, reduceCtorEq, Option.ite_none_right_eq_some] at found
      obtain ⟨rfl, found⟩ := found
      obtain ⟨_, fields, -, rfl, fieldsTyped⟩ := valued.ctor_inv
      rw [declares.fieldsAt_under plain images] at fieldsTyped
      have length : args.length = fields.length := by
        rw [fieldsTyped.length_eq, List.length_map, (TypedAll.hasType subst each).length_eq]
      rw [length, Value.unpack_pack, Option.bind_some] at found
      exact TypedAll.captures_typed plain each fieldsTyped found
  | .oneOf [], _, _, _, _, _, _, found => by simp [match?, matchFirst?] at found
  | .oneOf (_ :: _), _, _, value, bindings, typed, valued, found => by
    cases typed with
    | oneOf here others =>
      rw [match?, matchFirst?, Option.or_eq_some_iff] at found
      rcases found with found | ⟨-, found⟩
      · exact Typed.captures_typed plain here valued found
      · exact TypedChoice.captures_typed plain others valued found

theorem TypedAll.captures_typed (plain : registry.Plain) :
    ∀ {ps : List Pat} {types : List Ty} {captures : List (Name × Ty)} {values : List Value}
      {bindings : Bindings}, TypedAll registry ps types captures →
        List.Forall₂ (Value.Typed subst registry) values (types.map (·.under images)) →
          matchAll? ps values = some bindings → Captured subst registry images captures bindings
  | [], _, _, values, bindings, typed, valued, found => by
    cases typed
    cases valued
    obtain rfl := Option.some.inj found
    exact nofun
  | _ :: _, _, _, values, bindings, typed, valued, found => by
    cases typed with
    | cons first rest =>
      cases valued with
      | cons here others =>
        simp only [matchAll?, Option.bind_eq_bind, Option.bind_eq_some_iff] at found
        obtain ⟨own, foundFirst, more, foundRest, found⟩ := found
        obtain rfl := Option.some.inj found
        have firstCaptured := Typed.captures_typed plain first here foundFirst
        have restCaptured := TypedAll.captures_typed plain rest others foundRest
        intro entry member
        rcases List.mem_append.mp member with inFirst | inRest
        · exact firstCaptured.mono (fun _ => List.mem_append_left _) entry inFirst
        · exact restCaptured.mono (fun _ => List.mem_append_right _) entry inRest

theorem TypedChoice.captures_typed (plain : registry.Plain) :
    ∀ {ps : List Pat} {ty : Ty} {captures : List (Name × Ty)} {value : Value} {bindings : Bindings},
      TypedChoice registry ps ty captures → Value.Typed subst registry value (ty.under images) →
        matchFirst? ps value = some bindings → Captured subst registry images captures bindings
  | [], _, _, _, _, _, _, found => by simp [matchFirst?] at found
  | _ :: _, _, _, value, bindings, typed, valued, found => by
    cases typed with
    | cons first same rest =>
      rw [matchFirst?, Option.or_eq_some_iff] at found
      rcases found with found | ⟨-, found⟩
      · exact (Typed.captures_typed plain first valued found).mono fun _ member =>
          same.mem_iff.mp member
      · exact TypedChoice.captures_typed plain rest valued found

end

end Pat

end PolyCheck
