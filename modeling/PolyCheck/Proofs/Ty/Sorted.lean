import PolyCheck.Proofs.Ty.Kinded

/-! Types where every variable has one kind, wherever it occurs, and quantifiers bind variables of
the kinds that they may bind. Names are not changed when types are put in place of variables; as a
variable that is caught by a quantifier keeps its kind, the type keeps its kind too, and a function
on types that is applied gives a type of the kind of its result. -/
namespace PolyCheck

theorem getElem_mem_zip {α β : Type} {items : List α} {marks : List β} {index : Nat}
    (inside : index < items.length)
    (inside' : index < marks.length) : (items[index], marks[index]) ∈ items.zip marks := by
  refine List.mem_iff_getElem.mpr ⟨index, ?_, List.getElem_zip⟩
  rw [List.length_zip]
  exact Nat.lt_min.mpr ⟨inside, inside'⟩

theorem Assignment.image_entry (vars : List TyVar) (types : List Ty) (v : TyVar) :
    (v, (Assignment.ofLists vars types).image v) ∈ vars.zip types ∨
    (Assignment.ofLists vars types).image v = .var v := by
  cases found : (Assignment.ofLists vars types).lookup v with
  | none => exact .inr (by rw [image, found, Option.getD_none])
  | some ty =>
    obtain ⟨first, rest, split, -⟩ := List.lookup_eq_some_iff.mp found
    have entry : (v, ty) ∈ Assignment.ofLists vars types := by
      rw [split]
      exact List.mem_append_right first List.mem_cons_self
    rw [image, found, Option.getD_some]
    exact .inl (List.mem_reverse.mp entry)

namespace Kind

variable {params others : List Kind} {result other : Kind}

theorem function_prefix (same : function params result = function others other)
    (le : params.length ≤ others.length) :
    ∃ rest, others = params ++ rest ∧ result = function rest other := by
  induction params generalizing others with
  | nil => exact ⟨others, rfl, same⟩
  | cons param params ih =>
    cases others with
    | nil => exact absurd le (Nat.not_succ_le_zero _)
    | cons first others =>
      obtain ⟨rfl, results⟩ := Kind.arrow.inj same
      obtain ⟨rest, rfl, rfl⟩ := ih results (Nat.le_of_succ_le_succ le)
      exact ⟨rest, rfl, rfl⟩

theorem function_getElem (same : function params result = function others other) {index : Nat}
    (inside : index < params.length) (inside' : index < others.length) :
      params[index] = others[index] := by
  induction params generalizing others index with
  | nil => exact absurd inside (Nat.not_lt_zero _)
  | cons param params ih =>
    cases others with
    | nil => exact absurd inside' (Nat.not_lt_zero _)
    | cons first others =>
      obtain ⟨rfl, results⟩ := Kind.arrow.inj same
      cases index with
      | zero => rfl
      | succ index =>
        exact ih results (Nat.lt_of_succ_lt_succ inside) (Nat.lt_of_succ_lt_succ inside')

theorem function_append (params others : List Kind) (result : Kind) :
    function (params ++ others) result = function params (function others result) :=
  List.foldr_append

end Kind

namespace Ty

variable {binds : Kind → Prop} {declared : TemplateId → Option (List Kind)} {kinds : TyVar → Kind}
  {ty head : Ty} {kind : Kind}

/-- The kind system with one kind for every variable, whether it is free or bound. -/
inductive Sorted (binds : Kind → Prop) (declared : TemplateId → Option (List Kind))
    (kinds : TyVar → Kind) : Ty → Kind → Prop where
  | var (v : TyVar) : Sorted binds declared kinds (.var v) (kinds v)
  | arrow {param result : Ty} (fst : Sorted binds declared kinds param .star)
      (snd : Sorted binds declared kinds result .star) :
    Sorted binds declared kinds (.arrow param result) .star
  | tuple {elems : List Ty} (each : ∀ t ∈ elems, Sorted binds declared kinds t .star) :
    Sorted binds declared kinds (.tuple elems) .star
  | nominal {id : TemplateId} {args : List Ty} {params : List Kind}
      (known : declared id = some params)
    (length : args.length = params.length) (each : ∀ entry ∈ args.zip params,
      Sorted binds declared kinds entry.1 entry.2) :
    Sorted binds declared kinds (.nominal id args) .star
  | quantified {params : List TyVar} {body : Ty} (bound : ∀ v ∈ params, binds (kinds v))
    (inside : Sorted binds declared kinds body .star) :
    Sorted binds declared kinds (.quantified params body) .star
  | function {params : List TyVar} {body : Ty} {kind : Kind}
      (inside : Sorted binds declared kinds body kind) :
    Sorted binds declared kinds (.quantified params body) (.function (params.map kinds) kind)
  | app {head : Ty} {args : List Ty} {params : List Kind} {kind : Kind}
    (fst : Sorted binds declared kinds head (.function params kind))
      (length : args.length = params.length)
    (each : ∀ entry ∈ args.zip params, Sorted binds declared kinds entry.1 entry.2) :
    Sorted binds declared kinds (.app head args) kind

namespace Sorted

theorem hasKind (sorted : ty.Sorted binds declared kinds kind) :
    ty.HasKind declared kinds kind := by
  induction sorted with
  | var v => exact .var v
  | arrow _ _ fst snd => exact .arrow fst snd
  | tuple _ each => exact .tuple each
  | nominal known length _ each => exact .nominal known length each
  | quantified _ _ inside => exact .quantified (fun _ _ => rfl) inside
  | function _ inside => exact .function (fun _ _ => rfl) inside
  | app _ length _ fst each => exact .app fst length each

theorem var_inv {v : TyVar} (sorted : (Ty.var v).Sorted binds declared kinds kind) :
    kind = kinds v := by
  cases sorted
  rfl

theorem quantified_inv {params : List TyVar} {body : Ty} {first : Kind} {rest : List Kind}
    (sorted : (Ty.quantified params body).Sorted binds declared kinds
      (.function (first :: rest) kind)) :
    ∃ result, Kind.function (first :: rest) kind = .function (params.map kinds) result ∧
      body.Sorted binds declared kinds result := by
  generalize whole : Kind.function (first :: rest) kind = expected at sorted
  cases sorted with
  | quantified _ _ => cases whole
  | function inside => exact ⟨_, rfl, inside⟩

theorem app_inv {args : List Ty} (sorted : (Ty.app head args).Sorted binds declared kinds kind) :
    ∃ params, head.Sorted binds declared kinds (.function params kind) ∧
      args.length = params.length ∧
      ∀ entry ∈ args.zip params, entry.1.Sorted binds declared kinds entry.2 := by
  cases sorted with
  | app fst length each => exact ⟨_, fst, length, each⟩

theorem mem_zip_append {α β : Type} {args : List α} {params rest : List β} {entry : α × β}
    (member : entry ∈ args.zip params) : entry ∈ args.zip (params ++ rest) := by
  obtain ⟨index, inside, rfl⟩ := List.getElem_of_mem member
  rw [List.length_zip] at inside
  refine List.mem_iff_getElem.mpr ⟨index, ?_, ?_⟩
  · rw [List.length_zip, List.length_append]
    omega
  · rw [List.getElem_zip, List.getElem_zip, List.getElem_append_left]

theorem zip_substituteAll {assignment : Assignment} {args : List Ty} {params : List Kind}
    (each : ∀ entry ∈ args.zip params,
      (entry.1.substitute assignment).Sorted binds declared kinds entry.2) :
    ∀ entry ∈ (args.map (Ty.substitute assignment)).zip params,
      entry.1.Sorted binds declared kinds entry.2 := by
  rw [List.zip_map_left]
  exact List.forall_mem_map.mpr each

/-- Types of the kinds of the variables may take their places, whatever is caught by a
quantifier. -/
theorem substitute {assignment : Assignment} (sorted : ty.Sorted binds declared kinds kind)
    (images : ∀ v, (assignment.image v).Sorted binds declared kinds (kinds v)) :
    (ty.substitute assignment).Sorted binds declared kinds kind := by
  have within : ∀ {assignment : Assignment} (params : List TyVar),
      (∀ v, (assignment.image v).Sorted binds declared kinds (kinds v)) →
        ∀ v, ((assignment.without params).image v).Sorted binds declared kinds (kinds v) := by
    intro assignment params images v
    rw [Assignment.image_without]
    split
    · exact .var v
    · exact images v
  induction sorted generalizing assignment with
  | var v => exact images v
  | arrow _ _ fst snd => exact .arrow (fst images) (snd images)
  | tuple _ each =>
    rw [Ty.substitute, substituteAll_eq_map]
    exact .tuple (List.forall_mem_map.mpr fun t member => each t member images)
  | nominal known length _ each =>
    rw [Ty.substitute, substituteAll_eq_map]
    exact .nominal known (by rwa [List.length_map]) (zip_substituteAll fun entry member =>
      each entry member images)
  | quantified bound _ inside => exact .quantified bound (inside (within _ images))
  | function _ inside => exact .function (inside (within _ images))
  | app _ length _ fst each =>
    rw [Ty.substitute, substituteAll_eq_map]
    exact .app (fst images) (by rwa [List.length_map]) (zip_substituteAll fun entry member =>
      each entry member images)

theorem substitute_ofLists {vars : List TyVar} {types : List Ty}
    (sorted : ty.Sorted binds declared kinds kind)
    (each : ∀ entry ∈ types.zip (vars.map kinds), entry.1.Sorted binds declared kinds entry.2) :
    (ty.substitute (.ofLists vars types)).Sorted binds declared kinds kind := by
  refine sorted.substitute fun v => ?_
  rcases Assignment.image_entry vars types v with member | same
  · refine each (_, kinds v) ?_
    rw [List.zip_map_right, ← List.zip_swap, List.map_map]
    exact List.mem_map.mpr ⟨_, member, rfl⟩
  · exact same ▸ .var v

theorem apply {args : List Ty} {params : List Kind}
    (sorted : head.Sorted binds declared kinds (.function params kind))
    (length : args.length = params.length)
    (each : ∀ entry ∈ args.zip params, entry.1.Sorted binds declared kinds entry.2) :
    (head.apply args).Sorted binds declared kinds kind := by
  fun_induction Ty.apply head args generalizing params with
  | case1 head =>
    obtain rfl := List.length_eq_zero_iff.mp length.symm
    exact sorted
  | case2 body args some ih =>
    cases params with
    | nil => exact absurd (List.length_eq_zero_iff.mp length) some
    | cons first rest =>
      obtain ⟨result, same, inside⟩ := sorted.quantified_inv
      rw [List.map_nil] at same
      exact ih (same ▸ inside) length each
  | case3 p ps body a as result =>
    rename_i fewer
    cases params with
    | nil => cases length
    | cons first rest =>
      obtain ⟨outcome, same, inside⟩ := sorted.quantified_inv
      have shorter : (first :: rest).length ≤ ((p :: ps).map kinds).length := by
        rw [List.length_map, ← length]
        exact Nat.le_of_lt fewer
      obtain ⟨others, taken, rfl⟩ := Kind.function_prefix same shorter
      have remain : others = ((p :: ps).drop (a :: as).length).map kinds := by
        rw [List.map_drop, taken, length, List.drop_left]
      rw [remain]
      refine .function (inside.substitute_ofLists fun entry member => each entry ?_)
      rwa [taken, ← List.append_nil (a :: as), List.zip_append length, List.zip_nil_left,
        List.append_nil] at member
  | case4 p ps body a as result =>
    rename_i enough ih
    cases params with
    | nil => cases length
    | cons first rest =>
      obtain ⟨outcome, same, inside⟩ := sorted.quantified_inv
      have longer : ((p :: ps).map kinds).length ≤ (first :: rest).length := by
        rw [List.length_map, ← length]
        exact Nat.le_of_not_lt enough
      obtain ⟨others, taken, rfl⟩ := Kind.function_prefix same.symm longer
      rw [taken] at length each
      have reached : ((a :: as).take (p :: ps).length).length = ((p :: ps).map kinds).length := by
        rw [List.length_take, List.length_map]
        exact Nat.min_eq_left (Nat.le_of_not_lt enough)
      refine ih (inside.substitute_ofLists fun entry member =>
        each entry (mem_zip_append member)) ?_ ?_
      · rw [List.length_append, List.length_map] at length
        rw [List.length_drop, length, Nat.add_sub_cancel_left]
      · intro entry member
        refine each entry ?_
        rw [← List.take_append_drop (p :: ps).length (a :: as), List.zip_append reached]
        exact List.mem_append_right _ member
  | case5 inner firsts args some =>
    obtain ⟨others, fst, length', each'⟩ := sorted.app_inv
    rw [← Kind.function_append] at fst
    refine .app fst (by rw [List.length_append, List.length_append, length, length']) ?_
    rw [List.zip_append length']
    exact List.forall_mem_append.mpr ⟨each', each⟩
  | case6 head args some _ _ _ => exact .app sorted length each

end Sorted

end Ty

end PolyCheck
