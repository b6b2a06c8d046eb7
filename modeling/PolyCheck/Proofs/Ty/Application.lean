import PolyCheck.Proofs.Ty.Confined

/-! Functions on types take their arguments one after another or all at once. Since names are not
changed when types are put in place of variables, the two agree only as long as the first arguments
do not mention a parameter that still waits for its own argument: they would be caught by its
quantifier. -/
namespace PolyCheck

/-- The variable has no type to be replaced by. -/
def Assignment.Leaves (assignment : Assignment) (v : TyVar) : Prop := assignment.lookup v = none

theorem Assignment.Leaves.without {assignment : Assignment} {v : TyVar}
    (leaves : assignment.Leaves v) (vars : List TyVar) : (assignment.without vars).Leaves v := by
  rw [Leaves, List.lookup_eq_none_iff] at leaves ⊢
  exact fun entry member => leaves entry (List.mem_of_mem_filter member)

theorem Assignment.leaves_without {assignment : Assignment} {vars : List TyVar} {v : TyVar}
    (hidden : v ∈ vars) : (assignment.without vars).Leaves v := by
  rw [Leaves, List.lookup_eq_none_iff]
  rintro ⟨w, ty⟩ member
  have visible := (List.mem_filter.mp member).2
  refine bne_iff_ne.mpr fun same => ?_
  simp only at same
  subst same
  simp [hidden] at visible

theorem Assignment.leaves_ofLists {vars : List TyVar} {types : List Ty} {v : TyVar}
    (absent : v ∉ vars.take types.length) : (Assignment.ofLists vars types).Leaves v := by
  rw [Leaves, List.lookup_eq_none_iff]
  rintro ⟨w, ty⟩ member
  refine bne_iff_ne.mpr fun same => absent (same ▸ ?_)
  rw [ofLists, List.zip_eq_zip_take_min, List.mem_reverse] at member
  exact (List.take_sublist_take_left (Nat.min_le_right _ _)).subset (List.of_mem_zip member).1

namespace Ty

def Spared (vars : List TyVar) (types : List Ty) : Prop :=
  ∀ ty ∈ types, ty.Confined (fun _ => True) fun v => v ∉ vars

/-- No quantifier in the type lists a parameter twice. -/
inductive Distinct : Ty → Prop where
  | var {v : TyVar} : Distinct (.var v)
  | arrow {param result : Ty} : Distinct param → Distinct result → Distinct (.arrow param result)
  | tuple {elems : List Ty} : (∀ t ∈ elems, Distinct t) → Distinct (.tuple elems)
  | nominal {template : TemplateId} {args : List Ty} : (∀ t ∈ args, Distinct t) →
      Distinct (.nominal template args)
  | quantified {params : List TyVar} {body : Ty} : params.Nodup → Distinct body →
      Distinct (.quantified params body)
  | app {head : Ty} {args : List Ty} : Distinct head → (∀ t ∈ args, Distinct t) →
      Distinct (.app head args)

variable {binder free : TyVar → Prop} {ty : Ty} {first second both : Assignment}

theorem Distinct.substitute (distinct : ty.Distinct) {assignment : Assignment}
    (images : ∀ v, (assignment.image v).Distinct) : (ty.substitute assignment).Distinct := by
  induction distinct generalizing assignment with
  | var => exact images _
  | arrow _ _ ihParam ihResult => exact .arrow (ihParam images) (ihResult images)
  | tuple _ ih =>
    rw [Ty.substitute, substituteAll_eq_map]
    exact .tuple (List.forall_mem_map.mpr fun t member => ih t member images)
  | nominal _ ih =>
    rw [Ty.substitute, substituteAll_eq_map]
    exact .nominal (List.forall_mem_map.mpr fun t member => ih t member images)
  | quantified params _ ih =>
    refine .quantified params (ih fun v => ?_)
    rw [Assignment.image_without]
    split
    · exact .var
    · exact images v
  | app _ _ ihHead ih =>
    rw [Ty.substitute, substituteAll_eq_map]
    exact .app (ihHead images) (List.forall_mem_map.mpr fun t member => ih t member images)

theorem distinct_image_ofLists {vars : List TyVar} {types : List Ty}
    (each : ∀ t ∈ types, t.Distinct) (v : TyVar) :
    ((Assignment.ofLists vars types).image v).Distinct := by
  rcases Assignment.image_cases vars types v with member | ⟨same, -⟩
  · exact each _ member
  · rw [same]
    exact .var

theorem Confined.substitute_eq (confined : ty.Confined binder free) {assignment : Assignment}
    (leaves : ∀ v, free v → assignment.Leaves v) : ty.substitute assignment = ty := by
  induction confined generalizing assignment with
  | var holds => rw [Ty.substitute, leaves _ holds, Option.getD_none]
  | arrow _ _ ihParam ihResult => rw [Ty.substitute, ihParam leaves, ihResult leaves]
  | tuple _ ih =>
    rw [Ty.substitute, substituteAll_eq_map, List.map_congr_left fun t member => ih t member leaves,
      List.map_id']
  | nominal _ ih =>
    rw [Ty.substitute, substituteAll_eq_map, List.map_congr_left fun t member => ih t member leaves,
      List.map_id']
  | quantified _ _ ih =>
    rw [Ty.substitute, ih fun v shown => shown.elim (fun shown => (leaves v shown).without _)
      Assignment.leaves_without]
  | app _ _ ihHead ih =>
    rw [Ty.substitute, substituteAll_eq_map, ihHead leaves,
      List.map_congr_left fun t member => ih t member leaves, List.map_id']

/-- Of two assignments one after the other, the second leaves alone what the first puts in place;
together they do what a third does. -/
def Assignment.Then (first second both : Assignment) : Prop :=
  ∀ v, (both.image v = first.image v ∧ (first.image v).Confined (fun _ => True) second.Leaves) ∨
    (first.image v = .var v ∧ both.image v = second.image v)

theorem Assignment.Then.without (composed : Assignment.Then first second both) (vars : List TyVar) :
    Assignment.Then (first.without vars) (second.without vars) (both.without vars) := by
  intro v
  rw [Assignment.image_without, Assignment.image_without, Assignment.image_without]
  by_cases hidden : v ∈ vars
  · rw [if_pos hidden, if_pos hidden, if_pos hidden]
    exact .inr ⟨rfl, rfl⟩
  · rw [if_neg hidden, if_neg hidden, if_neg hidden]
    exact (composed v).imp_left fun ⟨same, confined⟩ =>
      ⟨same, confined.imp fun w leaves => leaves.without vars⟩

mutual

theorem substitute_substitute : ∀ (ty : Ty) {first second both : Assignment},
    Assignment.Then first second both → (ty.substitute first).substitute second = ty.substitute both
  | .var v, first, second, both, composed => by
    change (first.image v).substitute second = both.image v
    rcases composed v with ⟨same, confined⟩ | ⟨same, same'⟩
    · rw [confined.substitute_eq fun _ => id, same]
    · rw [same, same']
      rfl
  | .arrow param result, _, _, _, composed => by
    rw [substitute, substitute, substitute, substitute_substitute param composed,
      substitute_substitute result composed]
  | .tuple elems, _, _, _, composed => by
    rw [substitute, substitute, substitute, substituteAll_substituteAll elems composed]
  | .nominal _ args, _, _, _, composed => by
    rw [substitute, substitute, substitute, substituteAll_substituteAll args composed]
  | .quantified params body, _, _, _, composed => by
    rw [substitute, substitute, substitute, substitute_substitute body (composed.without params)]
  | .app head args, _, _, _, composed => by
    rw [substitute, substitute, substitute, substitute_substitute head composed,
      substituteAll_substituteAll args composed]

theorem substituteAll_substituteAll : ∀ (types : List Ty) {first second both : Assignment},
    Assignment.Then first second both →
    substituteAll second (substituteAll first types) = substituteAll both types
  | [], _, _, _, _ => rfl
  | ty :: types, _, _, _, composed => by
    rw [substituteAll, substituteAll, substituteAll, substitute_substitute ty composed,
      substituteAll_substituteAll types composed]

end

section Lists

variable {params : List TyVar} {xs ys : List Ty}

theorem ofLists_append (fewer : xs.length ≤ params.length) : Assignment.ofLists params (xs ++ ys) =
    Assignment.ofLists (params.drop xs.length) ys ++ Assignment.ofLists params xs := by
  have halves : params.zip (xs ++ ys) = params.zip xs ++ (params.drop xs.length).zip ys := by
    induction xs generalizing params with
    | nil => simp
    | cons x xs ih =>
      cases params with
      | nil => simp at fewer
      | cons p params =>
        simp only [List.cons_append, List.zip_cons_cons, List.length_cons, List.drop_succ_cons]
        rw [ih (Nat.le_of_succ_le_succ fewer)]
  rw [Assignment.ofLists, halves, List.reverse_append]
  rfl

theorem ofLists_enough (enough : params.length ≤ xs.length) :
    Assignment.ofLists params (xs ++ ys) = Assignment.ofLists params xs := by
  refine congrArg List.reverse ?_
  induction params generalizing xs with
  | nil => rfl
  | cons p params ih =>
    obtain ⟨x, xs, rfl⟩ :=
      List.exists_cons_of_length_pos (Nat.lt_of_lt_of_le (Nat.succ_pos _) enough)
    rw [List.cons_append, List.zip_cons_cons, List.zip_cons_cons,
      ih (Nat.le_of_succ_le_succ enough)]

theorem then_ofLists (distinct : params.Nodup) (fewer : xs.length ≤ params.length)
    (spared : Spared (params.drop xs.length) xs) :
    Assignment.Then (.ofLists params xs) (.ofLists (params.drop xs.length) ys)
    (.ofLists params (xs ++ ys)) := by
  intro v
  have looked : (Assignment.ofLists params (xs ++ ys)).image v =
      (((Assignment.ofLists (params.drop xs.length) ys).lookup v).or
        ((Assignment.ofLists params xs).lookup v)).getD (.var v) := by
    rw [Assignment.image, ofLists_append fewer, List.lookup_append]
  rw [looked]
  by_cases taken : v ∈ params.take xs.length
  · have member := (Assignment.image_cases params xs v).resolve_right fun untaken => untaken.2 taken
    have absent : v ∉ params.drop xs.length := fun dropped => by
      rw [← List.take_append_drop xs.length params] at distinct
      exact List.disjoint_of_nodup_append distinct taken dropped
    have leaves : ∀ w ∉ params.drop xs.length,
        (Assignment.ofLists (params.drop xs.length) ys).Leaves w :=
      fun w absent => Assignment.leaves_ofLists fun member => absent (List.mem_of_mem_take member)
    rw [leaves v absent, Option.none_or]
    exact .inl ⟨rfl, (spared _ member).imp leaves⟩
  · have leaves : (Assignment.ofLists params xs).Leaves v := Assignment.leaves_ofLists taken
    rw [Assignment.image, leaves, Option.or_none]
    exact .inr ⟨rfl, rfl⟩

end Lists

section Apply

variable {head body : Ty} {params : List TyVar} {xs ys : List Ty}

@[simp] theorem apply_nil (head : Ty) : head.apply [] = head := by
  rw [apply]

theorem apply_unquantified (given : xs ≠ []) : (quantified [] body).apply xs = body.apply xs := by
  rw [apply]
  exact given

theorem apply_fewer (given : xs ≠ []) (fewer : xs.length < params.length) :
    (quantified params body).apply xs =
    quantified (params.drop xs.length) (body.substitute (.ofLists params xs)) := by
  obtain ⟨x, xs, rfl⟩ := List.exists_cons_of_ne_nil given
  obtain ⟨p, ps, rfl⟩ := List.exists_cons_of_length_pos (Nat.lt_of_le_of_lt (Nat.zero_le _) fewer)
  rw [apply, if_pos fewer]

theorem apply_enough (taken : params ≠ []) (enough : params.length ≤ xs.length) :
    (quantified params body).apply xs =
    (body.substitute (.ofLists params xs)).apply (xs.drop params.length) := by
  obtain ⟨p, ps, rfl⟩ := List.exists_cons_of_ne_nil taken
  obtain ⟨x, xs, rfl⟩ := List.exists_cons_of_length_pos (Nat.lt_of_lt_of_le (Nat.succ_pos _) enough)
  rw [apply, if_neg (Nat.not_lt.mpr enough)]

theorem apply_waiting (once : params.Nodup) (given : xs ≠ []) (fewer : xs.length < params.length)
    (spared : Spared (params.drop xs.length) xs) :
    (quantified (params.drop xs.length) (body.substitute (.ofLists params xs))).apply ys =
      (quantified params body).apply (xs ++ ys) := by
  have composed : Assignment.Then (.ofLists params xs) (.ofLists (params.drop xs.length) ys)
      (.ofLists params (xs ++ ys)) := then_ofLists once (Nat.le_of_lt fewer) spared
  have given' : xs ++ ys ≠ [] := fun none_ => given (List.append_eq_nil_iff.mp none_).1
  have size : (xs ++ ys).length = xs.length + ys.length := List.length_append
  have waiting := List.length_drop (i := xs.length) (l := params)
  rcases eq_or_ne ys [] with rfl | further
  · rw [apply_nil, List.append_nil, apply_fewer given fewer]
  rcases Nat.lt_or_ge ys.length (params.drop xs.length).length with fewer' | enough
  · rw [apply_fewer further fewer', apply_fewer given' (by omega),
      substitute_substitute body composed, List.drop_drop, size]
  · have taken : params.drop xs.length ≠ [] := List.ne_nil_of_length_pos (by omega)
    have taken' : params ≠ [] := List.ne_nil_of_length_pos (by omega)
    rw [apply_enough taken enough, apply_enough taken' (by omega),
      substitute_substitute body composed, waiting, List.drop_append]
    rw [List.drop_eq_nil_of_le (Nat.le_of_lt fewer), List.nil_append]

theorem Distinct.apply (distinct : head.Distinct) (each : ∀ x ∈ xs, x.Distinct) :
    (head.apply xs).Distinct := by
  fun_induction Ty.apply head xs with
  | case1 head => exact distinct
  | case2 body args given ih =>
    cases distinct with
    | quantified _ inside => exact ih inside each
  | case3 p ps body x xs result fewer =>
    cases distinct with
    | quantified once inside =>
      exact .quantified (once.sublist (List.drop_sublist _ _))
        (inside.substitute (distinct_image_ofLists each))
  | case4 p ps body x xs result enough ih =>
    cases distinct with
    | quantified _ inside =>
      exact ih (inside.substitute (distinct_image_ofLists each)) fun t member =>
        each t (List.mem_of_mem_drop member)
  | case5 inner first args given =>
    cases distinct with
    | app fst others => exact .app fst (List.forall_mem_append.mpr ⟨others, each⟩)
  | case6 other args => exact .app distinct each

/-- Arguments one after another, when the first ones leave parameters that they do not mention. -/
theorem apply_apply (distinct : head.Distinct) (distinct' : ∀ x ∈ xs, x.Distinct)
    (spared : ∀ waiting body, head.apply xs = .quantified waiting body → Spared waiting xs) :
    (head.apply xs).apply ys = head.apply (xs ++ ys) := by
  fun_induction apply head xs with
  | case1 head => rfl
  | case2 body args given ih =>
    have further : args ++ ys ≠ [] := fun none_ => given (List.append_eq_nil_iff.mp none_).1
    rw [apply_unquantified further]
    cases distinct with
    | quantified _ inside => exact ih inside distinct' spared
  | case3 p ps body x xs result fewer =>
    cases distinct with
    | quantified once _ => exact apply_waiting once (List.cons_ne_nil x xs) fewer (spared _ _ rfl)
  | case4 p ps body x xs result enough ih =>
    have enough := Nat.le_of_not_lt enough
    cases distinct with
    | quantified _ inside =>
      have size : (x :: xs ++ ys).length = (x :: xs).length + ys.length := List.length_append
      rw [apply_enough (List.cons_ne_nil p ps) (by omega), ofLists_enough enough,
        List.drop_append_of_le_length enough]
      refine ih (inside.substitute (distinct_image_ofLists distinct'))
        (fun t member => distinct' t (List.mem_of_mem_drop member)) fun waiting rest remains t
          member => ?_
      exact spared waiting rest remains t (List.mem_of_mem_drop member)
  | case5 inner first args given =>
    rcases eq_or_ne ys [] with rfl | further
    · rw [apply_nil, List.append_nil, apply]
      exact given
    · have given' : args ++ ys ≠ [] := fun none_ => given (List.append_eq_nil_iff.mp none_).1
      rw [apply, apply, List.append_assoc]
      · exact given'
      · exact further
  | case6 other args h1 h2 h3 h4 =>
    rcases eq_or_ne ys [] with rfl | further
    · rw [apply_nil, List.append_nil, apply] <;> assumption
    · have given : args ++ ys ≠ [] := fun none_ => h1 (List.append_eq_nil_iff.mp none_).1
      have plain : ∀ p ps body x xs, other = quantified (p :: ps) body →
      args ++ ys = x :: xs → False := by
        obtain ⟨a, as, rfl⟩ := List.exists_cons_of_ne_nil h1
        exact fun p ps body _ _ same _ => h3 p ps body a as same rfl
      rw [apply, apply] <;> assumption

end Apply

end Ty

end PolyCheck
