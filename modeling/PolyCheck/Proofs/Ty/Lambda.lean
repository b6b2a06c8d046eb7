import PolyCheck.Proofs.Lambda
import PolyCheck.Proofs.Ty.Application

/-! Types as lambda terms. Every quantifier stands for a function, whether it is given types or has
values itself, and variables stand for terms. Where putting types in place of variables catches none
of their variables, it does what substitution does in lambda terms, and giving types to a function
on types makes no difference to the term. -/
namespace PolyCheck

namespace Ty

open Lambda

mutual

/-- The term of a type, where its free variables stand for terms. -/
def lambda : Ty → (TyVar → Lambda) → Lambda
  | .var v, meaning => meaning v
  | .arrow param result, meaning =>
    .app (.app (.atom .arrow) (lambda param meaning)) (lambda result meaning)
  | .tuple elems, meaning => spine (.atom (.tuple elems.length)) (lambdas elems meaning)
  | .nominal template args, meaning =>
    spine (.atom (.nominal template args.length)) (lambdas args meaning)
  | .quantified params body, meaning => lams params (lambda body (enterAll params meaning))
  | .app head args, meaning => spine (lambda head meaning) (lambdas args meaning)

def lambdas : List Ty → (TyVar → Lambda) → List Lambda
  | [], _ => []
  | ty :: types, meaning => lambda ty meaning :: lambdas types meaning

end

variable {binder free : TyVar → Prop} {ty head body : Ty} {types args : List Ty}
  {params : List TyVar} {meaning meaning' : TyVar → Lambda} {assignment : Assignment}

theorem lambdas_eq_map (types : List Ty) (meaning : TyVar → Lambda) :
    lambdas types meaning = types.map (lambda · meaning) := by
  induction types with
  | nil => rfl
  | cons ty types ih => rw [lambdas, ih, List.map_cons]

@[simp] theorem length_lambdas (types : List Ty) (meaning : TyVar → Lambda) :
    (lambdas types meaning).length = types.length := by
  rw [lambdas_eq_map, List.length_map]

def form : Ty → Form
  | .var _ => .var
  | .arrow _ _ => .arrow
  | .tuple elems => .tuple elems.length
  | .nominal template args => .nominal template args.length
  | .quantified _ _ => .quantified
  | .app _ _ => .app

theorem Confined.lambda_congr (confined : ty.Confined binder free)
    (same : ∀ v, free v → meaning v = meaning' v) : ty.lambda meaning = ty.lambda meaning' := by
  induction confined generalizing meaning meaning' with
  | var holds => exact same _ holds
  | arrow _ _ ihParam ihResult => rw [lambda, lambda, ihParam same, ihResult same]
  | tuple _ ih =>
    rw [lambda, lambda, lambdas_eq_map, lambdas_eq_map, List.map_congr_left fun t member =>
      ih t member same]
  | nominal _ ih =>
    rw [lambda, lambda, lambdas_eq_map, lambdas_eq_map, List.map_congr_left fun t member =>
      ih t member same]
  | quantified _ _ ih =>
    rw [lambda, lambda]
    refine congrArg _ (ih fun v shown => enterAll_congr fun outer =>
      same v (shown.resolve_right outer))
  | app _ _ ihHead ih =>
    rw [lambda, lambda, lambdas_eq_map, lambdas_eq_map, ihHead same,
      List.map_congr_left fun t member => ih t member same]

theorem lambda_cons (p : TyVar) (params : List TyVar) (body : Ty) (meaning : TyVar → Lambda) :
    (quantified (p :: params) body).lambda meaning =
      .lam params.isEmpty ((quantified params body).lambda (enter p meaning)) := by
  rw [lambda, lambda]
  rfl

theorem lambda_app_append (head : Ty) (first args : List Ty) (meaning : TyVar → Lambda) :
    (app head (first ++ args)).lambda meaning = spine ((app head first).lambda meaning)
    (lambdas args meaning) := by
  rw [lambda, lambda, ← spine_append, lambdas_eq_map, lambdas_eq_map, lambdas_eq_map,
    List.map_append]

mutual

theorem subst_lambda : ∀ (ty : Ty) (meaning : TyVar → Lambda) (images : Nat → Lambda),
    (ty.lambda meaning).subst images = ty.lambda fun v => (meaning v).subst images
  | .var _, _, _ => rfl
  | .arrow param result, meaning, images => by
    rw [lambda, lambda, ← subst_lambda param, ← subst_lambda result]
    rfl
  | .tuple elems, meaning, images => by
    rw [lambda, lambda, ← subst_lambdas elems, subst_spine]
    rfl
  | .nominal _ args, meaning, images => by
    rw [lambda, lambda, ← subst_lambdas args, subst_spine]
    rfl
  | .quantified params body, meaning, images => by
    have within := subst_lambda body
    induction params generalizing meaning images with
    | nil =>
      rw [lambda, lambda]
      exact within meaning images
    | cons p params ih => rw [lambda_cons, lambda_cons, subst, ih, enter_subst]
  | .app head args, meaning, images => by
    rw [lambda, lambda, ← subst_lambda head, ← subst_lambdas args, subst_spine]

theorem subst_lambdas : ∀ (types : List Ty) (meaning : TyVar → Lambda) (images : Nat → Lambda),
    (lambdas types meaning).map (subst images) = lambdas types fun v => (meaning v).subst images
  | [], _, _ => rfl
  | ty :: types, meaning, images => by
    rw [lambdas, lambdas, List.map_cons, subst_lambda ty, subst_lambdas types]

end

theorem natural_lambda (ty : Ty) : Natural ty.lambda := ty.subst_lambda

theorem Confined.lambda_enterAll (confined : ty.Confined binder fun v => v ∉ params)
    (meaning : TyVar → Lambda) :
    ty.lambda (enterAll params meaning) = (ty.lambda meaning).raise params.length := by
  rw [raise, rename_eq_subst, subst_lambda]
  refine confined.lambda_congr fun v outer => ?_
  rw [enterAll_of_not_mem outer, raise, rename_eq_subst]

section Substitution

/-- No variable of the types that are put in place is caught by a quantifier. -/
inductive Clear : Assignment → Ty → Prop where
  | var {assignment : Assignment} (v : TyVar) : Clear assignment (.var v)
  | arrow {assignment : Assignment} {param result : Ty} (fst : Clear assignment param)
      (snd : Clear assignment result) : Clear assignment (.arrow param result)
  | tuple {assignment : Assignment} {elems : List Ty} (each : ∀ t ∈ elems, Clear assignment t) :
    Clear assignment (.tuple elems)
  | nominal {assignment : Assignment} {template : TemplateId} {args : List Ty} (each : ∀ t ∈ args,
      Clear assignment t) : Clear assignment (.nominal template args)
  | quantified {assignment : Assignment} {params : List TyVar} {body : Ty}
    (outside : body.Confined (fun _ => True) fun v =>
      v ∈ params ∨ (assignment.image v).Confined (fun _ => True) fun w => w ∉ params)
    (inside : Clear (assignment.without params) body) : Clear assignment (.quantified params body)
  | app {assignment : Assignment} {head : Ty} {args : List Ty} (fst : Clear assignment head)
    (each : ∀ t ∈ args, Clear assignment t) : Clear assignment (.app head args)

theorem Clear.lambda_substitute (clear : ty.Clear assignment) (meaning : TyVar → Lambda) :
    (ty.substitute assignment).lambda meaning = ty.lambda fun v =>
    (assignment.image v).lambda meaning := by
  induction clear generalizing meaning with
  | var v => rfl
  | arrow _ _ ihParam ihResult => rw [substitute, lambda, lambda, ihParam, ihResult]
  | tuple _ ih =>
    rw [substitute, lambda, lambda, substituteAll_eq_map, lambdas_eq_map, lambdas_eq_map,
      List.map_map, List.length_map]
    exact congrArg _ (List.map_congr_left fun t member => ih t member meaning)
  | nominal _ ih =>
    rw [substitute, lambda, lambda, substituteAll_eq_map, lambdas_eq_map, lambdas_eq_map,
      List.map_map, List.length_map]
    exact congrArg _ (List.map_congr_left fun t member => ih t member meaning)
  | @quantified assignment params body outside _ ih =>
    rw [substitute, lambda, lambda, ih]
    refine congrArg _ (outside.lambda_congr fun v shown => ?_)
    rw [Assignment.image_without]
    by_cases inner : v ∈ params
    · rw [if_pos inner, lambda, enterAll_of_mem inner, enterAll_of_mem inner]
    · rw [if_neg inner, enterAll_of_not_mem inner]
      exact (shown.resolve_left inner).lambda_enterAll meaning
  | app _ _ ihHead ih =>
    rw [substitute, lambda, lambda, substituteAll_eq_map, lambdas_eq_map, lambdas_eq_map,
      List.map_map, ihHead]
    exact congrArg _ (List.map_congr_left fun t member => ih t member meaning)

/-- Nothing is caught of types whose variables are not bound at all. -/
theorem Confined.clear (confined : ty.Confined binder free)
    (images : ∀ v, assignment.image v = .var v ∨
      (assignment.image v).Confined (fun _ => True) fun w => ¬ binder w) :
    ty.Clear assignment := by
  induction confined generalizing assignment with
  | var _ => exact .var _
  | arrow _ _ ihParam ihResult => exact .arrow (ihParam images) (ihResult images)
  | tuple _ ih => exact .tuple fun t member => ih t member images
  | nominal _ ih => exact .nominal fun t member => ih t member images
  | @quantified free params body binders inside ih =>
    refine .quantified (inside.mono (fun _ _ => trivial) fun v _ => ?_) (ih fun v => ?_)
    · by_cases inner : v ∈ params
      · exact .inl inner
      · refine .inr ?_
        rcases images v with same | confined
        · rw [same]
          exact .var inner
        · exact confined.imp fun w outer member => outer (binders w member)
    · rw [Assignment.image_without]
      split
      · exact .inl rfl
      · exact images v
  | app _ _ ihHead ih => exact .app (ihHead images) fun t member => ih t member images

theorem assign_lambdas (params : List TyVar) (args : List Ty) (base meaning : TyVar → Lambda)
    (v : TyVar) : assign params (lambdas args meaning) base v =
      (((Assignment.ofLists params args).lookup v).map (lambda · meaning)).getD (base v) := by
  induction params generalizing args base with
  | nil => rfl
  | cons p params ih =>
    cases args with
    | nil => rfl
    | cons arg args =>
      rw [lambdas, assign, ih, Assignment.ofLists, Assignment.ofLists, List.zip_cons_cons,
        List.reverse_cons, List.lookup_append]
      cases (params.zip args).reverse.lookup v with
      | some _ => rfl
      | none =>
        rw [Function.update_apply, Option.none_or, List.lookup_cons]
        by_cases same : v = p
        · rw [if_pos same, beq_iff_eq.mpr same]
          rfl
        · rw [if_neg same, beq_false_of_ne same]
          rfl

theorem image_lambda (assignment : Assignment) (meaning : TyVar → Lambda) (v : TyVar) :
    (assignment.image v).lambda meaning = ((assignment.lookup v).map (lambda · meaning)).getD
    (meaning v) := by
  rw [Assignment.image]
  cases assignment.lookup v <;> rfl

end Substitution

section Application

/-- The types are taken by the function on types without a variable of theirs being caught. -/
inductive Takes : Ty → List Ty → Prop where
  | none (head : Ty) : Takes head []
  | skip {body : Ty} {args : List Ty} (rest : Takes body args) : Takes (.quantified [] body) args
  | fewer {params : List TyVar} {body : Ty} {args : List Ty} (given : args ≠ [])
      (fewer : args.length < params.length)
    (clear : body.Clear (.ofLists params args)) (spared : Spared (params.drop args.length) args) :
    Takes (.quantified params body) args
  | enough {params : List TyVar} {body : Ty} {args : List Ty} (taken : params ≠ [])
      (enough : params.length ≤ args.length) (clear : body.Clear (.ofLists params args))
    (rest : Takes (body.substitute (.ofLists params args)) (args.drop params.length)) :
    Takes (.quantified params body) args
  | other {head : Ty} {args : List Ty} (plain : ∀ params body, head ≠ .quantified params body) :
      Takes head args

theorem Takes.equal_apply (takes : head.Takes args) (distinct : head.Distinct)
    (each : ∀ arg ∈ args, arg.Distinct) (meaning : TyVar → Lambda) :
    Equal (spine (head.lambda meaning) (lambdas args meaning))
    ((head.apply args).lambda meaning) := by
  induction takes with
  | none head =>
    rw [apply_nil]
    exact .refl _
  | @skip body args rest ih =>
    cases distinct with
    | quantified _ inside =>
      rcases eq_or_ne args [] with rfl | given
      · rw [apply_nil]
        exact .refl _
      · rw [apply_unquantified given]
        exact ih inside each
  | @fewer params body args some fewer clear spared =>
    cases distinct with
    | quantified once inside =>
      refine .trans ((natural_lambda body).equal_spine params _ meaning) ?_
      have done : (lambdas args meaning).drop params.length = [] :=
        List.drop_eq_nil_of_le (by simpa using Nat.le_of_lt fewer)
      rw [length_lambdas, done, spine_nil, apply_fewer some fewer, lambda, clear.lambda_substitute]
      refine .of_eq (congrArg (fun term => lams _ (lambda body term)) (funext fun v => ?_))
      by_cases inner : v ∈ params.drop args.length
      · have absent : v ∉ params.take args.length := fun taken => by
          rw [← List.take_append_drop args.length params] at once
          exact List.disjoint_of_nodup_append once taken inner
        have leaves : (Assignment.ofLists params args).Leaves v := Assignment.leaves_ofLists absent
        rw [enterAll_of_mem inner, Assignment.image, leaves, Option.getD_none, lambda,
          enterAll_of_mem inner]
      · rw [enterAll_of_not_mem inner, assign_lambdas, ← image_lambda]
        suffices sparing : ((Assignment.ofLists params args).image v).Confined (fun _ => True)
            fun w => w ∉ params.drop args.length from (sparing.lambda_enterAll meaning).symm
        rcases Assignment.image_cases params args v with member | ⟨same, -⟩
        · exact spared _ member
        · rw [same]
          exact .var inner
  | @enough params body args taken enough clear rest ih =>
    cases distinct with
    | quantified once inside =>
      refine .trans ((natural_lambda body).equal_spine params _ meaning) ?_
      have replaced : body.lambda (assign params (lambdas args meaning) meaning) =
          (body.substitute (.ofLists params args)).lambda meaning := by
        rw [clear.lambda_substitute]
        exact congrArg body.lambda
          (funext fun v => (assign_lambdas params args meaning meaning v).trans
            (image_lambda _ _ v).symm)
      rw [length_lambdas, List.drop_eq_nil_of_le enough, apply_enough taken enough, lams, enterAll,
        replaced, lambdas_eq_map, ← List.map_drop, ← lambdas_eq_map]
      exact ih (inside.substitute (distinct_image_ofLists each)) fun t member =>
        each t (List.mem_of_mem_drop member)
  | @other head args plain =>
    rcases eq_or_ne args [] with rfl | given
    · rw [apply_nil]
      exact .refl _
    · obtain ⟨arg, args, rfl⟩ := List.exists_cons_of_ne_nil given
      cases head with
      | quantified params body => exact absurd rfl (plain params body)
      | app inner first =>
        rw [apply, lambda_app_append]
        · exact .refl _
        · exact given
      | var _ | arrow _ _ | tuple _ | nominal _ _ =>
        rw [apply] <;> first | exact .refl _ | simp

theorem Confined.takes (confined : head.Confined binder free)
    (each : ∀ arg ∈ args, arg.Confined binder free)
    (apart : ∀ v, free v → ¬ binder v) : head.Takes args := by
  fun_induction Ty.apply head args with
  | case1 head => exact .none head
  | case2 body args _ ih =>
    exact .skip (ih (confined.quantified_inv.2.imp fun v shown =>
        shown.resolve_right List.not_mem_nil) each)
  | case3 p ps body a as result fewer =>
    obtain ⟨binders, inside⟩ := confined.quantified_inv
    refine .fewer (List.cons_ne_nil a as) fewer (inside.clear fun v => ?_) fun t member => ?_
    · rcases Assignment.image_cases (p :: ps) (a :: as) v with member | ⟨same, -⟩
      · exact .inr ((each _ member).mono (fun _ _ => trivial) apart)
      · exact .inl same
    · exact (each t member).mono (fun _ _ => trivial) fun v holds waits =>
        apart v holds (binders v (List.mem_of_mem_drop waits))
  | case4 p ps body a as result enough ih =>
    obtain ⟨binders, inside⟩ := confined.quantified_inv
    have enough := Nat.le_of_not_lt enough
    refine .enough (List.cons_ne_nil p ps) enough (inside.clear fun v => ?_) ?_
    · rcases Assignment.image_cases (p :: ps) (a :: as) v with member | ⟨same, -⟩
      · exact .inr ((each _ member).mono (fun _ _ => trivial) apart)
      · exact .inl same
    · exact ih (inside.instantiate enough each) fun t member => each t (List.mem_of_mem_drop member)
  | case5 inner first args _ => exact .other fun _ _ same => by cases same
  | case6 head args some unquantified plain _ =>
    refine .other fun params body same => ?_
    obtain ⟨a, as, rfl⟩ := List.exists_cons_of_ne_nil some
    cases params with
    | nil => exact unquantified body same
    | cons p params => exact plain p params body a as same rfl

end Application

section Orderly

/-- Every quantifier in the type has parameters, and lists none of them twice. -/
inductive Orderly : Ty → Prop where
  | var (v : TyVar) : Orderly (.var v)
  | arrow {param result : Ty} (fst : Orderly param) (snd : Orderly result) :
      Orderly (.arrow param result)
  | tuple {elems : List Ty} (each : ∀ t ∈ elems, Orderly t) : Orderly (.tuple elems)
  | nominal {template : TemplateId} {args : List Ty} (each : ∀ t ∈ args, Orderly t) :
      Orderly (.nominal template args)
  | quantified {params : List TyVar} {body : Ty} (some : params ≠ []) (once : params.Nodup)
      (inside : Orderly body) : Orderly (.quantified params body)
  | app {head : Ty} {args : List Ty} (fst : Orderly head) (each : ∀ t ∈ args, Orderly t) :
      Orderly (.app head args)

theorem Orderly.distinct (orderly : ty.Orderly) : ty.Distinct := by
  induction orderly with
  | var _ => exact .var
  | arrow _ _ fst snd => exact .arrow fst snd
  | tuple _ each => exact .tuple each
  | nominal _ each => exact .nominal each
  | quantified _ once _ inside => exact .quantified once inside
  | app _ _ fst each => exact .app fst each

theorem Orderly.substitute (orderly : ty.Orderly) (images : ∀ v, (assignment.image v).Orderly) :
    (ty.substitute assignment).Orderly := by
  induction orderly generalizing assignment with
  | var => exact images _
  | arrow _ _ ihParam ihResult => exact .arrow (ihParam images) (ihResult images)
  | tuple _ ih =>
    rw [Ty.substitute, substituteAll_eq_map]
    exact .tuple (List.forall_mem_map.mpr fun t member => ih t member images)
  | nominal _ ih =>
    rw [Ty.substitute, substituteAll_eq_map]
    exact .nominal (List.forall_mem_map.mpr fun t member => ih t member images)
  | quantified some once _ ih =>
    refine .quantified some once (ih fun v => ?_)
    rw [Assignment.image_without]
    split
    · exact .var v
    · exact images v
  | app _ _ ihHead ih =>
    rw [Ty.substitute, substituteAll_eq_map]
    exact .app (ihHead images) (List.forall_mem_map.mpr fun t member => ih t member images)

theorem orderly_image_ofLists (each : ∀ arg ∈ args, arg.Orderly) (v : TyVar) :
    ((Assignment.ofLists params args).image v).Orderly := by
  rcases Assignment.image_cases params args v with member | ⟨same, -⟩
  · exact each _ member
  · rw [same]
    exact .var v

theorem Orderly.apply (orderly : head.Orderly) (each : ∀ arg ∈ args, arg.Orderly) :
    (head.apply args).Orderly := by
  fun_induction Ty.apply head args with
  | case1 head => exact orderly
  | case2 body args given ih =>
    cases orderly with
    | quantified some _ _ => exact absurd rfl some
  | case3 p ps body a as result fewer =>
    cases orderly with
    | quantified some once inside =>
      refine .quantified (List.ne_nil_of_length_pos ?_) (once.sublist (List.drop_sublist _ _))
        (inside.substitute (orderly_image_ofLists each))
      rw [List.length_drop]
      exact Nat.sub_pos_of_lt fewer
  | case4 p ps body a as result enough ih =>
    cases orderly with
    | quantified _ _ inside =>
      exact ih (inside.substitute (orderly_image_ofLists each)) fun t member =>
        each t (List.mem_of_mem_drop member)
  | case5 inner first args given =>
    cases orderly with
    | app fst others => exact .app fst (List.forall_mem_append.mpr ⟨others, each⟩)
  | case6 other args => exact .app orderly each

end Orderly

end Ty

end PolyCheck
