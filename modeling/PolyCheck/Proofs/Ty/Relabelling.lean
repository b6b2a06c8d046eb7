import PolyCheck.Proofs.Ty.Alike
import PolyCheck.Proofs.Ty.Application
import PolyCheck.Proofs.Ty.FirstOrder
import PolyCheck.Proofs.Ty.Fits

/-! Types under other numbers of their variables. Where different variables get different numbers,
putting types in place of variables and applying functions on types do not notice. -/
namespace PolyCheck

variable {label : TyVar → TyVar} {binder free : TyVar → Prop} {related : TyVar → TyVar → Prop}
  {ty : Ty} {types args : List Ty} {shape : Shape}

theorem eraseDups_map (injective : Function.Injective label) (vars : List TyVar) :
    (vars.map label).eraseDups = vars.eraseDups.map label := by
  induction length : vars.length using Nat.strongRecOn generalizing vars with
  | ind length ih =>
    subst length
    cases vars with
    | nil => rfl
    | cons v vars =>
      rw [List.map_cons, List.eraseDups_cons, List.eraseDups_cons, List.map_cons, List.filter_map]
      have others : vars.filter ((fun w => !w == label v) ∘ label) = vars.filter fun w => !w == v :=
        List.filter_congr fun w _ => congrArg not (by simp [injective.eq_iff])
      rw [others, ih _ (Nat.lt_succ_of_le (List.length_filter_le _ _)) _ rfl]

namespace Ty

mutual

/-- The type with other variables, also in its quantifiers. -/
def relabel (label : TyVar → TyVar) : Ty → Ty
  | var v => var (label v)
  | arrow param result => arrow (relabel label param) (relabel label result)
  | tuple elems => tuple (relabelAll label elems)
  | nominal template args => nominal template (relabelAll label args)
  | quantified params body => quantified (params.map label) (relabel label body)
  | app head args => app (relabel label head) (relabelAll label args)

def relabelAll (label : TyVar → TyVar) : List Ty → List Ty
  | [] => []
  | t :: ts => relabel label t :: relabelAll label ts

end

theorem relabelAll_eq_map (label : TyVar → TyVar) (types : List Ty) :
    relabelAll label types = types.map (relabel label) := by
  induction types with
  | nil => rfl
  | cons t ts ih => rw [relabelAll, ih, List.map_cons]

theorem Fits.relabel (fits : ty.Fits shape) (fixed : ∀ v, v.index < shape.cells → label v = v) :
    ty.relabel label = ty := by
  have all : ∀ {types : List Ty}, (∀ t ∈ types, t.relabel label = t) →
      relabelAll label types = types :=
    fun each => (relabelAll_eq_map _ _).trans ((List.map_congr_left each).trans (List.map_id _))
  induction fits with
  | var inside => rw [Ty.relabel, fixed _ inside]
  | arrow _ _ ihParam ihResult => rw [Ty.relabel, ihParam, ihResult]
  | tuple _ ih => rw [Ty.relabel, all ih]
  | nominal _ _ ih => rw [Ty.relabel, all ih]
  | quantified binders _ ih =>
    rw [Ty.relabel, ih, List.map_congr_left fun p member => fixed p (binders p member),
      List.map_id']
  | app _ _ ihHead ih => rw [Ty.relabel, ihHead, all ih]

theorem Confined.relabel_eq (confined : ty.Confined binder free)
    (binders : ∀ v, binder v → label v = v)
    (frees : ∀ v, free v → label v = v) : ty.relabel label = ty := by
  have all : ∀ {types : List Ty}, (∀ t ∈ types, t.relabel label = t) →
      relabelAll label types = types :=
    fun each => (relabelAll_eq_map _ _).trans ((List.map_congr_left each).trans (List.map_id _))
  induction confined with
  | var holds => rw [Ty.relabel, frees _ holds]
  | arrow _ _ ihParam ihResult => rw [Ty.relabel, ihParam frees, ihResult frees]
  | tuple _ ih => rw [Ty.relabel, all fun t member => ih t member frees]
  | nominal _ ih => rw [Ty.relabel, all fun t member => ih t member frees]
  | quantified params _ ih =>
    rw [Ty.relabel, ih fun v shown => shown.elim (frees v) fun member =>
      binders v (params v member), List.map_congr_left fun p member => binders p (params p member),
        List.map_id']
  | app _ _ ihHead ih => rw [Ty.relabel, ihHead frees, all fun t member => ih t member frees]

mutual

theorem leaves_relabel : ∀ ty : Ty, (ty.relabel label).leaves = ty.leaves.map label
  | .var _ => rfl
  | .arrow param result => by
    rw [relabel, leaves, leaves, leaves_relabel param, leaves_relabel result, List.map_append]
  | .tuple elems => leavesAll_relabel elems
  | .nominal _ args => leavesAll_relabel args
  | .quantified _ body => leaves_relabel body
  | .app head args => by
    rw [relabel, leaves, leaves, leaves_relabel head, leavesAll_relabel args, List.map_append]

theorem leavesAll_relabel : ∀ types : List Ty,
    leavesAll (relabelAll label types) = (leavesAll types).map label
  | [] => rfl
  | t :: ts => by
    rw [relabelAll, leavesAll, leavesAll, leaves_relabel t, leavesAll_relabel ts, List.map_append]

end

theorem relabel_tupled (label : TyVar → TyVar) (types : List Ty) :
    (tupled types).relabel label = tupled (types.map (relabel label)) := by
  rw [← relabelAll_eq_map]
  match types with
  | [] | [_] | _ :: _ :: _ => rfl

theorem relabel_vars (label : TyVar → TyVar) (vars : List TyVar) :
    (vars.map var).map (relabel label) = (vars.map label).map var := by
  rw [List.map_map, List.map_map]
  rfl

theorem children_relabel (label : TyVar → TyVar) (ty : Ty) :
    (ty.relabel label).children = ty.children.map (relabel label) := by
  cases ty with
  | var | arrow | quantified => rfl
  | tuple | nominal => exact relabelAll_eq_map _ _
  | app => exact congrArg (_ :: ·) (relabelAll_eq_map _ _)

end Ty

namespace Assignment

def relabel (label : TyVar → TyVar) (assignment : Assignment) : Assignment :=
  assignment.map fun (v, ty) => (label v, ty.relabel label)

theorem relabel_ofLists (label : TyVar → TyVar) (vars : List TyVar) (types : List Ty) :
    (ofLists vars types).relabel label = ofLists (vars.map label)
    (types.map (Ty.relabel label)) := by
  rw [ofLists, ofLists, relabel, List.map_reverse, List.zip_map]
  rfl

variable (injective : Function.Injective label)
include injective

theorem relabel_without (assignment : Assignment) (vars : List TyVar) :
    (assignment.without vars).relabel label = (assignment.relabel label).without
    (vars.map label) := by
  rw [without, without, relabel, relabel, List.filter_map]
  refine congrArg (List.map _) (List.filter_congr fun entry _ => congrArg not ?_)
  simp [injective.eq_iff]

theorem image_relabel (assignment : Assignment) (v : TyVar) :
    (assignment.relabel label).image (label v) = (assignment.image v).relabel label := by
  induction assignment with
  | nil => rfl
  | cons entry rest ih =>
    obtain ⟨w, ty⟩ := entry
    rw [relabel, image, image] at ih
    rw [relabel, List.map_cons, image, image, List.lookup_cons, List.lookup_cons]
    by_cases same : v = w
    · rw [same, beq_self_eq_true, beq_self_eq_true]
      rfl
    · rw [beq_false_of_ne same, beq_false_of_ne (injective.ne same)]
      exact ih

end Assignment

namespace Ty

mutual

theorem relabel_substitute (injective : Function.Injective label) :
    ∀ (ty : Ty) (assignment : Assignment),
    (ty.substitute assignment).relabel label = (ty.relabel label).substitute
    (assignment.relabel label)
  | var v, assignment => (Assignment.image_relabel injective assignment v).symm
  | arrow param result, assignment => by
    rw [substitute, relabel, relabel, substitute, relabel_substitute injective param,
      relabel_substitute injective result]
  | tuple elems, assignment => by
    rw [substitute, relabel, relabel, substitute, relabelAll_substitute injective elems]
  | nominal _ args, assignment => by
    rw [substitute, relabel, relabel, substitute, relabelAll_substitute injective args]
  | quantified params body, assignment => by
    rw [substitute, relabel, relabel, substitute, relabel_substitute injective body,
      Assignment.relabel_without injective]
  | app head args, assignment => by
    rw [substitute, relabel, relabel, substitute, relabel_substitute injective head,
      relabelAll_substitute injective args]

theorem relabelAll_substitute (injective : Function.Injective label) :
    ∀ (types : List Ty) (assignment : Assignment),
    relabelAll label (substituteAll assignment types) =
      substituteAll (assignment.relabel label) (relabelAll label types)
  | [], _ => rfl
  | t :: ts, assignment => by
    rw [substituteAll, relabelAll, relabelAll, substituteAll, relabel_substitute injective t,
      relabelAll_substitute injective ts]

end

variable (injective : Function.Injective label)
include injective

theorem relabel_instance (ty : Ty) (vars : List TyVar) (types : List Ty) :
    (ty.substitute (.ofLists vars types)).relabel label =
      (ty.relabel label).substitute (.ofLists (vars.map label) (types.map (relabel label))) := by
  rw [relabel_substitute injective, Assignment.relabel_ofLists]

theorem relabel_apply (head : Ty) (args : List Ty) :
    (head.apply args).relabel label = (head.relabel label).apply (args.map (relabel label)) := by
  have given' : ∀ {types : List Ty}, types ≠ [] → types.map (relabel label) ≠ [] :=
    fun given none_ => given (List.map_eq_nil_iff.mp none_)
  fun_induction Ty.apply head args with
  | case1 head => rw [List.map_nil, apply_nil]
  | case2 body args given ih => rw [ih, relabel, List.map_nil, apply_unquantified (given' given)]
  | case3 p ps body a as result fewer =>
    rw [relabel, relabel, relabel_instance injective, apply_fewer (by simp) (by simpa using fewer),
      List.map_drop, List.length_map]
  | case4 p ps body a as result enough ih =>
    rw [ih, relabel, relabel_instance injective,
      apply_enough (by simp) (by simpa using Nat.le_of_not_lt enough), List.map_drop,
      List.length_map]
  | case5 inner first args given =>
    obtain ⟨arg, args, rfl⟩ := List.exists_cons_of_ne_nil given
    simp only [relabel, relabelAll_eq_map, List.map_append, List.map_cons]
    rw [apply]
    exact List.cons_ne_nil _ _
  | case6 other args given notQuantified notQuantified' notApp =>
    obtain ⟨arg, args, rfl⟩ := List.exists_cons_of_ne_nil given
    cases other with
    | var | arrow | tuple | nominal =>
      simp only [relabel, relabelAll_eq_map, List.map_cons]
      rw [apply] <;> simp
    | quantified params body =>
      cases params with
      | nil => exact (notQuantified _ rfl).elim
      | cons p ps => exact (notQuantified' p ps _ arg args rfl rfl).elim
    | app inner first => exact (notApp _ _ rfl).elim

theorem Confined.alike_relabel (confined : ty.Confined binder free)
    (frees : ∀ v, free v → related v (label v)) : Alike related ty (ty.relabel label) := by
  have all : ∀ {types : List Ty} {related : TyVar → TyVar → Prop},
      (∀ t ∈ types, Alike related t (t.relabel label)) →
        types.length = (relabelAll label types).length ∧
          ∀ pair ∈ types.zip (relabelAll label types), Alike related pair.1 pair.2 := by
    intro types related each
    have pairs : types.zip (types.map (relabel label)) = types.map fun t => (t, t.relabel label) :=
      (congrArg (List.zip · (types.map _)) (List.map_id types).symm).trans List.zip_map'
    rw [relabelAll_eq_map, List.length_map, pairs]
    exact ⟨rfl, List.forall_mem_map.mpr each⟩
  induction confined generalizing related with
  | var holds => exact .var (frees _ holds)
  | arrow _ _ ihParam ihResult => exact .arrow (ihParam frees) (ihResult frees)
  | tuple _ ih =>
    obtain ⟨length, each⟩ := all fun t member => ih t member frees
    exact .tuple length each
  | nominal _ ih =>
    obtain ⟨length, each⟩ := all fun t member => ih t member frees
    exact .nominal length each
  | @quantified _ params _ _ _ ih =>
    refine .quantified (List.length_map _).symm (ih fun v shown => ?_)
    by_cases inner : v ∈ params
    · refine .inl ⟨inner, List.mem_map_of_mem inner, ?_⟩
      rw [← List.map_reverse, List.idxOf, List.idxOf, List.findIdx_map]
      exact congrArg (List.findIdx · _)
        (funext fun w => Bool.eq_iff_iff.mpr (by simp [injective.eq_iff]))
    · refine .inr ⟨inner, fun member => ?_, frees v (shown.resolve_right inner)⟩
      obtain ⟨w, inParams, same⟩ := List.mem_map.mp member
      exact inner (injective same ▸ inParams)
  | app _ _ ihHead ih =>
    obtain ⟨length, each⟩ := all fun t member => ih t member frees
    exact .app (ihHead frees) length each

end Ty

end PolyCheck
