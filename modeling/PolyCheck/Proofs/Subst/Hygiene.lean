import PolyCheck.Proofs.Subst.Zonks
import PolyCheck.Proofs.Ty.Alike
import PolyCheck.Proofs.Ty.Lambda

/-! Resolution that catches no variable. Where all variables are unsolved, resolving a type only
gives types to the functions on types that it comes upon. As long as none of these types has a
variable that is caught on the way, the result is the same lambda term, and it is reduced. So types
that stand for the same lambda term resolve to types that are equal up to the names of what their
quantifiers bind. -/
namespace PolyCheck

namespace Subst

variable {subst : Subst} {whole ty head result : Ty} {args : List Ty} {depth : Nat}
  {meaning : TyVar → Lambda}

/-- What resolution of a type comes upon: the parts of heads, what an application applies, and what
it gives. -/
inductive Visits (subst : Subst) (ty : Ty) : Ty → Prop where
  | here : Visits subst ty ty
  | applied {head : Ty} {args : List Ty} (visits : Visits subst ty (.app head args)) :
      Visits subst ty head
  | reduct {head body : Ty} {params : List TyVar} {args : List Ty}
      (visits : Visits subst ty (.app head args))
    (shallow : subst.Shallows head (.quantified params body)) :
      Visits subst ty ((Ty.quantified params body).apply args)
  | part {t head child : Ty} (visits : Visits subst ty t) (shallow : subst.Shallows t head)
    (member : child ∈ head.children) : Visits subst ty child

/-- Wherever resolution gives types to a function on types, it catches none of their variables. -/
def Hygienic (subst : Subst) (ty : Ty) : Prop :=
  ∀ {head body : Ty} {params : List TyVar} {args : List Ty}, subst.Visits ty (.app head args) →
    subst.Shallows head (.quantified params body) → (Ty.quantified params body).Takes args

structure Shown (subst : Subst) (ty : Ty) : Prop where
  orderly : ty.Orderly
  confined : ty.Confined (fun v => (subst.cell v).IsNew) fun v => (subst.cell v).IsNew

theorem Shown.apply (shown : subst.Shown head) (each : ∀ arg ∈ args, subst.Shown arg) :
    subst.Shown (head.apply args) :=
  ⟨shown.orderly.apply fun arg member => (each arg member).orderly,
    shown.confined.apply fun arg member => (each arg member).confined⟩

theorem Shown.app (shown : subst.Shown head) (each : ∀ arg ∈ args, subst.Shown arg) :
    subst.Shown (.app head args) :=
  ⟨.app shown.orderly fun arg member => (each arg member).orderly,
    .app shown.confined fun arg member => (each arg member).confined⟩

theorem Shown.children (shown : subst.Shown ty) : ∀ child ∈ ty.children, subst.Shown child := by
  obtain ⟨orderly, confined⟩ := shown
  cases ty with
  | var v => exact List.forall_mem_nil _
  | arrow param result =>
    obtain ⟨fst, snd⟩ := confined.arrow_inv
    cases orderly with
    | arrow fst' snd' =>
      exact List.forall_mem_cons.mpr ⟨⟨fst', fst⟩, List.forall_mem_singleton.mpr ⟨snd', snd⟩⟩
  | tuple elems =>
    cases orderly with
    | tuple each => exact fun t member => ⟨each t member, confined.tuple_inv t member⟩
  | nominal template args =>
    cases orderly with
    | nominal each => exact fun t member => ⟨each t member, confined.nominal_inv t member⟩
  | quantified params body =>
    obtain ⟨binders, inside⟩ := confined.quantified_inv
    cases orderly with
    | quantified _ _ inside' =>
      exact List.forall_mem_singleton.mpr ⟨inside', inside.imp fun v known =>
        known.elim id (binders v)⟩
  | app head args =>
    obtain ⟨fst, each⟩ := confined.app_inv
    cases orderly with
    | app fst' each' =>
      exact List.forall_mem_cons.mpr ⟨⟨fst', fst⟩, fun t member => ⟨each' t member, each t member⟩⟩

theorem Normal.children (normal : subst.Normal ty) : ∀ child ∈ ty.children, subst.Normal child := by
  cases normal with
  | var _ => exact List.forall_mem_nil _
  | arrow fst snd => exact List.forall_mem_cons.mpr ⟨fst, List.forall_mem_singleton.mpr snd⟩
  | tuple each | nominal each => exact each
  | quantified inside => exact List.forall_mem_singleton.mpr inside
  | app _ fst _ each => exact List.forall_mem_cons.mpr ⟨fst, each⟩

theorem Visits.normal (visits : subst.Visits whole ty) (normal : subst.Normal whole) :
    subst.Normal ty := by
  induction visits with
  | here => exact normal
  | applied _ ih =>
    cases ih with
    | app _ fst _ _ => exact fst
  | reduct _ shallow ih =>
    cases ih with
    | app stuck fst _ _ =>
      obtain rfl := Shallows.unique ⟨1, fst.shallowWithin_stuck stuck 0⟩ shallow
      exact stuck.elim
  | part _ shallow member ih =>
    obtain rfl := Shallows.unique ⟨2, ih.shallowWithin 0⟩ shallow
    exact ih.children _ member

theorem Normal.hygienic (normal : subst.Normal ty) : subst.Hygienic ty := by
  intro head body params args visits shallow
  cases visits.normal normal with
  | app stuck fst _ _ =>
    obtain rfl := Shallows.unique ⟨1, fst.shallowWithin_stuck stuck 0⟩ shallow
    exact stuck.elim

/-- Where a function gives a type in normal form, it need only catch nothing of its own
arguments. -/
theorem hygienic_redex {params : List TyVar} {body : Ty}
    (fst : subst.Normal (.quantified params body))
    (takes : (Ty.quantified params body).Takes args)
    (reduct : subst.Normal ((Ty.quantified params body).apply args)) :
    subst.Hygienic (.app (.quantified params body) args) := by
  have itself : subst.Shallows (.quantified params body) (.quantified params body) := ⟨1, rfl⟩
  have head : subst.Shallows (.app (.quantified params body) args)
      ((Ty.quantified params body).apply args) :=
    ⟨3, reduct.shallowWithin 0⟩
  have seen : ∀ {t}, subst.Visits (.app (.quantified params body) args) t →
      t = .app (.quantified params body) args ∨ subst.Normal t := by
    intro t visits
    induction visits with
    | here => exact .inl rfl
    | applied _ ih =>
      rcases ih with same | normal
      · exact .inr ((Ty.app.inj same).1 ▸ fst)
      · exact .inr (Visits.applied .here |>.normal normal)
    | reduct _ shallow ih =>
      rcases ih with same | normal
      · obtain ⟨rfl, rfl⟩ := Ty.app.inj same
        exact .inr (itself.unique shallow ▸ reduct)
      · exact .inr (Visits.reduct .here shallow |>.normal normal)
    | part _ shallow member ih =>
      rcases ih with rfl | normal
      · obtain rfl := head.unique shallow
        exact .inr (reduct.children _ member)
      · exact .inr (Visits.part .here shallow member |>.normal normal)
  intro function inside vars given visits shallow
  rcases seen visits with same | normal
  · obtain ⟨rfl, rfl⟩ := Ty.app.inj same
    obtain ⟨rfl, rfl⟩ := Ty.quantified.inj (itself.unique shallow)
    exact takes
  · exact normal.hygienic .here shallow

theorem Hygienic.shallowWithin (hygienic : subst.Hygienic whole) (visits : subst.Visits whole ty)
    (shown : subst.Shown ty) (walk : subst.shallowWithin depth ty = some head) :
    subst.Shown head ∧ ∀ meaning, (ty.lambda meaning).Equal (head.lambda meaning) := by
  have spine : ∀ {function found : Ty} {args : List Ty},
      (∀ meaning, (function.lambda meaning).Equal (found.lambda meaning)) → ∀ meaning,
      ((Ty.app function args).lambda meaning).Equal
        (Lambda.spine (found.lambda meaning) (Ty.lambdas args meaning)) :=
    fun equal meaning => (equal meaning).spine_left _
  replace walk := heads_of_walk walk
  induction walk with
  | @unsolved v _ =>
    cases shown.confined with
    | var isNew =>
      rw [root_of_isNew isNew]
      exact ⟨shown, fun _ => .refl _⟩
  | solved cell _ _ =>
    cases shown.confined with
    | var isNew =>
      rw [rootCell, root_of_isNew isNew] at cell
      exact (cell ▸ isNew : Cell.IsNew (.bound _)).elim
  | arrow | tuple | nominal | quantified => exact ⟨shown, fun _ => .refl _⟩
  | applied first _ ihFirst ih =>
    obtain ⟨fst, each⟩ := List.forall_mem_cons.mp shown.children
    have takes := hygienic visits first.shallows
    obtain ⟨fst, equal⟩ := ihFirst visits.applied fst
    obtain ⟨shown, equal'⟩ := ih (visits.reduct first.shallows) (fst.apply each)
    refine ⟨shown, fun meaning => ((spine equal meaning).trans ?_).trans (equal' meaning)⟩
    exact takes.equal_apply fst.orderly.distinct
      (fun arg member => (each arg member).orderly.distinct) meaning
  | collected _ ih =>
    obtain ⟨fst, each⟩ := List.forall_mem_cons.mp shown.children
    obtain ⟨fst, equal⟩ := ih visits.applied fst
    obtain ⟨fst, firsts⟩ := List.forall_mem_cons.mp fst.children
    refine ⟨fst.app (List.forall_mem_append.mpr ⟨firsts, each⟩), fun meaning => ?_⟩
    rw [Ty.lambda_app_append]
    exact spine equal meaning
  | stuck _ _ ih =>
    obtain ⟨fst, each⟩ := List.forall_mem_cons.mp shown.children
    obtain ⟨fst, equal⟩ := ih visits.applied fst
    exact ⟨fst.app each, spine equal⟩

theorem Hygienic.zonkWithin (ends : subst.LinksEnd) (hygienic : subst.Hygienic whole)
    (visits : subst.Visits whole ty)
    (shown : subst.Shown ty) (walk : subst.zonkWithin depth ty = some result) :
    result.Orderly ∧ ∀ meaning, (ty.lambda meaning).Equal (result.lambda meaning) := by
  induction depth generalizing ty result with
  | zero => cases walk
  | succ depth ih =>
    obtain ⟨head, shallow, rebuilt⟩ := zonkWithin_eq_some_iff.mp walk
    obtain ⟨shown, equal⟩ := hygienic.shallowWithin visits shown shallow
    have part : ∀ {child result}, child ∈ head.children → subst.zonkWithin depth child =
      some result →
        result.Orderly ∧ ∀ meaning, (child.lambda meaning).Equal (result.lambda meaning) :=
      fun member => ih (visits.part ⟨_, shallow⟩ member) (shown.children _ member)
    have parts : ∀ {types results : List Ty}, types ⊆ head.children →
        List.Forall₂ (fun t r => subst.zonkWithin depth t = some r) types results →
        (∀ r ∈ results, r.Orderly) ∧ ∀ meaning,
          List.Forall₂ Lambda.Equal (Ty.lambdas types meaning) (Ty.lambdas results meaning) := by
      intro types results among walks
      induction walks with
      | nil => exact ⟨List.forall_mem_nil _, fun _ => .nil⟩
      | cons first _ ihRest =>
        obtain ⟨member, among⟩ := List.cons_subset.mp among
        obtain ⟨orderly, equal⟩ := part member first
        obtain ⟨others, equals⟩ := ihRest among
        exact ⟨List.forall_mem_cons.mpr ⟨orderly, others⟩,
          fun meaning => .cons (equal meaning) (equals meaning)⟩
    suffices given : result.Orderly ∧ ∀ meaning,
      (head.lambda meaning).Equal (result.lambda meaning) from
      given.imp_right fun equal' meaning => (equal meaning).trans (equal' meaning)
    cases rebuilt with
    | var v => exact ⟨.var v, fun _ => .refl _⟩
    | arrow fst snd =>
      obtain ⟨fst, equal⟩ := part (by simp [Ty.children]) fst
      obtain ⟨snd, equal'⟩ := part (by simp [Ty.children]) snd
      exact ⟨.arrow fst snd, fun meaning => .app (.app (.refl _) (equal meaning)) (equal' meaning)⟩
    | tuple walks =>
      obtain ⟨each, equal⟩ := parts (List.Subset.refl _) walks
      refine ⟨.tuple each, fun meaning => ?_⟩
      rw [Ty.lambda, Ty.lambda, walks.length_eq]
      exact Lambda.Equal.spine (.refl _) (equal meaning)
    | nominal walks =>
      obtain ⟨each, equal⟩ := parts (List.Subset.refl _) walks
      refine ⟨.nominal each, fun meaning => ?_⟩
      rw [Ty.lambda, Ty.lambda, walks.length_eq]
      exact Lambda.Equal.spine (.refl _) (equal meaning)
    | quantified inside =>
      obtain ⟨inside, equal⟩ := part (by simp [Ty.children]) inside
      cases shown.orderly with
      | quantified some once _ =>
        exact ⟨.quantified some once inside, fun meaning => (equal _).lams _⟩
    | @app _ function _ results fst walks =>
      have stuck := ends.isStuck_of_head shallow fst
      obtain ⟨fst, equal⟩ := part (by simp [Ty.children]) fst
      obtain ⟨each, equals⟩ := parts (by simp [Ty.children]) walks
      refine ⟨fst.apply each,
        fun meaning => (Lambda.Equal.spine (equal meaning) (equals meaning)).trans (.of_eq ?_)⟩
      rcases eq_or_ne results [] with rfl | some
      · rw [Ty.apply_nil]
        rfl
      · rw [apply_stuck stuck some, Ty.lambda]

section Normal

open Lambda

variable {subst' : Subst} {ty' : Ty} {meaning' : TyVar → Lambda}

theorem operands_stuck (stuck : ty.IsStuck) (leaves : ∀ v, (meaning v).IsLeaf) :
    (ty.lambda meaning).operands.length = (ty.lambda meaning).head.demand := by
  cases ty with
  | var v => exact (leaves v).operands
  | arrow _ _ => rfl
  | tuple elems =>
    rw [Ty.lambda, operands_spine, head_spine]
    exact Ty.length_lambdas elems meaning
  | nominal template args =>
    rw [Ty.lambda, operands_spine, head_spine]
    exact Ty.length_lambdas args meaning
  | quantified _ _ | app _ _ => exact stuck.elim

theorem Normal.form_lambda (normal : subst.Normal ty) (orderly : ty.Orderly)
    (leaves : ∀ v, (meaning v).IsLeaf) : (ty.lambda meaning).form = ty.form := by
  cases normal with
  | @var v _ => exact (leaves v).form
  | arrow _ _ => rfl
  | @tuple elems _ =>
    have stuck : Ty.IsStuck (.tuple elems) := trivial
    rw [form, if_pos (operands_stuck stuck leaves), Ty.lambda, head_spine]
    rfl
  | @nominal template args _ =>
    have stuck : Ty.IsStuck (.nominal template args) := trivial
    rw [form, if_pos (operands_stuck stuck leaves), Ty.lambda, head_spine]
    rfl
  | quantified _ =>
    cases orderly with
    | quantified some _ _ =>
      obtain ⟨p, params, rfl⟩ := List.exists_cons_of_ne_nil some
      rw [Ty.lambda_cons]
      rfl
  | @app head args stuck _ some _ =>
    rw [form, Ty.lambda, operands_spine, head_spine, if_neg]
    · rfl
    · rw [List.length_append, Ty.length_lambdas, operands_stuck stuck leaves]
      have := List.length_pos_iff.mpr some
      omega

theorem zip_of_lambdas {types types' : List Ty}
    (same : Ty.lambdas types meaning = Ty.lambdas types' meaning') :
    types.length = types'.length ∧ ∀ pair ∈ types.zip types',
      pair.1.lambda meaning = pair.2.lambda meaning' := by
  induction types generalizing types' with
  | nil =>
    cases types' with
    | nil => exact ⟨rfl, List.forall_mem_nil _⟩
    | cons _ _ => cases same
  | cons ty types ih =>
    cases types' with
    | nil => cases same
    | cons ty' types' =>
      obtain ⟨first, rest⟩ := List.cons.inj same
      obtain ⟨length, each⟩ := ih rest
      exact ⟨congrArg Nat.succ length, List.forall_mem_cons.mpr ⟨first, each⟩⟩

theorem Normal.form_eq (normal : subst.Normal ty) (normal' : subst'.Normal ty')
    (orderly : ty.Orderly)
    (orderly' : ty'.Orderly) (leaves : ∀ v, (meaning v).IsLeaf) (leaves' : ∀ v, (meaning' v).IsLeaf)
    (same : ty.lambda meaning = ty'.lambda meaning') : ty.form = ty'.form :=
  (normal.form_lambda orderly leaves).symm.trans
    ((congrArg form same).trans (normal'.form_lambda orderly' leaves'))

theorem raise_ne_param {term : Lambda} {params : List TyVar} {v : TyVar} {count : Nat}
    (leaf : term.IsLeaf)
    (member : v ∈ params) (length : params.length = count) :
      Lambda.var (params.reverse.idxOf v) ≠ term.raise count := by
  have inside : params.reverse.idxOf v < params.length :=
    (List.idxOf_lt_length_of_mem (List.mem_reverse.mpr member)).trans_eq List.length_reverse
  intro same
  cases leaf with
  | var index =>
    have : params.reverse.idxOf v = index + count := Lambda.var.inj same
    omega
  | named name => cases same

theorem raise_inj {term term' : Lambda} {count : Nat} (leaf : term.IsLeaf) (leaf' : term'.IsLeaf)
    (same : term.raise count = term'.raise count) : term = term' := by
  cases leaf with
  | var index =>
    cases leaf' with
    | var index' => exact congrArg Lambda.var (Nat.add_right_cancel (Lambda.var.inj same))
    | named name => cases same
  | named name =>
    cases leaf' with
    | var index => cases same
    | named name' => exact same

theorem bound_of_enterAll {ps qs : List TyVar} {v w : TyVar} (length : ps.length = qs.length)
    (leaves : ∀ v, (meaning v).IsLeaf) (leaves' : ∀ v, (meaning' v).IsLeaf)
    (same : enterAll ps meaning v = enterAll qs meaning' w) :
    Ty.Bound ps qs (fun v w => meaning v = meaning' w) v w := by
  by_cases inner : v ∈ ps
  · rw [enterAll_of_mem inner] at same
    by_cases inner' : w ∈ qs
    · rw [enterAll_of_mem inner'] at same
      exact .inl ⟨inner, inner', Lambda.var.inj same⟩
    · rw [enterAll_of_not_mem inner'] at same
      exact absurd same (raise_ne_param (leaves' w) inner length)
  · rw [enterAll_of_not_mem inner] at same
    by_cases inner' : w ∈ qs
    · rw [enterAll_of_mem inner'] at same
      exact absurd same.symm (raise_ne_param (leaves v) inner' length.symm)
    · rw [enterAll_of_not_mem inner', length] at same
      exact .inr ⟨inner, inner', raise_inj (leaves v) (leaves' w) same⟩

theorem stuck_ne_lam (stuck : ty.IsStuck) (leaves : ∀ v, (meaning v).IsLeaf) (last : Bool)
    (body : Lambda) : ty.lambda meaning ≠ .lam last body := by
  intro same
  have heads := congrArg head same
  cases ty with
  | var v =>
    rw [Ty.lambda] at same
    have leaf := same ▸ leaves v
    cases leaf
  | arrow _ _ => cases same
  | tuple _ | nominal _ _ =>
    rw [Ty.lambda, head_spine] at heads
    cases heads
  | quantified _ _ | app _ _ => exact stuck.elim

theorem Normal.reduced (normal : subst.Normal ty) (leaves : ∀ v, (meaning v).IsLeaf) :
    (ty.lambda meaning).Reduced := by
  induction normal generalizing meaning with
  | @var v _ => exact (leaves v).reduced
  | arrow _ _ ihParam ihResult => exact ⟨⟨trivial, ihParam leaves, nofun⟩, ihResult leaves, nofun⟩
  | tuple _ ih | nominal _ ih =>
    rw [Ty.lambda, Ty.lambdas_eq_map]
    exact reduced_spine trivial nofun (List.forall_mem_map.mpr fun t member => ih t member leaves)
  | quantified _ ih => exact reduced_lams (ih (isLeaf_enterAll leaves _))
  | app stuck _ _ _ ihHead ih =>
    rw [Ty.lambda, Ty.lambdas_eq_map]
    exact reduced_spine (ihHead leaves) (stuck_ne_lam stuck leaves)
      (List.forall_mem_map.mpr fun t member => ih t member leaves)

/-- Normal forms that are the same term are equal up to the names of what their quantifiers bind. -/
theorem Normal.alike (normal : subst.Normal ty) (normal' : subst'.Normal ty') (orderly : ty.Orderly)
    (orderly' : ty'.Orderly) (leaves : ∀ v, (meaning v).IsLeaf) (leaves' : ∀ v, (meaning' v).IsLeaf)
    (same : ty.lambda meaning = ty'.lambda meaning') :
      Ty.Alike (fun v w => meaning v = meaning' w) ty ty' := by
  induction normal generalizing ty' meaning meaning' with
  | var isNew =>
    have forms := form_eq (.var isNew) normal' orderly orderly' leaves leaves' same
    cases normal' with
    | var _ => exact .var same
    | arrow _ _ | tuple _ | nominal _ | quantified _ | app _ _ _ _ => cases forms
  | arrow fst snd ihParam ihResult =>
    have forms := form_eq (.arrow fst snd) normal' orderly orderly' leaves leaves' same
    cases normal' with
    | arrow fst' snd' =>
      obtain ⟨params, results⟩ := Lambda.app.inj same
      obtain ⟨-, params⟩ := Lambda.app.inj params
      cases orderly with
      | arrow orderly rest =>
        cases orderly' with
        | arrow orderly' rest' =>
          exact .arrow (ihParam fst' orderly orderly' leaves leaves' params)
            (ihResult snd' rest rest' leaves leaves' results)
    | var _ | tuple _ | nominal _ | quantified _ | app _ _ _ _ => cases forms
  | tuple each ih =>
    have forms := form_eq (.tuple each) normal' orderly orderly' leaves leaves' same
    cases normal' with
    | tuple each' =>
      have parts := congrArg operands same
      rw [Ty.lambda, Ty.lambda, operands_spine, operands_spine] at parts
      obtain ⟨length, pairs⟩ := zip_of_lambdas parts
      cases orderly with
      | tuple orderly =>
        cases orderly' with
        | tuple orderly' =>
          refine .tuple length fun pair member => ?_
          obtain ⟨left, right⟩ := List.of_mem_zip member
          exact ih _ left (each' _ right) (orderly _ left) (orderly' _ right) leaves leaves'
            (pairs pair member)
    | var _ | arrow _ _ | nominal _ | quantified _ | app _ _ _ _ => cases forms
  | nominal each ih =>
    have forms := form_eq (.nominal each) normal' orderly orderly' leaves leaves' same
    cases normal' with
    | nominal each' =>
      have parts := congrArg operands same
      rw [Ty.lambda, Ty.lambda, operands_spine, operands_spine] at parts
      obtain ⟨length, pairs⟩ := zip_of_lambdas parts
      obtain ⟨rfl, -⟩ := Form.nominal.inj forms
      cases orderly with
      | nominal orderly =>
        cases orderly' with
        | nominal orderly' =>
          refine .nominal length fun pair member => ?_
          obtain ⟨left, right⟩ := List.of_mem_zip member
          exact ih _ left (each' _ right) (orderly _ left) (orderly' _ right) leaves leaves'
            (pairs pair member)
    | var _ | arrow _ _ | tuple _ | quantified _ | app _ _ _ _ => cases forms
  | quantified inside ih =>
    have forms := form_eq (.quantified inside) normal' orderly orderly' leaves leaves' same
    cases normal' with
    | quantified inside' =>
      cases orderly with
      | quantified some _ orderly =>
        cases orderly' with
        | quantified some' _ orderly' =>
          obtain ⟨length, bodies⟩ := lams_inj some some' same
          refine .quantified length
            ((ih inside' orderly orderly' (isLeaf_enterAll leaves _) (isLeaf_enterAll leaves' _)
            bodies).mono fun v w same => ?_)
          exact bound_of_enterAll length leaves leaves' same
    | var _ | arrow _ _ | tuple _ | nominal _ | app _ _ _ _ => cases forms
  | app stuck fst some each ihHead ih =>
    have forms := form_eq (.app stuck fst some each) normal' orderly orderly' leaves leaves' same
    cases normal' with
    | app stuck' fst' some' each' =>
      have heads := congrArg head same
      have parts := congrArg operands same
      rw [Ty.lambda, Ty.lambda, head_spine, head_spine] at heads
      rw [Ty.lambda, Ty.lambda, operands_spine, operands_spine] at parts
      have lengths := (operands_stuck stuck leaves).trans
        ((congrArg demand heads).trans (operands_stuck stuck' leaves').symm)
      obtain ⟨firsts, args⟩ := List.append_inj parts lengths
      have functions : _ = _ :=
        (spine_head_operands _).symm.trans
          ((congrArg₂ spine heads firsts).trans (spine_head_operands _))
      obtain ⟨length, pairs⟩ := zip_of_lambdas args
      cases orderly with
      | app orderly rest =>
        cases orderly' with
        | app orderly' rest' =>
          refine .app (ihHead fst' orderly orderly' leaves leaves' functions) length fun pair
            member => ?_
          obtain ⟨left, right⟩ := List.of_mem_zip member
          exact ih _ left (each' _ right) (rest _ left) (rest' _ right) leaves leaves'
            (pairs pair member)
    | var _ | arrow _ _ | tuple _ | nominal _ | quantified _ => cases forms

end Normal

/-- Types that are the same term resolve to types that are equal up to the names of what their
quantifiers bind, as long as nothing is caught on the way. -/
theorem Hygienic.alike {subst' : Subst} {ty' result' : Ty} {meaning' : TyVar → Lambda}
    (ends : subst.LinksEnd)
    (ends' : subst'.LinksEnd) (hygienic : subst.Hygienic ty) (hygienic' : subst'.Hygienic ty')
    (shown : subst.Shown ty)
    (shown' : subst'.Shown ty') (zonks : subst.Zonks ty result) (zonks' : subst'.Zonks ty' result')
    (leaves : ∀ v, (meaning v).IsLeaf) (leaves' : ∀ v, (meaning' v).IsLeaf)
    (equal : (ty.lambda meaning).Equal (ty'.lambda meaning')) :
    Ty.Alike (fun v w => meaning v = meaning' w) result result' := by
  obtain ⟨depth, walk⟩ := zonks
  obtain ⟨depth', walk'⟩ := zonks'
  obtain ⟨orderly, same⟩ := hygienic.zonkWithin ends .here shown walk
  obtain ⟨orderly', same'⟩ := hygienic'.zonkWithin ends' .here shown' walk'
  have normal := ends.normal_zonkWithin walk
  have normal' := ends'.normal_zonkWithin walk'
  refine normal.alike normal' orderly orderly' leaves leaves' ?_
  exact (((same meaning).symm.trans equal).trans (same' meaning')).eq_of_reduced
    (normal.reduced leaves) (normal'.reduced leaves')

end Subst

end PolyCheck
