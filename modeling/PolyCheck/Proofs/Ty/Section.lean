import PolyCheck.Proofs.Subst.Normal
import PolyCheck.Proofs.Ty.Alike
import PolyCheck.Proofs.Ty.Application
import PolyCheck.Subst.Unify

/-! Functions on types that are a constructor with its first components given. Abstracting a type
over its last components makes such sections, and sections are all that comes of them: with
arguments for some of its parameters a section is a section again, and with arguments for all of
them it is a type with that constructor. Every parameter stands once, in its own place, so that
application loses nothing. -/
namespace PolyCheck

inductive Former where
  | arrow
  | tuple
  | nominal (template : TemplateId)

namespace Former

/-- Whether the constructor takes so many components. -/
def Takes : Former → Nat → Prop
  | arrow, count => count = 2
  | tuple, _ | nominal _, _ => True

/-- The type with the given components, of which there are as many as the constructor takes. -/
def build : Former → List Ty → Ty
  | arrow, [param, result] => .arrow param result
  | arrow, _ => .unit
  | tuple, elems => .tuple elems
  | nominal template, args => .nominal template args

/-- The constructor as a function of its last components. -/
def lambda (former : Former) (kept : List Ty) (params : List TyVar) : Ty :=
  .quantified params (former.build (kept ++ params.map .var))

variable {former former' : Former} {parts kept args : List Ty} {params : List TyVar}
  {binder free : TyVar → Prop}

theorem components?_eq {ty : Ty} {build : List Ty → Ty}
    (known : Unify.components? ty = some (parts, build)) :
    ∃ former : Former, former.Takes parts.length ∧ ty = former.build parts ∧
      ∀ others : List Ty, others.length = parts.length → build others = former.build others := by
  cases ty with
  | nominal template args =>
    obtain ⟨rfl, rfl⟩ := Prod.mk.inj (Option.some.inj known)
    exact ⟨.nominal template, trivial, rfl, fun _ _ => rfl⟩
  | tuple elems =>
    obtain ⟨rfl, rfl⟩ := Prod.mk.inj (Option.some.inj known)
    exact ⟨.tuple, trivial, rfl, fun _ _ => rfl⟩
  | arrow param result =>
    obtain ⟨rfl, rfl⟩ := Prod.mk.inj (Option.some.inj known)
    refine ⟨.arrow, rfl, rfl, fun others length => ?_⟩
    obtain ⟨p, r, rfl⟩ := List.length_eq_two.mp length
    rfl
  | var _ | quantified _ _ | app _ _ => cases known

theorem isStuck_build (former : Former) (parts : List Ty) : (former.build parts).IsStuck := by
  cases former with
  | arrow =>
    rw [build.eq_def]
    split <;> trivial
  | tuple | nominal _ => trivial

theorem shallowWithin_build (former : Former) (subst : Subst) (parts : List Ty) (depth : Nat) :
    subst.shallowWithin (depth + 1) (former.build parts) = some (former.build parts) := by
  cases former with
  | arrow =>
    rw [build.eq_def]
    split <;> rfl
  | tuple | nominal _ => rfl

theorem substitute_build (takes : former.Takes parts.length) (assignment : Assignment) :
    (former.build parts).substitute assignment = former.build
    (parts.map (Ty.substitute assignment)) := by
  cases former with
  | arrow =>
    obtain ⟨p, r, rfl⟩ := List.length_eq_two.mp takes
    rfl
  | tuple | nominal _ => rw [build, Ty.substitute, Ty.substituteAll_eq_map, build]

theorem mem_leaves_build (takes : former.Takes parts.length) {v : TyVar} :
    v ∈ (former.build parts).leaves ↔ ∃ t ∈ parts, v ∈ t.leaves := by
  cases former with
  | arrow =>
    obtain ⟨p, r, rfl⟩ := List.length_eq_two.mp takes
    simp [build, Ty.leaves]
  | tuple | nominal _ => rw [build, Ty.leaves, Ty.mem_leavesAll]

theorem mem_leaves_lambda (takes : former.Takes (kept.length + params.length)) {v : TyVar} :
    v ∈ (former.lambda kept params).leaves ↔ (∃ t ∈ kept, v ∈ t.leaves) ∨ v ∈ params := by
  have places : (∃ t ∈ params.map Ty.var, v ∈ t.leaves) ↔ v ∈ params := by
    simp only [List.mem_map, exists_exists_and_eq_and, Ty.leaves, List.mem_singleton,
      exists_eq_right']
  rw [lambda, Ty.leaves, mem_leaves_build (by simpa using takes), ← places]
  simp only [List.mem_append, or_and_right, exists_or]

theorem children_build (takes : former.Takes parts.length) :
    (former.build parts).children = parts := by
  cases former with
  | arrow =>
    obtain ⟨p, r, rfl⟩ := List.length_eq_two.mp takes
    rfl
  | tuple | nominal _ => rfl

theorem confined_build (takes : former.Takes parts.length)
    (each : ∀ t ∈ parts, t.Confined binder free) : (former.build parts).Confined binder free := by
  cases former with
  | arrow =>
    obtain ⟨p, r, rfl⟩ := List.length_eq_two.mp takes
    exact .arrow (each p (by simp)) (each r (by simp))
  | tuple => exact .tuple each
  | nominal template => exact .nominal each

theorem confined_build_inv (takes : former.Takes parts.length)
    (confined : (former.build parts).Confined binder free) :
    ∀ t ∈ parts, t.Confined binder free := by
  cases former with
  | arrow =>
    obtain ⟨p, r, rfl⟩ := List.length_eq_two.mp takes
    simpa using confined.arrow_inv
  | tuple => exact confined.tuple_inv
  | nominal template => exact confined.nominal_inv

theorem distinct_build (takes : former.Takes parts.length) (each : ∀ t ∈ parts, t.Distinct) :
    (former.build parts).Distinct := by
  cases former with
  | arrow =>
    obtain ⟨p, r, rfl⟩ := List.length_eq_two.mp takes
    exact .arrow (each p (by simp)) (each r (by simp))
  | tuple => exact .tuple each
  | nominal template => exact .nominal each

section Apply

theorem map_image (once : params.Nodup) (args : List Ty) :
    params.map (Assignment.ofLists params args).image =
    args.take params.length ++ (params.drop args.length).map .var := by
  induction params generalizing args with
  | nil => simp
  | cons p params ih =>
    obtain ⟨absent, once⟩ := List.nodup_cons.mp once
    cases args with
    | nil => exact List.map_congr_left fun _ _ => rfl
    | cons arg args =>
      have entries : Assignment.ofLists (p :: params) (arg :: args) =
          Assignment.ofLists params args ++ [(p, arg)] := by
        rw [Assignment.ofLists, List.zip_cons_cons, List.reverse_cons]
        rfl
      have first : (Assignment.ofLists (p :: params) (arg :: args)).image p = arg := by
        have leaves : (Assignment.ofLists params args).Leaves p :=
          Assignment.leaves_ofLists fun member => absent (List.mem_of_mem_take member)
        rw [entries, Assignment.image, List.lookup_append, leaves]
        simp
      have others : ∀ q ∈ params, (Assignment.ofLists (p :: params) (arg :: args)).image q =
          (Assignment.ofLists params args).image q := fun q member => by
        have different : q ≠ p := fun same => absent (same ▸ member)
        rw [entries, Assignment.image, List.lookup_append, List.lookup_cons,
          beq_false_of_ne different, List.lookup_nil, Option.or_none]
        rfl
      rw [List.map_cons, first, List.map_congr_left others, ih once args]
      simp

theorem map_substitute (once : params.Nodup) (spared : Ty.Spared params kept) (args : List Ty) :
    (kept ++ params.map Ty.var).map (Ty.substitute (.ofLists params args)) =
      kept ++ args.take params.length ++ (params.drop args.length).map .var := by
  have same : kept.map (Ty.substitute (.ofLists params args)) = kept := by
    refine (List.map_congr_left fun t member => ?_).trans (List.map_id' kept)
    exact (spared t member).substitute_eq fun v absent =>
      Assignment.leaves_ofLists fun inside => absent (List.mem_of_mem_take inside)
  rw [List.map_append, same, List.map_map, List.append_assoc, ← map_image once args]
  rfl

variable (takes : former.Takes (kept.length + params.length)) (once : params.Nodup)
  (spared : Ty.Spared params kept)
include takes once spared

theorem substitute_lambda (args : List Ty) :
    (former.build (kept ++ params.map .var)).substitute (.ofLists params args) =
      former.build (kept ++ args.take params.length ++ (params.drop args.length).map .var) := by
  rw [substitute_build (by simpa using takes), map_substitute once spared]

theorem apply_lambda_fewer (given : args ≠ []) (fewer : args.length < params.length) :
    (former.lambda kept params).apply args = former.lambda (kept ++ args)
    (params.drop args.length) := by
  rw [lambda, Ty.apply_fewer given fewer, substitute_lambda takes once spared,
    List.take_of_length_le (Nat.le_of_lt fewer), lambda]

theorem apply_lambda_enough (some : params ≠ []) (enough : params.length ≤ args.length) :
    (former.lambda kept params).apply args =
      (former.build (kept ++ args.take params.length)).apply (args.drop params.length) := by
  rw [lambda, Ty.apply_enough some enough, substitute_lambda takes once spared,
    List.drop_eq_nil_of_le enough, List.map_nil, List.append_nil]

end Apply

end Former

namespace Ty

/-- Types in which every function on types is a section: a constructor as a function of its last
components, with different parameters and with first components over the free variables only. -/
inductive Sectional (binder own : TyVar → Prop) : Ty → Prop where
  | var {v : TyVar} (holds : own v) : Sectional binder own (.var v)
  | arrow {param result : Ty} (fst : Sectional binder own param)
      (snd : Sectional binder own result) : Sectional binder own (.arrow param result)
  | tuple {elems : List Ty} (each : ∀ t ∈ elems, Sectional binder own t) : Sectional binder own
      (.tuple elems)
  | nominal {template : TemplateId} {args : List Ty} (each : ∀ t ∈ args, Sectional binder own t) :
    Sectional binder own (.nominal template args)
  | lambda {former : Former} {kept : List Ty} {params : List TyVar}
    (takes : former.Takes (kept.length + params.length)) (some : params ≠ []) (once : params.Nodup)
    (binders : ∀ p ∈ params, binder p) (each : ∀ t ∈ kept, Sectional binder own t) :
    Sectional binder own (.quantified params (former.build (kept ++ params.map .var)))
  | app {head : Ty} {args : List Ty} (fst : Sectional binder own head) (each : ∀ t ∈ args,
      Sectional binder own t) : Sectional binder own (.app head args)

variable {binder binder' own own' : TyVar → Prop} {ty head : Ty} {former : Former}
  {parts kept args : List Ty} {params : List TyVar}

theorem apply_app (head : Ty) (first args : List Ty) : (app head first).apply args = app head
    (first ++ args) := by
  rcases eq_or_ne args [] with rfl | given
  · rw [apply_nil, List.append_nil]
  · rw [Ty.apply]
    exact given

theorem Sectional.mono (sectional : ty.Sectional binder own) (binders : ∀ v, binder v → binder' v)
    (owns : ∀ v, own v → own' v) : ty.Sectional binder' own' := by
  induction sectional with
  | var holds => exact .var (owns _ holds)
  | arrow _ _ ihParam ihResult => exact .arrow ihParam ihResult
  | tuple _ ih => exact .tuple ih
  | nominal _ ih => exact .nominal ih
  | lambda takes some once params _ ih =>
    exact .lambda takes some once (fun p member => binders p (params p member)) ih
  | app _ _ ihHead ih => exact .app ihHead ih

theorem Sectional.confined (sectional : ty.Sectional binder own) : ty.Confined binder own := by
  induction sectional with
  | var holds => exact .var holds
  | arrow _ _ ihParam ihResult => exact .arrow ihParam ihResult
  | tuple _ ih => exact .tuple ih
  | nominal _ ih => exact .nominal ih
  | lambda takes _ _ binders _ ih =>
    refine .quantified binders (Former.confined_build (by simpa using takes) fun t member => ?_)
    rcases List.mem_append.mp member with inside | inside
    · exact (ih t inside).imp fun _ => .inl
    · obtain ⟨p, isParam, rfl⟩ := List.mem_map.mp inside
      exact .var (.inr isParam)
  | app _ _ ihHead ih => exact .app ihHead ih

theorem Sectional.distinct (sectional : ty.Sectional binder own) : ty.Distinct := by
  induction sectional with
  | var _ => exact .var
  | arrow _ _ ihParam ihResult => exact .arrow ihParam ihResult
  | tuple _ ih => exact .tuple ih
  | nominal _ ih => exact .nominal ih
  | lambda takes _ once _ _ ih =>
    refine .quantified once (Former.distinct_build (by simpa using takes) fun t member => ?_)
    rcases List.mem_append.mp member with inside | inside
    · exact ih t inside
    · obtain ⟨p, -, rfl⟩ := List.mem_map.mp inside
      exact .var
  | app _ _ ihHead ih => exact .app ihHead ih

theorem Sectional.build (takes : former.Takes parts.length)
    (each : ∀ t ∈ parts, t.Sectional binder own) : (former.build parts).Sectional binder own := by
  cases former with
  | arrow =>
    obtain ⟨p, r, rfl⟩ := List.length_eq_two.mp takes
    exact .arrow (each p (by simp)) (each r (by simp))
  | tuple => exact .tuple each
  | nominal template => exact .nominal each

theorem Sectional.build_inv (takes : former.Takes parts.length)
    (sectional : (former.build parts).Sectional binder own) :
    ∀ t ∈ parts, t.Sectional binder own := by
  cases former with
  | arrow =>
    obtain ⟨p, r, rfl⟩ := List.length_eq_two.mp takes
    cases sectional with
    | arrow fst snd => simp [fst, snd]
  | tuple =>
    cases sectional with
    | tuple each => exact each
  | nominal template =>
    cases sectional with
    | nominal each => exact each

theorem Sectional.binding (sectional : ty.Sectional binder own) :
    ty.Sectional (fun v => ¬ ty.Confined (· ≠ v) fun _ => True) own := by
  induction sectional with
  | var holds => exact .var holds
  | arrow _ _ ihParam ihResult =>
    exact .arrow (ihParam.mono (fun _ binds free => binds free.arrow_inv.1) fun _ => id)
      (ihResult.mono (fun _ binds free => binds free.arrow_inv.2) fun _ => id)
  | tuple _ ih =>
    exact .tuple fun t member =>
      (ih t member).mono (fun _ binds free => binds (free.tuple_inv t member)) fun _ => id
  | nominal _ ih =>
    exact .nominal fun t member =>
      (ih t member).mono (fun _ binds free => binds (free.nominal_inv t member)) fun _ => id
  | @lambda former kept params takes some once _ _ ih =>
    refine .lambda takes some once (fun p member free => free.quantified_inv.1 p member rfl) fun t
      member => ?_
    refine (ih t member).mono (fun v binds free => binds ?_) fun _ => id
    have inside := Former.confined_build_inv (by simpa using takes) free.quantified_inv.2
    exact (inside t (List.mem_append_left _ member)).imp fun _ _ => trivial
  | app _ _ ihHead ih =>
    exact .app (ihHead.mono (fun _ binds free => binds free.app_inv.1) fun _ => id)
      fun t member => (ih t member).mono (fun _ binds free => binds (free.app_inv.2 t member))
        fun _ => id

inductive Unquantified (own : TyVar → Prop) : Ty → Prop where
  | var {v : TyVar} (holds : own v) : Unquantified own (.var v)
  | arrow {param result : Ty} (fst : Unquantified own param) (snd : Unquantified own result) :
    Unquantified own (.arrow param result)
  | tuple {elems : List Ty} (each : ∀ t ∈ elems, Unquantified own t) :
      Unquantified own (.tuple elems)
  | nominal {template : TemplateId} {args : List Ty} (each : ∀ t ∈ args, Unquantified own t) :
    Unquantified own (.nominal template args)
  | app {head : Ty} {args : List Ty} (fst : Unquantified own head) (each : ∀ t ∈ args,
      Unquantified own t) : Unquantified own (.app head args)

theorem Unquantified.sectional (plain : ty.Unquantified own) : ty.Sectional binder own := by
  induction plain with
  | var holds => exact .var holds
  | arrow _ _ ihParam ihResult => exact .arrow ihParam ihResult
  | tuple _ ih => exact .tuple ih
  | nominal _ ih => exact .nominal ih
  | app _ _ ihHead ih => exact .app ihHead ih

theorem Unquantified.mono (plain : ty.Unquantified own) (owns : ∀ v, own v → own' v) :
    ty.Unquantified own' := by
  induction plain with
  | var holds => exact .var (owns _ holds)
  | arrow _ _ ihParam ihResult => exact .arrow ihParam ihResult
  | tuple _ ih => exact .tuple ih
  | nominal _ ih => exact .nominal ih
  | app _ _ ihHead ih => exact .app ihHead ih

theorem Unquantified.substitute (plain : ty.Unquantified own) {assignment : Assignment}
    (images : ∀ v, own v → (assignment.image v).Unquantified own') :
    (ty.substitute assignment).Unquantified own' := by
  induction plain with
  | var holds => exact images _ holds
  | arrow _ _ ihParam ihResult => exact .arrow ihParam ihResult
  | tuple _ ih =>
    rw [Ty.substitute, substituteAll_eq_map]
    exact .tuple (List.forall_mem_map.mpr ih)
  | nominal _ ih =>
    rw [Ty.substitute, substituteAll_eq_map]
    exact .nominal (List.forall_mem_map.mpr ih)
  | app _ _ ihHead ih =>
    rw [Ty.substitute, substituteAll_eq_map]
    exact .app ihHead (List.forall_mem_map.mpr ih)

structure Sections (binder own : TyVar → Prop) (former : Former) (kept : List Ty)
    (params : List TyVar) : Prop where
  takes : former.Takes (kept.length + params.length)
  some : params ≠ []
  once : params.Nodup
  binders : ∀ p ∈ params, binder p
  each : ∀ t ∈ kept, t.Sectional binder own

theorem Sections.mono (sections : Sections binder own former kept params)
    (binders : ∀ v, binder v → binder' v)
    (owns : ∀ v, own v → own' v) : Sections binder' own' former kept params where
  takes := sections.takes
  some := sections.some
  once := sections.once
  binders p member := binders p (sections.binders p member)
  each t member := (sections.each t member).mono binders owns

theorem Sections.replace (sections : Sections binder own former kept params) {kept' : List Ty}
    (length : kept.length = kept'.length) (each : ∀ t ∈ kept', t.Sectional binder own) :
    Sections binder own former kept' params where
  takes := length ▸ sections.takes
  some := sections.some
  once := sections.once
  binders := sections.binders
  each := each

theorem Sections.sectional (sections : Sections binder own former kept params) :
    (former.lambda kept params).Sectional binder own :=
  .lambda sections.takes sections.some sections.once sections.binders sections.each

theorem Sectional.quantified_inv {body : Ty}
    (sectional : (Ty.quantified params body).Sectional binder own) :
    ∃ former kept, body = former.build (kept ++ params.map .var) ∧
      Sections binder own former kept params := by
  cases sectional with
  | lambda takes some once binders each => exact ⟨_, _, rfl, takes, some, once, binders, each⟩

theorem Sectional.app_inv (sectional : (Ty.app head args).Sectional binder own) :
    head.Sectional binder own ∧ ∀ t ∈ args, t.Sectional binder own := by
  cases sectional with
  | app fst each => exact ⟨fst, each⟩

section Apart

variable (apart : ∀ v, own v → ¬ binder v)
include apart

theorem spared_of_sectional (binders : ∀ p ∈ params, binder p)
    (each : ∀ t ∈ kept, t.Sectional binder own) : Spared params kept := fun t member =>
  (each t member).confined.mono (fun _ _ => trivial) fun v holds inside =>
    apart v holds (binders v inside)

theorem Sections.spared (sections : Sections binder own former kept params) : Spared params kept :=
  spared_of_sectional apart sections.binders sections.each

omit apart in
theorem Sections.takes_fewer (sections : Sections binder own former kept params)
    (fewer : args.length < params.length) :
    former.Takes ((kept ++ args).length + (params.drop args.length).length) := by
  rw [List.length_append, List.length_drop, Nat.add_assoc, Nat.add_sub_cancel' (Nat.le_of_lt fewer)]
  exact sections.takes

omit apart in
theorem Sections.fewer (sections : Sections binder own former kept params)
    (each : ∀ t ∈ args, t.Sectional binder own) (fewer : args.length < params.length) :
    Sections binder own former (kept ++ args) (params.drop args.length) where
  takes := sections.takes_fewer fewer
  some := List.ne_nil_of_length_pos (by rw [List.length_drop]; omega)
  once := sections.once.sublist (List.drop_sublist _ _)
  binders p member := sections.binders p (List.mem_of_mem_drop member)
  each := List.forall_mem_append.mpr ⟨sections.each, each⟩

omit apart in
theorem Sections.enough (sections : Sections binder own former kept params)
    (enough : params.length ≤ args.length) :
    former.Takes (kept ++ args.take params.length).length := by
  rw [List.length_append, List.length_take, Nat.min_eq_left enough]
  exact sections.takes

theorem Sections.apply_fewer (sections : Sections binder own former kept params) (given : args ≠ [])
    (fewer : args.length < params.length) :
    (former.lambda kept params).apply args = former.lambda (kept ++ args)
    (params.drop args.length) :=
  Former.apply_lambda_fewer sections.takes sections.once (sections.spared apart) given fewer

theorem Sections.apply_enough (sections : Sections binder own former kept params)
    (enough : params.length ≤ args.length) : (former.lambda kept params).apply args =
      (former.build (kept ++ args.take params.length)).apply (args.drop params.length) :=
  Former.apply_lambda_enough sections.takes sections.once (sections.spared apart)
    sections.some enough

theorem Sectional.apply (sectional : head.Sectional binder own)
    (each : ∀ t ∈ args, t.Sectional binder own) : (head.apply args).Sectional binder own := by
  have stuck : ∀ {other : Ty} {others : List Ty}, other.IsStuck → other.Sectional binder own →
      (∀ t ∈ others, t.Sectional binder own) → (other.apply others).Sectional binder own := by
    intro other others isStuck shown each
    rcases eq_or_ne others [] with rfl | given
    · rwa [apply_nil]
    · rw [Subst.apply_stuck isStuck given]
      exact .app shown each
  rcases eq_or_ne args [] with rfl | given
  · rwa [apply_nil]
  cases head with
  | var _ | arrow _ _ | tuple _ | nominal _ _ => exact stuck trivial sectional each
  | app inner first =>
    obtain ⟨fst, others⟩ := sectional.app_inv
    rw [apply_app]
    exact .app fst (List.forall_mem_append.mpr ⟨others, each⟩)
  | quantified params body =>
    obtain ⟨former, kept, rfl, sections⟩ := sectional.quantified_inv
    change ((former.lambda kept params).apply args).Sectional binder own
    rcases Nat.lt_or_ge args.length params.length with fewer | enough
    · rw [sections.apply_fewer apart given fewer]
      exact (sections.fewer each fewer).sectional
    · rw [sections.apply_enough apart enough]
      refine stuck (Former.isStuck_build _ _) (.build (sections.enough enough) ?_)
        fun t member => each t (List.mem_of_mem_drop member)
      exact List.forall_mem_append.mpr ⟨sections.each,
        fun t member => each t (List.mem_of_mem_take member)⟩

theorem Sectional.apply_append (sectional : head.Sectional binder own)
    (each : ∀ t ∈ args, t.Sectional binder own)
    (others : List Ty) : (head.apply args).apply others = head.apply (args ++ others) := by
  refine apply_apply sectional.distinct (fun t member => (each t member).distinct) fun waiting body
    remains => ?_
  have result := sectional.apply apart each
  rw [remains] at result
  exact spared_of_sectional apart result.confined.quantified_inv.1 each

theorem Sectional.mem_leaves_apply (sectional : head.Sectional binder own) {v : TyVar}
    (member : v ∈ (Ty.app head args).leaves) : v ∈ (head.apply args).leaves ∨ binder v := by
  have stuck : ∀ {other : Ty} {others : List Ty}, other.IsStuck → v ∈ (Ty.app other others).leaves →
      v ∈ (other.apply others).leaves := by
    intro other others isStuck member
    rcases eq_or_ne others [] with rfl | given
    · simpa [leaves, leavesAll] using member
    · rwa [Subst.apply_stuck isStuck given]
  rcases eq_or_ne args [] with rfl | given
  · exact .inl (by simpa [leaves, leavesAll] using member)
  cases head with
  | var _ | arrow _ _ | tuple _ | nominal _ _ => exact .inl (stuck trivial member)
  | app inner first =>
    rw [apply_app]
    simp only [leaves, List.mem_append, mem_leavesAll, or_and_right, exists_or] at member ⊢
    exact .inl (or_assoc.mp member)
  | quantified params body =>
    obtain ⟨former, kept, rfl, sections⟩ := sectional.quantified_inv
    change v ∈ ((former.lambda kept params).apply args).leaves ∨ binder v
    have among : (∃ t ∈ kept ++ args, v ∈ t.leaves) ∨ binder v := by
      rw [leaves, List.mem_append, mem_leavesAll] at member
      rcases member with inHead | ⟨t, isArg, inside⟩
      · rcases (Former.mem_leaves_lambda sections.takes).mp inHead with ⟨t, isKept,
          inside⟩ | isParam
        · exact .inl ⟨t, List.mem_append_left _ isKept, inside⟩
        · exact .inr (sections.binders v isParam)
      · exact .inl ⟨t, List.mem_append_right _ isArg, inside⟩
    refine among.imp_left ?_
    rintro ⟨t, member, inside⟩
    rcases Nat.lt_or_ge args.length params.length with fewer | enough
    · rw [sections.apply_fewer apart given fewer,
        Former.mem_leaves_lambda (sections.takes_fewer fewer)]
      exact .inl ⟨t, member, inside⟩
    · rw [sections.apply_enough apart enough]
      refine stuck (Former.isStuck_build _ _) ?_
      rw [leaves, List.mem_append, mem_leavesAll, Former.mem_leaves_build (sections.enough enough)]
      rw [← List.take_append_drop params.length args, ← List.append_assoc] at member
      exact (List.mem_append.mp member).imp (fun first => ⟨t, first, inside⟩) fun rest =>
        ⟨t, rest, inside⟩

end Apart

end Ty

end PolyCheck
