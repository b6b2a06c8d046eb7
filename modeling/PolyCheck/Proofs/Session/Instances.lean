import PolyCheck.Proofs.Session.Reading
import PolyCheck.Proofs.Subst.Relabelling
import PolyCheck.Proofs.Subst.Traversal

/-! Instances of the body of a quantifier at unsolved variables. Over different variables an
instance is the same type under other names; the search for free variables finds them at the same
places, so what it is generalized to is the same scheme. -/
namespace PolyCheck

variable {label : TyVar → TyVar} {binder free : TyVar → Prop}

namespace Ty

mutual

theorem binders_relabel : ∀ ty : Ty, (ty.relabel label).binders = ty.binders.map label
  | .var _ => rfl
  | .arrow param result => by
    rw [relabel, binders, binders, binders_relabel param, binders_relabel result, List.map_append]
  | .tuple elems => bindersAll_relabel elems
  | .nominal _ args => bindersAll_relabel args
  | .quantified params body => by
    rw [relabel, binders, binders, binders_relabel body, List.map_append]
  | .app head args => by
    rw [relabel, binders, binders, binders_relabel head, bindersAll_relabel args, List.map_append]

theorem bindersAll_relabel : ∀ types : List Ty,
    bindersAll (relabelAll label types) = (bindersAll types).map label
  | [] => rfl
  | t :: ts => by
    rw [relabelAll, bindersAll, bindersAll, binders_relabel t, bindersAll_relabel ts,
      List.map_append]

end

theorem mem_bindersAll {v : TyVar} {types : List Ty} : v ∈ bindersAll types ↔ ∃ t ∈ types,
    v ∈ t.binders := by
  induction types with
  | nil => simp [bindersAll]
  | cons t ts ih => simp [bindersAll, ih]

theorem Confined.of_mem_binders {ty : Ty} (confined : ty.Confined binder free) : ∀ p ∈ ty.binders,
    binder p := by
  induction confined with
  | var _ => exact List.forall_mem_nil _
  | arrow _ _ ihParam ihResult => exact List.forall_mem_append.mpr ⟨ihParam, ihResult⟩
  | tuple _ ih | nominal _ ih =>
    intro p member
    obtain ⟨t, inside, inBinders⟩ := mem_bindersAll.mp member
    exact ih t inside p inBinders
  | quantified params _ ih => exact List.forall_mem_append.mpr ⟨params, ih⟩
  | app _ _ ihHead ih =>
    refine List.forall_mem_append.mpr ⟨ihHead, fun p member => ?_⟩
    obtain ⟨t, inside, inBinders⟩ := mem_bindersAll.mp member
    exact ih t inside p inBinders

end Ty

namespace Subst

theorem Normal.freeVars_relabel {subst : Subst} {ty : Ty} (normal : subst.Normal ty)
    (injective : Function.Injective label) (confined : ty.Confined binder free)
    (normal' : subst.Normal (ty.relabel label))
    (binders : ∀ v, binder v → (subst.cell v).IsNew ∧ label v = v) :
    subst.freeVars (ty.relabel label) = (subst.freeVars ty).map label := by
  have roots : ty.binders.map subst.root = ty.binders := (List.map_congr_left fun p member =>
    root_of_isNew (binders p (confined.of_mem_binders p member)).1).trans (List.map_id _)
  have kept : ty.binders.map label = ty.binders := (List.map_congr_left fun p member =>
    (binders p (confined.of_mem_binders p member)).2).trans (List.map_id _)
  rw [normal'.freeVars, normal.freeVars, Ty.binders_relabel, Ty.leaves_relabel, kept, roots,
    eraseDups_map injective, List.filter_map]
  refine congrArg (List.map label) (List.filter_congr fun v _ =>
    congrArg not (Bool.eq_iff_iff.mpr ?_))
  rw [List.contains_iff_mem, List.contains_iff_mem]
  conv_lhs => rw [← kept]
  exact List.mem_map_of_injective injective

theorem exists_swap {vars others : List TyVar} (length : vars.length = others.length)
    (distinct : vars.Nodup) (distinct' : others.Nodup) (apart : ∀ v ∈ vars, v ∉ others) :
    ∃ swap : Equiv.Perm TyVar, vars.map swap = others ∧ ∀ v, v ∉ vars → v ∉ others →
      swap v = v := by
  induction vars generalizing others with
  | nil =>
    obtain rfl := List.length_eq_zero_iff.mp length.symm
    exact ⟨1, rfl, fun _ _ _ => rfl⟩
  | cons v vars ih =>
    cases others with
    | nil => cases length
    | cons w others =>
      obtain ⟨old, distinct⟩ := List.nodup_cons.mp distinct
      obtain ⟨old', distinct'⟩ := List.nodup_cons.mp distinct'
      simp only [List.mem_cons, not_or, forall_eq_or_imp] at apart
      obtain ⟨⟨different, apartV⟩, rest⟩ := apart
      obtain ⟨swap, images, fixes⟩ := ih (Nat.succ.inj length) distinct distinct' fun u member =>
        (rest u member).2
      have fixed : swap v = v := fixes v old apartV
      refine ⟨Equiv.swap v w * swap, ?_, fun u outside outside' => ?_⟩
      · rw [List.map_cons, Equiv.Perm.mul_apply, fixed, Equiv.swap_apply_left, ← images]
        refine congrArg (w :: ·) (List.map_congr_left fun u member => ?_)
        have inOthers : swap u ∈ others := images ▸ List.mem_map_of_mem member
        rw [Equiv.Perm.mul_apply, Equiv.swap_apply_of_ne_of_ne]
        · exact fun same => apartV (same ▸ inOthers)
        · exact fun same => old' (same ▸ inOthers)
      · rw [List.mem_cons, not_or] at outside outside'
        rw [Equiv.Perm.mul_apply, fixes u outside.2 outside'.2,
          Equiv.swap_apply_of_ne_of_ne outside.1 outside'.1]

variable {subst : Subst} {params copies copies' : List TyVar} {body : Ty}

/-- A body over parameters of a quantifier, and as many unsolved variables to put in their place. -/
structure Copied (subst : Subst) (binder : TyVar → Prop) (params : List TyVar) (body : Ty)
    (copies : List TyVar) : Prop where
  normal : subst.Normal body
  confined : body.Confined binder (· ∈ params)
  binders : ∀ v, binder v → (subst.cell v).IsNew
  bound : ∀ v ∈ params, binder v
  length : copies.length = params.length
  distinct : copies.Nodup
  unsolved : ∀ v ∈ copies, (subst.cell v).IsNew
  apart : ∀ v ∈ copies, ¬ binder v

def instanceAt (params : List TyVar) (body : Ty) (copies : List TyVar) : Ty :=
  body.substitute (.ofLists params (copies.map .var))

namespace Copied

variable (copied : subst.Copied binder params body copies)
include copied

theorem instantiate : subst.Normal (instanceAt params body copies) ∧
    (instanceAt params body copies).Confined binder (· ∈ copies) ∧ subst.Confines binder
    (· ∈ copies) :=
  copied.normal.instantiate copied.confined copied.binders copied.length copied.unsolved

theorem lengthened {after : Subst} (longer : subst.Lengthened after) :
    after.Copied binder params body copies where
  normal := longer.normal copied.normal
  confined := copied.confined
  binders v isBinder := longer.isNew_of_isNew (copied.binders v isBinder)
  bound := copied.bound
  length := copied.length
  distinct := copied.distinct
  unsolved v member := longer.isNew_of_isNew (copied.unsolved v member)
  apart := copied.apart

theorem freeVars_lengthened {after : Subst} (longer : subst.Lengthened after)
    (ends : subst.LinksEnd) :
    after.freeVars (instanceAt params body copies) = subst.freeVars
    (instanceAt params body copies) := by
  obtain ⟨normal, confined, confines⟩ := copied.instantiate
  obtain ⟨free, search, -⟩ := normal.exists_freeVars? confines confined
  rw [freeVars, freeVars, search, longer.freeVars? ends search]

theorem generalize {fixed : List TyVar} (spared : ∀ v ∈ copies, v ∉ fixed) :
    Scheme.generalize subst fixed (instanceAt params body copies) =
      ⟨subst.freeVars (instanceAt params body copies), instanceAt params body copies⟩ := by
  obtain ⟨normal, confined, confines⟩ := copied.instantiate
  rw [Scheme.generalize, normal.zonk]
  refine congrArg (Scheme.mk · _) (List.filter_eq_self.mpr fun v free => ?_)
  simpa using spared v (confines.mem_freeVars confined free)

theorem closed :
    (Ty.quantified (subst.freeVars (instanceAt params body copies))
      (instanceAt params body copies)).Confined
    (fun v => binder v ∨ v ∈ copies) fun _ => False := by
  obtain ⟨normal, confined, confines⟩ := copied.instantiate
  refine .quantified (fun v free => .inr (confines.mem_freeVars confined free)) ?_
  refine (normal.confined_freeVars (fun v isBinder => ⟨copied.binders v isBinder, fun member => ?_⟩)
    confined).mono (fun _ => .inl) fun _ => .inr
  exact copied.apart v member isBinder

theorem relabel (copied' : subst.Copied binder params body copies')
    (apart : ∀ v ∈ copies, v ∉ copies') :
    ∃ swap : Equiv.Perm TyVar,
      instanceAt params body copies' = (instanceAt params body copies).relabel swap ∧
      subst.freeVars (instanceAt params body copies') =
      (subst.freeVars (instanceAt params body copies)).map swap := by
  obtain ⟨swap, images, fixes⟩ :=
    exists_swap (copied.length.trans copied'.length.symm) copied.distinct copied'.distinct apart
  have fixed : ∀ v, binder v → swap v = v := fun v isBinder =>
    fixes v (fun member => copied.apart v member isBinder) fun member =>
      copied'.apart v member isBinder
  have same : instanceAt params body copies' = (instanceAt params body copies).relabel swap := by
    have params_ : params.map swap = params :=
      (List.map_congr_left fun v member => fixed v (copied.bound v member)).trans (List.map_id _)
    rw [instanceAt, instanceAt, Ty.relabel_instance swap.injective, Ty.relabel_vars, images,
      params_, copied.confined.relabel_eq fixed fun v member => fixed v (copied.bound v member)]
  obtain ⟨normal, confined, -⟩ := copied.instantiate
  have normal' := copied'.instantiate.1
  refine ⟨swap, same, ?_⟩
  rw [same] at normal' ⊢
  exact normal.freeVars_relabel swap.injective confined normal' fun v isBinder =>
    ⟨copied.binders v isBinder, fixed v isBinder⟩

/-- The schemes at two lists of copies, of which one is put under other numbers, are equal up to
what they bind. -/
theorem alike (copied' : subst.Copied binder params body copies')
    (apart : ∀ v ∈ copies, v ∉ copies') (injective : Function.Injective label) :
    Ty.Alike Eq
      (.quantified (subst.freeVars (instanceAt params body copies'))
        (instanceAt params body copies'))
      (.quantified ((subst.freeVars (instanceAt params body copies)).map label)
        ((instanceAt params body copies).relabel label)) := by
  obtain ⟨swap, same, free⟩ := copied.relabel copied' apart
  have closed := copied.closed
  have alike : ∀ {label : TyVar → TyVar}, Function.Injective label →
      Ty.Alike Eq _ (Ty.relabel label _) :=
    fun injective => closed.alike_relabel injective fun _ => False.elim
  rw [free, same]
  exact ((alike swap.injective).swap.mono fun _ _ => Eq.symm).eq_trans (alike injective)

end Copied

end Subst

end PolyCheck
