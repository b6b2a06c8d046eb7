import PolyCheck.Proofs.Subst.Links
import PolyCheck.Proofs.Ty.Confined

/-! Sets of variables that solutions do not lead out of. Where everything a set of variables stands
for is made of variables of the set, resolving a type over the set gives a type over the set,
however far the reduction of functions on types gets. Parameters of quantifiers are never solved. -/
namespace PolyCheck.Subst

/-- Links and solutions of free variables stay among the free variables; a parameter is not
solved. -/
structure Confines (subst : Subst) (binder free : TyVar → Prop) : Prop where
  linked : ∀ {v w : TyVar}, free v → subst.cell v = .link w → free w
  solved : ∀ {v : TyVar} {ty : Ty}, free v → subst.cell v = .bound ty → ty.Confined binder free
  binders : ∀ {v : TyVar}, binder v → (subst.cell v).IsNew

variable {subst : Subst} {binder free : TyVar → Prop} {ty result : Ty} {depth : Nat}

theorem Confines.root (confines : subst.Confines binder free) {v : TyVar} (holds : free v) :
    free (subst.root v) :=
  root_mem (fun _ _ => confines.linked) holds

theorem Confines.extend (confines : subst.Confines binder free) {more : TyVar → Prop}
    (new : ∀ v, more v → (subst.cell v).IsNew) :
    subst.Confines binder fun v => free v ∨ more v where
  linked {v w} shown cell := by
    rcases shown with holds | holds
    · exact .inl (confines.linked holds cell)
    · have isNew := new v holds
      rw [cell] at isNew
      exact isNew.elim
  solved {v ty} shown cell := by
    rcases shown with holds | holds
    · exact (confines.solved holds cell).imp fun _ => .inl
    · have isNew := new v holds
      rw [cell] at isNew
      exact isNew.elim
  binders := confines.binders

theorem Confines.shallowWithin (confines : subst.Confines binder free)
    (confined : ty.Confined binder free)
    (walk : subst.shallowWithin depth ty = some result) : result.Confined binder free := by
  replace walk := heads_of_walk walk
  induction walk with
  | unsolved _ =>
    cases confined with
    | var holds => exact .var (confines.root holds)
  | solved cell _ ih =>
    cases confined with
    | var holds => exact ih (confines.solved (confines.root holds) cell)
  | arrow | tuple | nominal | quantified => exact confined
  | applied _ _ ihFirst ih =>
    obtain ⟨fst, each⟩ := confined.app_inv
    exact ih ((ihFirst fst).apply each)
  | collected _ ih =>
    obtain ⟨fst, each⟩ := confined.app_inv
    obtain ⟨fst', firsts⟩ := (ih fst).app_inv
    exact .app fst' (List.forall_mem_append.mpr ⟨firsts, each⟩)
  | stuck _ _ ih =>
    obtain ⟨fst, each⟩ := confined.app_inv
    exact .app (ih fst) each

theorem Confines.shallow (confines : subst.Confines binder free)
    (confined : ty.Confined binder free) : (subst.shallow ty).Confined binder free := by
  rw [Subst.shallow, Subst.shallow?]
  cases walk : subst.shallowWithin (subst.depthBound ty.size) ty with
  | none => exact confined
  | some result => exact confines.shallowWithin confined walk

theorem Confines.zonkWithin (confines : subst.Confines binder free)
    (confined : ty.Confined binder free)
    (walk : subst.zonkWithin depth ty = some result) : result.Confined binder free := by
  induction depth generalizing ty result free with
  | zero => cases walk
  | succ depth ih =>
    obtain ⟨head, shallow, rebuilt⟩ := zonkWithin_eq_some_iff.mp walk
    have confined := confines.shallowWithin confined shallow
    cases rebuilt with
    | var _ => exact confined
    | arrow first second =>
      cases confined with
      | arrow fst snd => exact .arrow (ih confines fst first) (ih confines snd second)
    | tuple walks =>
      cases confined with
      | tuple each => exact .tuple (forall_of_forall₂ walks each fun _ _ => ih confines)
    | nominal walks =>
      cases confined with
      | nominal each => exact .nominal (forall_of_forall₂ walks each fun _ _ => ih confines)
    | quantified within =>
      cases confined with
      | quantified params inside =>
        have confines' := confines.extend fun v member => confines.binders (params v member)
        exact .quantified params (ih confines' inside within)
    | app first walks =>
      obtain ⟨fst, each⟩ := confined.app_inv
      exact (ih confines fst first).apply (forall_of_forall₂ walks each fun _ _ => ih confines)

theorem Confines.zonk (confines : subst.Confines binder free) (confined : ty.Confined binder free) :
    (subst.zonk ty).Confined binder free := by
  rw [Subst.zonk, Subst.zonk?]
  cases walk : subst.zonkWithin (subst.depthBound ty.size) ty with
  | none => exact confined
  | some result => exact confines.zonkWithin confined walk

end PolyCheck.Subst
