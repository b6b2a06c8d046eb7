import PolyCheck.Proofs.Session.Bindings
import PolyCheck.Proofs.Session.Discipline
import PolyCheck.Proofs.Session.Elaborated
import PolyCheck.Proofs.Subst.Normal

/-! Inference between types in play. The types of terms, patterns and captured names are in play,
and so are the schemes of the groups on the way, up to what they quantify. -/
namespace PolyCheck

open Run

theorem Subst.Local.generalize {base subst : Subst} {world : World} (here : base.Local world subst)
    {ty : Ty} (owns : world.Owns ty) (fixed : List TyVar) :
    (Scheme.generalize subst fixed ty).Local base world where
  ty := (here.confines.zonk owns).imp fun _ => .inl
  vars v member := by
    have inside := List.mem_of_mem_filter member
    exact .inl (here.confines.mem_freeVars (here.confines.zonk owns) inside)

def World.discipline (closed : Prop) (base : Subst) {kept : Registry → Prop}
    (int : Registry.TakesInts kept) : Discipline World where
  failures := False
  inv env := Session.Local closed base env kept
  owns := World.Owns
  binds world scheme := scheme.Local base world
  knows _ _ := True
  allowed _ := True
  lasts_owns grown own := own.later grown
  lasts_binds grown bound := bound.later grown
  lasts_knows _ _ := trivial
  owns_arrow := .arrow
  owns_tuple := .tuple
  binds_mono own := own.mono
  env_eq here := here.scopes
  binds_of_mem here _ member := here.schemes _ (here.scopes ▸ member)
  knows_of_get? _ _ _ _ := trivial
  owns_shallow here own := here.subst.confines.shallow own
  binds_generalize here own fixed := here.subst.generalize own fixed
  quiet here _ _ := ⟨here.subst, here.scopes, here.schemes, here.registry, here.kept⟩
  enter here _ each := here.enter each
  leave here grown there := here.leave grown there
  freshVar := Check.reaches_freshVar
  unify own own' span := Check.reaches_unify own own' span
  openFlexible := Check.reaches_openFlexible
  openRigid := Check.reaches_openRigid
  instantiate := Check.reaches_instantiate
  literal := Check.reaches_literal int
  ctorInstance _ := Check.reaches_ctorInstance _
  writtenType _ := Check.reaches_writtenType int _

namespace Check

variable {closed : Prop} {base : Subst} {env : Env} {kept : Registry → Prop} {world : World}

theorem reaches_placeholders (int : Registry.TakesInts kept) (bindings : List Surface.Binding) :
    Reaches (Session.Local closed base env kept) world
      (fun later found => ∀ placeholder ∈ found, later.Owns placeholder.1)
      (bindings.mapM placeholder) :=
  .mapM unsaid (fun _ _ => trivial) (fun grown owns => owns.later grown) (fun _ _ => trivial)
    fun _ _ => (World.discipline closed base int).checks_placeholder fun _ _ => trivial

theorem local_groupWith (int : Registry.TakesInts kept) {recursive : Bool}
    {bindings : List Surface.Binding} {values : List Ty → Check (List Term)}
    (reaches : ∀ types {env world}, (∀ ty ∈ types, world.Owns ty) →
      Reaches (Session.Local closed base env kept) world unsaid (values types))
    {session after : Session} {definitions : List Definition}
    (here : session.Local closed base env kept world)
    (run : groupWith recursive bindings values session = .ok definitions after) :
    ∃ later, world ≤ later ∧ after.Local closed base env kept later ∧
      ∀ definition ∈ definitions, definition.name ∈ bindings.map (·.name) ∧ ∃ ty, later.Owns ty ∧
        definition.scheme = .generalize after.subst (env.freeVars after.subst) ty := by
  obtain ⟨placeholders, middle, terms, inside, fixed, -, placed, checked, -, rfl, rfl, -,
      -, -, rfl⟩ :=
    Session.groupWith_eq_ok run
  obtain ⟨second, grown, atMiddle, owns⟩ := (reaches_placeholders int bindings).ok here placed
  have types : ∀ ty ∈ placeholders.map (·.1), second.Owns ty := List.forall_mem_map.mpr owns
  have each : ∀ {third : World}, second ≤ third → ∀ definition ∈ Session.generalized inside.subst
      (env.freeVars inside.subst) (bindings.zip (placeholders.zip terms)),
      definition.name ∈ bindings.map (·.name) ∧ ∃ ty, third.Owns ty ∧
        definition.scheme = .generalize inside.subst (env.freeVars inside.subst) ty := by
    intro third later definition member
    obtain ⟨entry, inGroup, rfl⟩ := List.mem_map.mp member
    obtain ⟨inBindings, inZip⟩ := List.of_mem_zip inGroup
    exact ⟨List.mem_map_of_mem inBindings, _, (owns _ (List.of_mem_zip inZip).1).later later, rfl⟩
  rw [Session.subst_leaving]
  cases recursive with
  | false =>
    obtain ⟨third, later, atLast, -⟩ := (reaches _ types).ok atMiddle checked
    rw [atMiddle.scopes, atLast.scopes]
    exact ⟨third, grown.trans later, atLast, each later⟩
  | true =>
    have monos : ∀ binding ∈ (bindings.map (·.name)).zip ((placeholders.map (·.1)).map Scheme.mono),
        binding.2.Local base second := by
      intro binding member
      obtain ⟨ty, inTypes, same⟩ := List.mem_map.mp (List.of_mem_zip member).2
      exact same ▸ (types ty inTypes).mono
    simp only [Session.entering, if_true, atMiddle.scopes] at checked
    obtain ⟨third, later, atInside, -⟩ := (reaches _ types).ok (atMiddle.enter monos) checked
    have atLast := atMiddle.leave later atInside
    rw [atMiddle.scopes, atInside.scopes, Env.freeVarsBelow_enter]
    exact ⟨third, grown.trans later, atLast, each later⟩

end Check

end PolyCheck
