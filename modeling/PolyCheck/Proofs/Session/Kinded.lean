import PolyCheck.Proofs.Session.Dangling
import PolyCheck.Proofs.Session.NamesApplied

/-! Definitions in inferred types and their arguments. Every definition in the types of an accepted
unit has as many arguments as parameters, and sessions in which only names are applied to types
leave no application in them. -/
namespace PolyCheck

open Run Check

section Units

variable {typed typed' : Ty → Prop}

/-- What holds of all the types in what a unit gives. -/
def CheckedDecl.Everywhere (typed : Ty → Prop) : CheckedDecl → Prop
  | .data _ => True
  | .synonym _ => True
  | .define _ definitions =>
    Term.EverywhereDefinitions typed (fun scheme => typed scheme.ty) definitions
  | .eval term => term.Everywhere typed fun scheme => typed scheme.ty

theorem CheckedDecl.Everywhere.imp {checked : CheckedDecl} (holds : checked.Everywhere typed)
    (implies : ∀ ty, typed ty → typed' ty) : checked.Everywhere typed' := by
  cases checked with
  | data _ | synonym _ => trivial
  | define _ definitions =>
    exact Term.EverywhereDefinitions.imp implies (fun scheme => implies scheme.ty) holds
  | eval term => exact Term.Everywhere.imp implies (fun scheme => implies scheme.ty) holds

theorem CheckedDecl.Everywhere.zonk {checked : CheckedDecl} {subst : Subst}
    (holds : checked.Everywhere typed)
    (resolves : ∀ ty, typed ty → typed' (subst.zonk ty)) :
    (checked.zonk subst).Everywhere typed' := by
  cases checked with
  | data _ | synonym _ => trivial
  | define _ definitions =>
    exact Term.EverywhereDefinitions.zonk resolves (fun scheme => resolves scheme.ty) holds
  | eval term => exact Term.Everywhere.zonk resolves (fun scheme => resolves scheme.ty) holds

theorem CheckedDecl.Everywhere.definition {checked : CheckedDecl} (holds : checked.Everywhere typed)
    {definition : Definition} (member : definition ∈ checked.definitions) :
      typed definition.scheme.ty := by
  cases checked with
  | data _ | synonym _ | eval _ => cases member
  | define _ definitions => exact (Term.everywhereDefinitions_iff.mp holds definition member).1

theorem Check.Yields.everywhere {shape : Shape} {checked : CheckedDecl}
    (yields : Yields shape checked) : checked.Everywhere fun ty => ty.Fits shape := by
  cases checked with
  | data _ | synonym _ => trivial
  | define _ definitions =>
    exact Term.EverywhereDefinitions.imp (fun _ => id) (fun _ fits => fits.ty)
      (Term.everywhereDefinitions_iff.mpr yields)
  | eval term => exact Term.Everywhere.imp (fun _ => id) (fun _ fits => fits.ty) yields

end Units

namespace Session

variable {options : Options} {env : Env} {session after : Session} {written : Surface.Decl}
  {checked : CheckedDecl}

namespace Unapplied

/-- Types without applications, as a discipline of checks that may fail. -/
def discipline : Discipline Unit where
  failures := True
  inv := Session.Unapplied
  owns _ ty := ty.Unapplied
  binds _ scheme := scheme.ty.Unapplied
  knows _ _ := True
  allowed := Surface.TypeExpr.AppliesNames
  lasts_owns _ unapplied := unapplied
  lasts_binds _ unapplied := unapplied
  lasts_knows _ _ := trivial
  owns_arrow := .arrow
  owns_tuple := .tuple
  binds_mono unapplied := unapplied
  env_eq here := here.scopes
  binds_of_mem here _ member := here.schemes _ (here.scopes ▸ member)
  knows_of_get? _ _ _ _ := trivial
  owns_shallow here := here.subst.shallow (Ty.hereditary_applied False)
  binds_generalize here unapplied _ := here.subst.zonk (Ty.hereditary_applied False) unapplied
  quiet here _ _ := ⟨here.subst, here.scopes, here.schemes, here.registry⟩
  enter here _ each := here.enter each
  leave outer _ here := outer.leave here
  freshVar := stays_freshVar
  unify := stays_unify
  openFlexible := stays_openFlexible
  openRigid := stays_openRigid
  instantiate := stays_instantiate
  literal := stays_literal
  ctorInstance _ := stays_ctorInstance _
  writtenType := stays_writtenType

theorem stays_unit (names : written.AppliesNames) :
    Stays (Session.Unapplied env) () (fun _ checked => checked.Everywhere Ty.Unapplied)
    (unit written) := by
  cases written with
  | data span group => exact (stays_data names).map fun _ _ => trivial
  | synonym span name params body =>
    exact (stays_synonym name params names span).bind fun _ _ => .pure trivial
  | define span recursive bindings =>
    exact (discipline.checks_group recursive bindings names).map fun _ =>
      Term.everywhereDefinitions_iff.mpr
  | eval span expr => exact (discipline.infers expr names).map fun _ types => types

theorem of_cells {subst after : Subst} (here : subst.Solutions Ty.Unapplied)
    (same : after.cells = subst.cells) : after.Solutions Ty.Unapplied where
  ends := by
    obtain ⟨rank, falls⟩ := here.ends
    exact ⟨rank, fun v w linked => falls v w (Subst.cell_of_cells same v ▸ linked)⟩
  solved {v ty} solved := here.solved (Subst.cell_of_cells same v ▸ solved)

theorem start (options : Options) : (Session.start options).Unapplied Env.empty () where
  subst := .empty
  scopes := rfl
  schemes _ member := by cases member
  registry :=
    { template := fun known => by
        obtain ⟨name, builtin, rfl⟩ := Registry.template?_initial known
        exact List.forall_mem_nil _
      type := fun known => by
        rcases Registry.types_initial known with rfl | rfl
        · trivial
        · trivial }

theorem accepted (here : session.Unapplied session.env ()) (names : written.AppliesNames)
    (accepted : Check.decl written session = .ok checked after) :
    after.Unapplied after.env () ∧ checked.Everywhere Ty.Unapplied := by
  have atStart : (Check.opened session).Unapplied session.env () :=
    ⟨of_cells here.subst rfl, here.scopes, here.schemes,
      here.registry.of_templates rfl here.registry.type⟩
  have arrived := stays_unit names (Check.opened session) atStart
  obtain ⟨found, reached, run, rfl, rfl⟩ := Check.exists_unit_of_ok accepted
  rw [run] at arrived
  obtain ⟨_, -, there, each⟩ := arrived
  have resolved : (found.zonk reached.subst).Everywhere Ty.Unapplied :=
    each.zonk fun ty => there.subst.zonk (Ty.hereditary_applied False)
  refine ⟨⟨of_cells there.subst rfl, rfl, fun scheme member => ?_,
    there.registry.of_templates rfl there.registry.type⟩, resolved⟩
  rw [there.scopes] at member
  refine Env.forall_mem_schemes_bindGlobal there.schemes (fun definition inside => ?_) scheme member
  cases found with
  | data _ | synonym _ | eval _ => cases inside
  | define recursive definitions =>
    exact (Term.everywhereDefinitions_iff.mp resolved definition inside).1

end Unapplied

/-- Sessions after units, accepted or refused, of which the accepted ones apply only names to
types. -/
inductive NamesApplied (options : Options) : Session → Prop where
  | start : NamesApplied options (Session.start options)
  | accepted {session after : Session} {written : Surface.Decl} {checked : CheckedDecl}
    (before : NamesApplied options session) (names : written.AppliesNames)
    (result : Check.decl written session = .ok checked after) : NamesApplied options after
  | refused {session after : Session} {written : Surface.Decl} {error : TypeError}
    (before : NamesApplied options session) (result : Check.decl written session =
      .error error after) :
    NamesApplied options after

theorem NamesApplied.reachable (applied : session.NamesApplied options) :
    session.Reachable options := by
  induction applied with
  | start => exact .start
  | accepted _ _ result ih => exact .decl ih _ (.inl ⟨_, result⟩)
  | refused _ result ih => exact .decl ih _ (.inr ⟨_, result⟩)

theorem NamesApplied.unapplied (applied : session.NamesApplied options) :
    session.Unapplied session.env () := by
  induction applied with
  | start => exact .start options
  | accepted _ names result ih => exact (ih.accepted names result).1
  | refused before result ih =>
    rw [before.reachable.settled.restored result]
    exact ⟨ih.subst, rfl, ih.schemes, ih.registry⟩

end Session

theorem Ty.Fits.part {shape : Shape} {whole ty : Ty} (fits : whole.Fits shape)
    (part : whole.Part ty) : ty.Fits shape := by
  induction part with
  | here => exact fits
  | child _ member ih => exact ih.children _ member

def Registry.declared? (registry : Registry) (id : TemplateId) : Option (List Kind) :=
  (registry.template? id).map fun template => template.params.map (·.2)

namespace Session

variable {options : Options} {session after : Session} {written : Surface.Decl}
  {checked : CheckedDecl}

theorem Fits.declared? {env : Env} {shape : Shape} (here : session.Fits env shape) {id : TemplateId}
    {args : List Ty} (fits : Ty.Fits shape (.nominal id args)) :
    ∃ params, session.registry.declared? id = some params ∧ args.length = params.length := by
  cases fits with
  | nominal arity _ =>
    rw [← here.registry.arity, Registry.arity?] at arity
    obtain ⟨template, known, same⟩ := Option.map_eq_some_iff.mp arity
    exact ⟨_, by rw [Registry.declared?, known]; rfl, by rw [List.length_map, same]⟩

end Session

end PolyCheck
