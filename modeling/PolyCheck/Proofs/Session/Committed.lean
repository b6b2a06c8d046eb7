import PolyCheck.Proofs.Session.Declared
import PolyCheck.Proofs.Session.Soundness

/-! What a session keeps. Registered types are closed as long as no declaration leaves anything
open; then the names of the top level have closed schemes, in which no later unit has any part:
units start without a variable in play, and what they instantiate, read or open is made of variables
of their own. -/
namespace PolyCheck

open Run Check

theorem Subst.cell_of_cells {subst after : Subst} (same : after.cells = subst.cells) (v : TyVar) :
    after.cell v = subst.cell v := by
  rw [cell, cell, same]

theorem Subst.Local.of_cells {base subst after : Subst} {world : World}
    (here : base.Local world subst)
    (same : after.cells = subst.cells) : base.Local world after := by
  have cells : ∀ v, after.cell v = subst.cell v := Subst.cell_of_cells same
  have sizes : after.size = subst.size := congrArg Array.size same
  refine ⟨⟨?_, ?_, ?_⟩, ?_, ?_, ?_, ?_, ?_, ?_⟩ <;> simp only [Subst.LinksEnd, cells, sizes]
  · exact here.confines.linked
  · exact here.confines.solved
  · exact here.confines.binders
  · exact here.ends
  · exact here.size_le
  · exact here.cells
  · exact here.inPlay
  · exact here.bound
  · exact here.rigid

theorem Scheme.Local.zonk {base subst : Subst} {world : World} {scheme : Scheme}
    (here : scheme.Local base world) (cells : base.Local world subst) :
    (scheme.zonk subst).Local base world :=
  ⟨(here.confines cells).zonk here.ty, here.vars⟩

/-- A scheme that no later unit has any part in: its type is resolved, and all its variables are
quantified, by the scheme or inside the type. -/
structure Scheme.Final (subst : Subst) (binder : TyVar → Prop) (scheme : Scheme) : Prop where
  ty : scheme.ty.Confined binder (· ∈ scheme.vars)
  normal : subst.Normal scheme.ty
  vars : ∀ v ∈ scheme.vars, v.index < subst.size ∧ (subst.cell v).IsNew

section Final

variable {base subst : Subst} {world : World} {binder : TyVar → Prop} {scheme : Scheme}

theorem Scheme.Final.local (final : scheme.Final base world.binder) : scheme.Local base world where
  ty := final.ty.imp fun _ => .inr
  vars v member := .inr (.inr (final.vars v member))

theorem Scheme.Final.zonk (final : scheme.Final subst binder) : scheme.zonk subst = scheme := by
  rw [Scheme.zonk, final.normal.zonk]

theorem Scheme.Final.freeVars (final : scheme.Final subst binder)
    (binders : ∀ v, binder v → (subst.cell v).IsNew) : scheme.freeVars subst = [] := by
  have confines := Subst.confines_isNew binders fun v member => (final.vars v member).2
  rw [Scheme.freeVars, List.filter_eq_nil_iff]
  intro v member
  simpa using confines.mem_freeVars final.ty member

theorem Scheme.Final.later (final : scheme.Final base binder) (here : base.Local world subst)
    (binders : ∀ v, binder v → v.index < base.size ∧ world.binder v) :
      scheme.Final subst world.binder where
  ty := final.ty.mono (fun v isBinder => (binders v isBinder).2) fun _ => id
  normal := final.normal.of_cells final.ty fun v shown isNew => by
    have inside : v.index < base.size :=
      shown.elim (fun member => (final.vars v member).1) fun isBinder => (binders v isBinder).1
    rwa [here.cells inside]
  vars v member := by
    obtain ⟨inside, isNew⟩ := final.vars v member
    rw [here.cells inside]
    exact ⟨Nat.lt_of_lt_of_le inside here.size_le, isNew⟩

theorem Scheme.Final.of_cells (final : scheme.Final base binder) (same : subst.cells = base.cells) :
    scheme.Final subst binder where
  ty := final.ty
  normal := final.normal.of_cells final.ty fun v _ isNew => by rwa [Subst.cell_of_cells same]
  vars v member := by
    rw [Subst.cell_of_cells same, Subst.size, same]
    exact final.vars v member

/-- A type in play that can be resolved is final when everything is generalized. -/
theorem Subst.Local.final_generalize (here : base.Local world subst) {ty : Ty}
    (owns : world.Owns ty)
    (ended : subst.zonkWithin
      (subst.depthBound ((Scheme.generalize subst [] ty).zonk subst).ty.size)
      ((Scheme.generalize subst [] ty).zonk subst).ty ≠ none) :
    ((Scheme.generalize subst [] ty).zonk subst).Final subst world.binder := by
  have normal : subst.Normal (subst.zonk ty) := here.ends.normal_zonk_twice ended
  have same : (Scheme.generalize subst [] ty).zonk subst = Scheme.generalize subst [] ty := by
    simp only [Scheme.zonk, Scheme.generalize, normal.zonk]
  have all : (Scheme.generalize subst [] ty).vars = subst.freeVars (subst.zonk ty) := by
    simp [Scheme.generalize]
  have confined := here.confines.zonk owns
  have binders : ∀ v, world.binder v → (subst.cell v).IsNew := fun v => here.confines.binders
  rw [same]
  refine ⟨?_, normal, fun v member => ?_⟩
  · rw [all]
    exact normal.confined_freeVars (fun v isBinder => ⟨binders v isBinder, (here.bound isBinder).2⟩)
      confined
  · rw [all] at member
    have confines :=
      Subst.confines_isNew binders fun v (shown : world.own v ∧ (subst.cell v).IsNew) => shown.2
    obtain ⟨own, isNew⟩ := confines.mem_freeVars (normal.confined_isNew confined) member
    exact ⟨(here.inPlay own).2, isNew⟩

theorem Subst.Local.rebase (here : base.Local world subst) :
    subst.Local ⟨fun _ => False, world.binder⟩ subst where
  confines := ⟨False.elim, False.elim, here.confines.binders⟩
  ends := here.ends
  size_le := Nat.le_refl _
  cells _ := rfl
  inPlay := False.elim
  bound holds := ⟨(here.bound holds).1, id⟩
  rigid := here.rigid

end Final

namespace Session

variable {options : Options} {closed : Prop} {base : Subst} {env : Env} {kept : Registry → Prop}
  {world : World} {session after : Session} {written : Surface.Decl} {checked : CheckedDecl}

section Units

/-- A session from which units may start: types and schemes are in play, apart from the cells of
`base`. -/
abbrev InPlay (closed : Prop) (base : Subst) (world : World) (session : Session) : Prop :=
  session.Local closed base session.env (fun _ => True) world

structure Leads (closed : Prop) (base : Subst) (world : World) (session after : Session)
    (written : Surface.Decl) (checked : CheckedDecl) : Prop where
  subst : base.Local world after.subst
  registry : after.registry.Closed world.binder (world.Loose closed)
  keeps : session.registry.Keeps written.typeNames written.ctorNames after.registry
  env : after.env = session.env.define (Definition.schemes checked.definitions)
  defined : ∀ {name scheme}, (name, scheme) ∈ Definition.schemes checked.definitions →
    name ∈ written.valueNames ∧ ∃ reached ty, after.subst.cells = reached.cells ∧ world.Owns ty ∧
      scheme = (Scheme.generalize reached (session.env.freeVars reached) ty).zonk reached

theorem Local.leads (here : session.InPlay closed base world) (complete : closed → written.Complete)
    (accepted : Check.decl written session = .ok checked after) :
    ∃ later, world ≤ later ∧ Leads closed base later session after written checked := by
  obtain ⟨found, reached, run, rfl, rfl⟩ := decl_eq_ok accepted
  have start : (opened session).Local closed base session.env
      ((opened session).registry.Keeps written.typeNames written.ctorNames) world :=
    ⟨here.subst.of_cells rfl, rfl, here.schemes,
      here.registry.of_tables (fun known => .inl known) rfl rfl, Registry.keeps_refl _ _ _⟩
  obtain ⟨later, grown, there, each⟩ := local_unit complete start run
  refine ⟨later, grown, there.subst.of_cells rfl,
    there.registry.of_tables (fun known => .inl known) rfl rfl, ?_, ?_,
    fun {name scheme} member => ?_⟩
  · have keeps := there.kept
    exact ⟨keeps.size_le, keeps.template, keeps.cases, keeps.types, keeps.ctors⟩
  · rw [settled, there.scopes]
  · obtain ⟨source, inside, rfl⟩ := mem_schemes_zonk member
    obtain ⟨definition, inFound, same⟩ := List.mem_map.mp inside
    obtain ⟨rfl, rfl⟩ := Prod.mk.inj same
    obtain ⟨named, ty, owns, same⟩ := each definition inFound
    exact ⟨named, reached.subst, ty, rfl, owns, by rw [same]⟩

end Units

section Declared

/-- Sessions after units, accepted or refused, of which the accepted ones leave nothing open in what
they declare. -/
inductive Complete (options : Options) : Session → Prop where
  | start : Complete options (Session.start options)
  | accepted {session after : Session} {written : Surface.Decl} {checked : CheckedDecl}
    (before : Complete options session) (complete : written.Complete)
    (result : Check.decl written session = .ok checked after) : Complete options after
  | refused {session after : Session} {written : Surface.Decl} {error : TypeError}
    (before : Complete options session) (result : Check.decl written session = .error error after) :
    Complete options after

theorem Complete.reachable (complete : Complete options session) : Reachable options session := by
  induction complete with
  | start => exact .start
  | accepted _ _ result ih => exact .decl ih _ (.inl ⟨_, result⟩)
  | refused _ result ih => exact .decl ih _ (.inr ⟨_, result⟩)

def atStart : World := ⟨fun _ => False, fun _ => False⟩

theorem inPlay_start (options : Options) :
    (Session.start options).InPlay True Subst.empty atStart where
  subst :=
    { confines := ⟨False.elim, False.elim, False.elim⟩
      ends := Subst.linksEnd_empty
      size_le := Nat.le_refl _
      cells := fun _ => rfl
      inPlay := False.elim
      bound := False.elim
      rigid := False.elim }
  scopes := rfl
  schemes _ member := by cases member
  registry :=
    { template := fun known => by
        obtain ⟨name, builtin, rfl⟩ := Registry.template?_initial known
        exact Template.closed_ofBuiltin _ _ _ _
      synonym := fun known => by rcases Registry.types_initial known with same | same <;> cases same
      ctor := fun known => by cases known }
  kept := trivial

theorem InPlay.accepted (here : session.InPlay closed base world)
    (complete : closed → written.Complete)
    (accepted : Check.decl written session = .ok checked after) :
    ∃ later, world ≤ later ∧ after.InPlay closed base later := by
  obtain ⟨later, grown, leads⟩ := here.leads complete accepted
  refine ⟨later, grown, leads.subst, rfl, fun scheme member => ?_, leads.registry, trivial⟩
  rw [leads.env] at member
  rcases Env.mem_schemes_define member with old | ⟨name, new⟩
  · exact (here.schemes scheme old).later grown
  · obtain ⟨-, reached, ty, same, owns, rfl⟩ := leads.defined new
    have there := leads.subst.of_cells same.symm
    exact (there.generalize owns _).zonk there

theorem Local.refused (here : session.Local closed base env kept world) (settled : session.Settled)
    {error : TypeError} (refused : Check.decl written session = .error error after) :
    after.Local closed base env kept world := by
  rw [settled.restored refused]
  exact ⟨here.subst, here.scopes, here.schemes, here.registry, here.kept⟩

theorem Complete.inPlay (complete : Complete options session) :
    ∃ world, session.InPlay True Subst.empty world := by
  induction complete with
  | start => exact ⟨_, inPlay_start options⟩
  | accepted _ complete result ih =>
    obtain ⟨world, here⟩ := ih
    obtain ⟨later, -, there⟩ := InPlay.accepted here (fun _ => complete) result
    exact ⟨later, there⟩
  | refused before result ih =>
    obtain ⟨world, here⟩ := ih
    have there := Local.refused here before.reachable.settled result
    refine ⟨world, ?_⟩
    rw [InPlay, there.scopes]
    exact there

/-- Everything that an accepted unit leaves registered is closed, and made of rigid variables only:
the fields of a definition are types over its own parameters, the expansion of an alias has no free
variable, and the signature of a constructor has none but those that it quantifies. -/
theorem registered_types_closed (units : Complete options session) (complete : written.Complete)
    (accepted : Check.decl written session = .ok checked after) :
    after.registry.Closed (fun v => ∃ name, after.subst.cell v = .rigid name) (fun _ => False) ∧
      (∀ {id template}, after.registry.template? id = some template → ∀ dataCase ∈ template.cases,
        ∀ field ∈ dataCase.fields, ∀ v ∈ after.subst.freeVars field, v ∈ template.paramVars) ∧
      ∀ {name ty kind}, after.registry.types.get? name = some (.synonym ty kind) →
        after.subst.freeVars ty = [] := by
  obtain ⟨world, here⟩ := (Complete.accepted units complete accepted).inPlay
  have closed : after.registry.Closed (fun v => ∃ name, after.subst.cell v = .rigid name) fun _ =>
      False :=
    here.registry.mono (fun _ => here.subst.rigid) fun _ isLoose => isLoose.1 trivial
  have isNew : ∀ v, (∃ name, after.subst.cell v = .rigid name) → (after.subst.cell v).IsNew := by
    rintro v ⟨name, cell⟩
    rw [cell]
    exact Cell.isNew_rigid name
  have confines : ∀ vars : List TyVar, (∀ v ∈ vars, ∃ name, after.subst.cell v = .rigid name) →
      after.subst.Confines (fun v => ∃ name, after.subst.cell v = .rigid name)
        fun v => False ∨ v ∈ vars := fun vars rigid =>
    Subst.confines_isNew isNew fun v shown => isNew v (rigid v (shown.resolve_left not_false))
  refine ⟨closed, fun {id template} known dataCase inCases field inFields v member => ?_,
    fun {name ty kind} known => ?_⟩
  · have template := closed.template known
    exact ((confines _ template.params).mem_freeVars
      (template.fields dataCase inCases field inFields) member).resolve_left not_false
  · refine List.eq_nil_iff_forall_not_mem.mpr fun v member => ?_
    have confined :=
      (closed.synonym known).imp fun v => (Or.inl : False → False ∨ v ∈ ([] : List TyVar))
    exact ((confines [] nofun).mem_freeVars confined member).elim id List.not_mem_nil

def boxDecl : Surface.Decl :=
  .data default [⟨default, "box", ["a"], [⟨default, "Box", [.var default "a"]⟩]⟩]

theorem boxDecl_accepted : ∃ checked after,
    Check.decl boxDecl (Session.start .standard) = .ok checked after ∧
    after.registry.template? ⟨2⟩ =
      some ⟨"box", [(⟨0⟩, .star)], [⟨"Box", [.var ⟨0⟩]⟩], true, none⟩ := by
  have shown : gives (fun _ after => decide (after.registry.template? ⟨2⟩ =
      some ⟨"box", [(⟨0⟩, .star)], [⟨"Box", [.var ⟨0⟩]⟩], true, none⟩))
      (Check.decl boxDecl (Session.start .standard)) = true := by cbv
  obtain ⟨checked, after, accepted, known⟩ := exists_of_gives shown
  exact ⟨checked, after, accepted, of_decide_eq_true known⟩

theorem boxDecl_closed : ∃ checked after,
    Check.decl boxDecl (Session.start .standard) = .ok checked after ∧
      after.registry.Closed (fun v => ∃ name, after.subst.cell v = .rigid name) (fun _ => False) ∧
      ∀ v ∈ after.subst.freeVars (.var ⟨0⟩), v ∈ ([⟨0⟩] : List TyVar) := by
  obtain ⟨checked, after, accepted, known⟩ := boxDecl_accepted
  have complete : boxDecl.Complete := by
    simp [boxDecl, Surface.Decl.Complete, Surface.TypeExpr.CompleteAll, Surface.TypeExpr.Complete]
  obtain ⟨closed, fields, -⟩ := registered_types_closed .start complete accepted
  exact ⟨checked, after, accepted, closed,
    fields known _ (List.mem_singleton_self _) _ (List.mem_singleton_self _)⟩

/-- The data type `t` with a hole for the field of its only constructor. -/
def holedDecl : Surface.Decl :=
  .data default [⟨default, "t", [], [⟨default, "C", [.hole default]⟩]⟩]

/-- A hole is a variable that is no parameter, and the declaration is accepted. -/
theorem hole_registered_in_field : ¬ ∀ (session after : Session) (written : Surface.Decl)
    (checked : CheckedDecl), Reachable .standard session →
    Check.decl written session = .ok checked after →
    ∀ id template, after.registry.template? id = some template → ∀ dataCase ∈ template.cases,
      ∀ field ∈ dataCase.fields, ∀ v ∈ after.subst.freeVars field, v ∈ template.paramVars := by
  intro closed
  have shown : gives (fun _ after => decide (after.registry.template? ⟨2⟩ =
        some ⟨"t", [], [⟨"C", [.var ⟨0⟩]⟩], true, none⟩ ∧ after.subst.freeVars (.var ⟨0⟩) = [⟨0⟩]))
      (Check.decl holedDecl (Session.start .standard)) = true := by cbv
  obtain ⟨checked, after, accepted, shown⟩ := exists_of_gives shown
  obtain ⟨known, free⟩ := of_decide_eq_true shown
  have param := closed _ after _ checked .start accepted ⟨2⟩ _ known _ (List.mem_singleton_self _) _
    (List.mem_singleton_self _) ⟨0⟩ (free ▸ List.mem_singleton_self _)
  exact List.not_mem_nil param

end Declared

section Resolved

/-- Sessions after units, accepted or refused, of which the accepted ones leave nothing open in what
they declare, and define names whose types are resolved within the depth granted. -/
inductive Resolved (options : Options) : Session → Prop where
  | start : Resolved options (Session.start options)
  | accepted {session after : Session} {written : Surface.Decl} {checked : CheckedDecl}
    (before : Resolved options session) (complete : written.Complete)
    (result : Check.decl written session = .ok checked after)
    (ended : ∀ definition ∈ checked.definitions, after.subst.zonkWithin
      (after.subst.depthBound definition.scheme.ty.size) definition.scheme.ty ≠ none) :
    Resolved options after
  | refused {session after : Session} {written : Surface.Decl} {error : TypeError}
    (before : Resolved options session) (result : Check.decl written session = .error error after) :
    Resolved options after

theorem Resolved.reachable (resolved : Resolved options session) : Reachable options session := by
  induction resolved with
  | start => exact .start
  | accepted _ _ result _ ih => exact .decl ih _ (.inl ⟨_, result⟩)
  | refused _ result ih => exact .decl ih _ (.inr ⟨_, result⟩)

/-- Between two units: nothing is in play, and all schemes are final. -/
structure Committed (binder : TyVar → Prop) (session : Session) : Prop where
  subst : session.subst.Local ⟨fun _ => False, binder⟩ session.subst
  registry : session.registry.Closed binder fun _ => False
  schemes : ∀ scheme ∈ session.env.schemes, scheme.Final session.subst binder

variable {binder : TyVar → Prop}

theorem Committed.inPlay (committed : session.Committed binder) (closed : Prop) :
    session.InPlay closed session.subst ⟨fun _ => False, binder⟩ where
  subst := committed.subst
  scopes := rfl
  schemes scheme member := (committed.schemes scheme member).local
  registry := committed.registry.mono (fun _ => id) fun _ => False.elim
  kept := trivial

theorem Committed.freeVars (committed : session.Committed binder) {reached : Subst}
    (here : session.subst.Local world reached) (grown : ∀ v, binder v → world.binder v) :
    session.env.freeVars reached = [] := by
  refine List.eq_nil_iff_forall_not_mem.mpr fun v member => ?_
  rw [Env.freeVars, Env.freeVarsBelow, List.mem_eraseDups, List.mem_flatMap] at member
  obtain ⟨scheme, inScope, free⟩ := member
  have known : scheme ∈ session.env.schemes := by
    obtain ⟨scope, inScopes, inside⟩ := List.mem_flatMap.mp inScope
    exact List.mem_flatMap.mpr ⟨scope, List.mem_of_mem_take inScopes, inside⟩
  have final := (committed.schemes scheme known).later here fun v isBinder =>
    ⟨(committed.subst.bound isBinder).1, grown v isBinder⟩
  rw [final.freeVars fun v => here.confines.binders] at free
  exact List.not_mem_nil free

theorem committed_start (options : Options) : (Session.start options).Committed atStart.binder where
  subst := (inPlay_start options).subst
  registry := (inPlay_start options).registry.mono (fun _ => id) fun _ isLoose => isLoose.2
  schemes _ member := by cases member

theorem Committed.accepted (committed : session.Committed binder) (complete : written.Complete)
    (accepted : Check.decl written session = .ok checked after)
    (ended : ∀ definition ∈ checked.definitions, after.subst.zonkWithin
      (after.subst.depthBound definition.scheme.ty.size) definition.scheme.ty ≠ none) :
    ∃ binder, after.Committed binder := by
  obtain ⟨later, grown, leads⟩ := (committed.inPlay True).leads (fun _ => complete) accepted
  refine ⟨later.binder, leads.subst.rebase, ?_, fun scheme member => ?_⟩
  · exact leads.registry.mono (fun _ => id) fun _ isLoose => isLoose.1 trivial
  rw [leads.env] at member
  rcases Env.mem_schemes_define member with old | ⟨name, new⟩
  · exact (committed.schemes scheme old).later leads.subst fun v isBinder =>
      ⟨(committed.subst.bound isBinder).1, grown.2 v isBinder⟩
  · obtain ⟨-, reached, ty, same, owns, made⟩ := leads.defined new
    have there : session.subst.Local later reached := leads.subst.of_cells same.symm
    rw [committed.freeVars there grown.2] at made
    obtain ⟨definition, inChecked, same'⟩ := List.mem_map.mp new
    obtain ⟨-, rfl⟩ := Prod.mk.inj same'
    have walk := ended definition inChecked
    rw [Subst.depthBound_of_cells same, Subst.zonkWithin_of_cells same, made] at walk
    have final := there.final_generalize owns walk
    rw [made]
    exact final.of_cells same

theorem Committed.refused (committed : session.Committed binder) (settled : session.Settled)
    {error : TypeError} (refused : Check.decl written session = .error error after) :
    after.Committed binder := by
  rw [settled.restored refused]
  exact ⟨committed.subst, committed.registry, committed.schemes⟩

theorem Resolved.committed (resolved : Resolved options session) : ∃ binder,
    session.Committed binder := by
  induction resolved with
  | start => exact ⟨_, committed_start options⟩
  | accepted _ complete result ended ih =>
    obtain ⟨binder, committed⟩ := ih
    exact committed.accepted complete result ended
  | refused before result ih =>
    obtain ⟨binder, committed⟩ := ih
    exact ⟨binder, committed.refused before.reachable.settled result⟩

/-- What a unit that declares some types, constructors and values leaves as it was. -/
structure Leaves (before after : Session) (written : Surface.Decl) : Prop where
  values : ∀ name, name ∉ written.valueNames → after.env.globals.get? name =
    before.env.globals.get? name
  schemes : ∀ scheme ∈ before.env.schemes, scheme.zonk after.subst = scheme.zonk before.subst
  templates : ∀ id template, before.registry.template? id = some template →
    after.registry.template? id = some template
  types : ∀ name, name ∉ written.typeNames → after.registry.types.get? name =
    before.registry.types.get? name
  ctors : ∀ name, name ∉ written.ctorNames → after.registry.ctors.get? name =
    before.registry.ctors.get? name

/-- The unit that is accepted may leave something open in what it declares: nothing that was
declared before is concerned. -/
theorem Committed.leaves (committed : session.Committed binder)
    (accepted : Check.decl written session = .ok checked after) : session.Leaves after written := by
  obtain ⟨later, grown, leads⟩ := (committed.inPlay False).leads False.elim accepted
  refine ⟨fun name fresh => ?_, fun scheme member => ?_, fun id template known => ?_,
    fun name fresh => ?_, fun name fresh => ?_⟩
  · have absent : (Definition.schemes checked.definitions).reverse.lookup name = none := by
      rw [List.lookup_eq_none_iff]
      rintro ⟨defined, scheme⟩ member
      have named := (leads.defined (List.mem_reverse.mp member)).1
      simpa using fun same : name = defined => fresh (same ▸ named)
    rw [leads.env, Env.define, Env.get?_scopeOf, absent, Option.none_or]
  · have final := committed.schemes scheme member
    have later := final.later leads.subst fun v isBinder =>
      ⟨(committed.subst.bound isBinder).1, grown.2 v isBinder⟩
    rw [final.zonk, later.zonk]
  · rw [leads.keeps.template (Registry.index_lt_of_template? known), known]
  · exact leads.keeps.types fresh
  · exact leads.keeps.ctors fresh

theorem Settled.leaves (settled : session.Settled) {error : TypeError}
    (refused : Check.decl written session = .error error after) : session.Leaves after written := by
  rw [settled.restored refused]
  exact ⟨fun _ _ => rfl, fun _ _ => rfl, fun _ _ => id, fun _ _ => rfl, fun _ _ => rfl⟩

/-- What is declared stays as it is. The schemes of all names are resolved, and the variables that
are free in their types are unsolved and quantified; no further unit, accepted or refused, changes
any of them, nor any other declaration whose name it does not declare anew. -/
theorem declarations_immutable (resolved : Resolved options session) (written : Surface.Decl) :
    (∀ scheme ∈ session.env.schemes,
      scheme.Final session.subst (fun v => ∃ name, session.subst.cell v = .rigid name) ∧
      scheme.freeVars session.subst = [] ∧
      ∀ v ∈ session.subst.freeVars scheme.ty, v ∈ scheme.vars ∧ session.subst.root v = v ∧
        (session.subst.cell v).IsNew) ∧
    (∀ checked after, Check.decl written session = .ok checked after →
      session.Leaves after written) ∧
    ∀ error after, Check.decl written session = .error error after →
      session.Leaves after written := by
  obtain ⟨binder, committed⟩ := resolved.committed
  have isNew : ∀ v, binder v → (session.subst.cell v).IsNew :=
    fun v => committed.subst.confines.binders
  refine ⟨fun scheme member => ?_, fun _ _ => committed.leaves,
    fun _ _ => resolved.reachable.settled.leaves⟩
  have final := committed.schemes scheme member
  have rigid : scheme.Final session.subst (fun v => ∃ name, session.subst.cell v = .rigid name) :=
    ⟨final.ty.mono (fun _ => committed.subst.rigid) fun _ => id, final.normal, final.vars⟩
  refine ⟨rigid, final.freeVars isNew, fun v free => ?_⟩
  have confines := Subst.confines_isNew isNew fun v member => (final.vars v member).2
  have quantified := confines.mem_freeVars final.ty free
  exact ⟨quantified, Subst.root_of_isNew (final.vars v quantified).2, (final.vars v quantified).2⟩

def idDecl : Surface.Decl :=
  .define default false [⟨default, "id", none,
    .lambda default [⟨default, .bind default "x", .ident default "x"⟩]⟩]

/-- The definition of `id` is accepted; so is the one of `box` then, and it leaves `id` as it is. -/
theorem idDecl_immutable : ∃ checked middle checked' after,
    Check.decl idDecl (Session.start .standard) = .ok checked middle ∧
      Check.decl boxDecl middle = .ok checked' after ∧
      middle.env.schemes = [⟨[⟨1⟩], .arrow (.var ⟨1⟩) (.var ⟨1⟩)⟩] ∧
      Scheme.freeVars ⟨[⟨1⟩], .arrow (.var ⟨1⟩) (.var ⟨1⟩)⟩ middle.subst = [] ∧
      middle.Leaves after boxDecl := by
  have shown : gives (fun checked middle => decide (
        middle.env.schemes = [⟨[⟨1⟩], .arrow (.var ⟨1⟩) (.var ⟨1⟩)⟩]) &&
      (gives (fun _ _ => true) (Check.decl boxDecl middle) &&
      checked.definitions.all fun definition => (middle.subst.zonkWithin
        (middle.subst.depthBound definition.scheme.ty.size) definition.scheme.ty).isSome))
      (Check.decl idDecl (Session.start .standard)) = true := by cbv
  obtain ⟨checked, middle, accepted, shown⟩ := exists_of_gives shown
  obtain ⟨schemes, shown⟩ := Bool.and_eq_true_iff.mp shown
  obtain ⟨shown, ended⟩ := Bool.and_eq_true_iff.mp shown
  obtain ⟨checked', after, accepted', -⟩ := exists_of_gives shown
  have complete : idDecl.Complete := by
    rw [idDecl, Surface.Decl.Complete]
    trivial
  have resolved : Resolved .standard middle :=
      .accepted .start complete accepted fun definition member none => by
    have walk := List.all_eq_true.mp ended definition member
    rw [none] at walk
    exact Bool.false_ne_true walk
  have schemes := of_decide_eq_true schemes
  obtain ⟨closed, leaves, -⟩ := declarations_immutable resolved boxDecl
  exact ⟨checked, middle, checked', after, accepted, accepted', schemes,
    (closed _ (schemes ▸ List.mem_singleton_self _)).2.1, leaves _ _ accepted'⟩

end Resolved

end Session

end PolyCheck
