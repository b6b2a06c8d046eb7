import PolyCheck.Proofs.Session.Fits

/-! Written types and declarations refer to nothing that is missing. -/
namespace PolyCheck

open Run Check

variable {shape larger : Shape} {env : Env}

/-- The variables of an elaborator, in scope or made on first use, are there. -/
structure Elaborator.Fits (shape : Shape) (state : Elaborator) : Prop where
  scope : ∀ param ∈ state.scope, param.var.index < shape.cells
  free : ∀ {made}, state.free = some made → ∀ param ∈ made, param.var.index < shape.cells

namespace Elaborator

variable {state : Elaborator}

theorem Fits.grow (fits : state.Fits shape) (grown : shape ≤ larger) : state.Fits larger where
  scope param member := Nat.lt_of_lt_of_le (fits.scope param member) grown.1
  free known param member := Nat.lt_of_lt_of_le (fits.free known param member) grown.1

theorem Fits.kinds (fits : state.Fits shape) (kinds : KindTable) :
    { state with kinds }.Fits shape :=
  ⟨fits.scope, fits.free⟩

theorem Fits.inScope (fits : state.Fits shape) {scope : List TypeBinding}
    (each : ∀ param ∈ scope, param.var.index < shape.cells) : { state with scope }.Fits shape :=
  ⟨each, fits.free⟩

theorem fits_forDeclaration : Elaborator.forDeclaration.Fits shape := ⟨nofun, nofun⟩

theorem fits_forUse : Elaborator.forUse.Fits shape where
  scope := nofun
  free known := by
    obtain rfl := Option.some.inj known
    exact nofun

end Elaborator

theorem Check.stays_distinct (what : NameKind) (names : List Name) (span : Span) :
    Stays (Session.Fits env) shape unsaid (distinct what names span) := by
  unfold distinct
  split
  · exact .throw _
  · exact .pure trivial

namespace Elaborate

variable {α : Type} {state : Elaborator}

def Reads (said : Shape → α → Prop) (shape : Shape) (result : α × Elaborator) : Prop :=
  said shape result.1 ∧ result.2.Fits shape

def FitsType (shape : Shape) (result : Ty × Kind) : Prop := result.1.Fits shape

theorem lasts_fitsType : Lasts FitsType := fun grown fits => Ty.Fits.grow fits grown

theorem stays_fail {post : Shape → α × Elaborator → Prop} (cause : ErrorCause) (span : Span) :
    Stays (Session.Fits env) shape post (fail cause span state : Check (α × Elaborator)) :=
  .state_throw _

theorem stays_freshKind (here : state.Fits shape) :
    Stays (Session.Fits env) shape (Reads unsaid) (freshKind state) :=
  .pure ⟨trivial, here.kinds _⟩

theorem stays_expectKind (here : state.Fits shape) (expected found : Kind) (span : Span) :
    Stays (Session.Fits env) shape (Reads unsaid) (expectKind expected found span state) := by
  unfold expectKind
  refine .state_own ?_
  obtain ⟨equal, kinds⟩ := state.kinds.unify expected found
  have kept : Stays (Session.Fits env) shape (fun later result => result.2.Fits later)
      ((set { state with kinds } : Elaborate PUnit) state) := .pure (here.kinds kinds)
  refine .state_bind kept fun _ there => ?_
  cases equal with
  | true => exact .state_pure ⟨trivial, there⟩
  | false => exact stays_fail _ _

theorem stays_expectStar {result : Ty × Kind} (here : state.Fits shape)
    (fits : FitsType shape result) (span : Span) :
    Stays (Session.Fits env) shape (Reads fun later ty => ty.Fits later)
    (expectStar result span state) :=
  .state_bind (stays_expectKind here _ _ _) fun grown kinds =>
    .state_pure ⟨Ty.Fits.grow fits grown, kinds.2⟩

theorem stays_bindParam (here : state.Fits shape) (name : Name) :
    Stays (Session.Fits env) shape (Reads fun later param => param.1.index < later.cells)
      (bindParam name state) := by
  refine .state_lift (stays_fresh (Cell.isNew_rigid (some name)) fun _ => rfl) fun grown
    inside => ?_
  refine .state_bind (stays_freshKind (here.grow grown)) fun grown' kind => ?_
  have inside := Nat.lt_of_lt_of_le inside grown'.1
  exact .state_modify (.state_pure
    ⟨inside, kind.2.inScope (List.forall_mem_cons.mpr ⟨inside, kind.2.scope⟩)⟩)

theorem stays_bindParams (here : state.Fits shape) (names : List Name) :
    Stays (Session.Fits env) shape
      (Reads fun later params => ∀ param ∈ params, param.1.index < later.cells)
      (names.mapM bindParam state) :=
  .state_mapM unsaid (fun later (param : TyVar × Kind) => param.1.index < later.cells)
    (fun later (state : Elaborator) => state.Fits later) (fun _ _ => trivial)
    (fun grown inside => Nat.lt_of_lt_of_le inside grown.1) (fun _ _ => trivial) here
    fun {_ name _} _ _ here => stays_bindParam here name

theorem stays_typeName (here : state.Fits shape) (name : Name) (span : Span) :
    Stays (Session.Fits env) shape (Reads FitsType) (typeName name span state) := by
  refine .state_get fun session around => ?_
  cases known : session.registry.types.get? name with
  | none =>
    cases intWidth? name with
    | none => exact stays_fail _ _
    | some width =>
      exact .state_lift (stays_intTy width) fun grown fits => .state_pure ⟨fits, here.grow grown⟩
  | some entry =>
    cases around.registry.type known with
    | synonym fits kind => exact .state_pure ⟨fits, here⟩
    | @data id isSome =>
      rw [← around.registry.arity, Registry.arity?, Option.isSome_map] at isSome
      obtain ⟨template, defined⟩ := Option.isSome_iff_exists.mp isSome
      have arity := around.registry.isSome_arity? defined
      simp only [defined]
      split
      · rename_i empty
        rw [List.isEmpty_iff.mp empty] at arity
        exact .state_pure ⟨.nominal arity (List.forall_mem_nil _), here⟩
      · have params := (around.registry.template defined).params
        refine .state_pure ⟨.quantified params (.nominal ?_ ?_), here⟩
        · rw [arity, List.length_map, Template.paramVars, List.length_map]
        · exact List.forall_mem_map.mpr fun v member => .var (params v member)

theorem stays_typeVar (here : state.Fits shape) (name : Name) (span : Span) :
    Stays (Session.Fits env) shape (Reads FitsType) (typeVar name span state) := by
  refine .state_own ?_
  cases inScope : state.scope.find? (·.name = name) with
  | some binding =>
    exact .state_pure ⟨.var (here.scope _ (List.mem_of_find?_eq_some inScope)), here⟩
  | none =>
    cases known : state.free with
    | none => exact stays_fail _ _
    | some made =>
      cases found : made.find? (·.name = name) with
      | some binding =>
        simp only [found]
        exact .state_pure ⟨.var (here.free known _ (List.mem_of_find?_eq_some found)), here⟩
      | none =>
        simp only [found]
        refine .state_bind (stays_freshKind here) fun grown kind => ?_
        refine .state_lift (stays_fresh Cell.isNew_unbound fun _ => rfl) fun grown' inside => ?_
        refine .state_modify (.state_pure ⟨.var inside, (kind.2.grow grown').scope, fun same => ?_⟩)
        obtain rfl := Option.some.inj same
        exact List.forall_mem_cons.mpr ⟨inside, fun param member =>
          Nat.lt_of_lt_of_le (here.free known param member) (grown.trans grown').1⟩

mutual

theorem stays_type : ∀ (written : Surface.TypeExpr) {shape : Shape} {state : Elaborator},
    state.Fits shape → Stays (Session.Fits env) shape (Reads FitsType) (type written state)
  | .name span name, _, _, here => stays_typeName here name span
  | .var span name, _, _, here => stays_typeVar here name span
  | .app span head args, _, _, here => by
    unfold type
    refine .state_bind (stays_type head here) fun _ headRead => ?_
    refine .state_bind (stays_types args headRead.2) fun grown argsRead => ?_
    refine .state_bind (stays_freshKind argsRead.2) fun grown' fresh => ?_
    refine .state_bind (stays_expectKind fresh.2 _ _ _) fun further kinds =>
      .state_pure ⟨?_, kinds.2⟩
    have rest := grown'.trans further
    refine (Ty.Fits.grow headRead.1 (grown.trans rest)).apply ?_
    exact List.forall_mem_map.mpr fun arg member => Ty.Fits.grow (argsRead.1 arg member) rest
  | .arrow _ param result, _, _, here => by
    unfold type
    refine .state_bind (stays_type param here) fun _ read => ?_
    refine .state_bind (stays_expectStar read.2 read.1 _) fun _ fst => ?_
    refine .state_bind (stays_type result fst.2) fun grown read => ?_
    refine .state_bind (stays_expectStar read.2 read.1 _) fun grown' snd => .state_pure ⟨?_, snd.2⟩
    exact .arrow (Ty.Fits.grow fst.1 (grown.trans grown')) snd.1
  | .tuple _ [inner], _, _, here => by
    unfold type
    exact stays_type inner here
  | .tuple _ [], _, _, here => by
    unfold type
    exact .state_bind (stays_starTypes [] here) fun _ read => .state_pure ⟨.tuple read.1, read.2⟩
  | .tuple _ (first :: second :: rest), _, _, here => by
    unfold type
    exact .state_bind (stays_starTypes (first :: second :: rest) here) fun _ read =>
      .state_pure ⟨.tuple read.1, read.2⟩
  | .quantified span params body, _, _, here => by
    unfold type
    refine .state_lift (stays_distinct _ _ _) fun grown _ => .state_own ?_
    refine .state_bind (stays_bindParams (here.grow grown) params) fun grown' bound => ?_
    refine .state_bind (stays_type body bound.2) fun further read => ?_
    refine .state_bind (stays_expectStar read.2 read.1 _) fun further' inside => .state_modify ?_
    have opened := further.trans further'
    have restored := inside.2.inScope (here.grow (grown.trans (grown'.trans opened))).scope
    split
    · exact .state_pure ⟨inside.1, restored⟩
    · refine .state_pure ⟨.quantified (List.forall_mem_map.mpr fun param member => ?_) inside.1,
        restored⟩
      exact Nat.lt_of_lt_of_le (bound.1 param member) opened.1
  | .hole _, _, _, here => by
    unfold type
    refine .state_bind (stays_freshKind here) fun _ fresh => ?_
    exact .state_lift stays_freshVar fun grown fits => .state_pure ⟨fits, fresh.2.grow grown⟩

theorem stays_types : ∀ (written : List Surface.TypeExpr) {shape : Shape} {state : Elaborator},
    state.Fits shape →
    Stays (Session.Fits env) shape (Reads fun later results => ∀ result ∈ results,
      FitsType later result) (types written state)
  | [], _, _, here => by
    unfold types
    exact .state_pure ⟨List.forall_mem_nil _, here⟩
  | written :: rest, _, _, here => by
    unfold types
    refine .state_bind (stays_type written here) fun _ first => ?_
    refine .state_bind (stays_types rest first.2) fun grown others => .state_pure ⟨?_, others.2⟩
    exact List.forall_mem_cons.mpr ⟨lasts_fitsType grown first.1, others.1⟩

theorem stays_starTypes : ∀ (written : List Surface.TypeExpr) {shape : Shape} {state : Elaborator},
    state.Fits shape →
    Stays (Session.Fits env) shape (Reads fun later types => ∀ ty ∈ types, ty.Fits later)
      (starTypes written state)
  | [], _, _, here => by
    unfold starTypes
    exact .state_pure ⟨List.forall_mem_nil _, here⟩
  | written :: rest, _, _, here => by
    unfold starTypes
    refine .state_bind (stays_type written here) fun _ read => ?_
    refine .state_bind (stays_expectStar read.2 read.1 _) fun _ first => ?_
    refine .state_bind (stays_starTypes rest first.2) fun grown others => .state_pure ⟨?_, others.2⟩
    exact List.forall_mem_cons.mpr ⟨first.1.grow grown, others.1⟩

end

end Elaborate

theorem Check.stays_writtenType (written : Surface.TypeExpr) :
    Stays (Session.Fits env) shape (fun later ty => ty.Fits later) (writtenType written) := by
  have reads : Stays (Session.Fits env) shape (Elaborate.Reads fun later ty => ty.Fits later)
      (Elaborate.starType written .forUse) :=
    .state_bind (Elaborate.stays_type written Elaborator.fits_forUse)
      fun _ read => Elaborate.stays_expectStar read.2 read.1 _
  exact reads.map fun _ read => read.1

/-- Types and schemes without missing parts, as a discipline of checks that may fail. -/
def Shape.discipline : Discipline Shape where
  failures := True
  inv := Session.Fits
  owns shape ty := ty.Fits shape
  binds shape scheme := scheme.Fits shape
  knows shape info := info.Fits shape
  allowed _ := True
  lasts_owns grown fits := fits.grow grown
  lasts_binds grown fits := fits.grow grown
  lasts_knows grown fits := fits.grow grown
  owns_arrow := .arrow
  owns_tuple := .tuple
  binds_mono := .mono
  env_eq here := here.scopes
  binds_of_mem here _ member := here.schemes _ (here.scopes ▸ member)
  knows_of_get? here _ _ known := here.registry.ctor known
  owns_shallow here := here.subst.shallow
  binds_generalize here := here.subst.generalize
  quiet here _ _ := ⟨here.subst, here.scopes, here.schemes, here.registry⟩
  enter here _ each := here.enter each
  leave here grown there := here.leave grown there
  freshVar := Check.stays_freshVar
  unify fits fits' span := Check.stays_unify fits fits' span
  openFlexible := Check.stays_openFlexible
  openRigid := Check.stays_openRigid
  instantiate := Check.stays_instantiate
  literal := Check.stays_literal
  ctorInstance := Check.stays_ctorInstance
  writtenType _ := Check.stays_writtenType _

end PolyCheck
