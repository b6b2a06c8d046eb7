import PolyCheck.Proofs.Session.Local
import PolyCheck.Proofs.Surface
import PolyCheck.Session.Declaration

/-! Written types are types in play. What a type is read as is made of the parameters in scope and
of variables in play; in a declaration, where names have to be declared and nothing is left open, it
is made of the parameters alone. Parameters that quantifiers bind are new variables of their own. -/
namespace PolyCheck

open Run Check

/-- The type is made of parameters in scope and, except in a declaration, of variables in play. -/
def World.Reads (declares : Prop) (scope : List TypeBinding) (world : World) (ty : Ty) : Prop :=
  ty.Confined world.binder fun v => world.Loose declares v ∨ ∃ param ∈ scope, param.var = v

/-- The scope of an elaborator, whose variables are parameters; free names stand for variables in
play. -/
structure Elaborator.Local (declares : Prop) (scope : List TypeBinding) (world : World)
    (state : Elaborator) : Prop where
  same : state.scope = scope
  params : ∀ param ∈ scope, world.binder param.var
  free : ∀ {made}, state.free = some made → ¬ declares ∧ ∀ binding ∈ made, world.own binding.var

section Later

variable {declares : Prop} {scope scope' : List TypeBinding} {world next : World} {ty : Ty}
  {state : Elaborator}

theorem World.Reads.later (reads : world.Reads declares scope ty) (grown : world ≤ next) :
    next.Reads declares scope ty :=
  reads.mono grown.2 fun _ => Or.imp_left fun isLoose => isLoose.later grown

theorem World.reads_closed {closed : Prop}
    (confined : ty.Confined world.binder (world.Loose closed))
    (closes : declares → closed) : world.Reads declares scope ty :=
  confined.imp fun _ isLoose => .inl ⟨mt closes isLoose.1, isLoose.2⟩

theorem Elaborator.Local.later (here : state.Local declares scope world) (grown : world ≤ next) :
    state.Local declares scope next where
  same := here.same
  params param member := grown.2 _ (here.params param member)
  free known :=
    ⟨(here.free known).1, fun binding member => grown.1 _ ((here.free known).2 binding member)⟩

theorem Elaborator.Local.kinds (here : state.Local declares scope world) (kinds : KindTable) :
    { state with kinds }.Local declares scope world :=
  ⟨here.same, here.params, here.free⟩

theorem Elaborator.Local.inScope (here : state.Local declares scope world)
    (params : ∀ param ∈ scope', world.binder param.var) :
    { state with scope := scope' }.Local declares scope' world :=
  ⟨rfl, params, here.free⟩

theorem Elaborator.local_forDeclaration : Elaborator.forDeclaration.Local declares [] world :=
  ⟨rfl, nofun, nofun⟩

theorem Elaborator.local_forUse (uses : ¬ declares) : Elaborator.forUse.Local declares
    [] world where
  same := rfl
  params := nofun
  free known := by
    obtain rfl := Option.some.inj known
    exact ⟨uses, nofun⟩

end Later

namespace Elaborate

variable {closed : Prop} {base : Subst} {env : Env} {kept : Registry → Prop} {world : World}
  {declares : Prop} {scope : List TypeBinding} {state : Elaborator} {α : Type}

/-- A result as described, and the same scope. -/
def Within (declares : Prop) (scope : List TypeBinding) (said : World → α → Prop) (world : World)
    (result : α × Elaborator) : Prop :=
  said world result.1 ∧ result.2.Local declares scope world

theorem reaches_fail {post : World → α × Elaborator → Prop} (cause : ErrorCause) (span : Span) :
    Reaches (Session.Local closed base env kept) world post
    (fail cause span state : Check (α × Elaborator)) :=
  .state_throw _

theorem reaches_freshKind (here : state.Local declares scope world) :
    Reaches (Session.Local closed base env kept) world (Within declares scope unsaid)
    (freshKind state) :=
  .pure ⟨trivial, here.kinds _⟩

theorem expectKind_eq_ok {expected found : Kind} {span : Span} {state' : Elaborator}
    {session after : Session} {value : PUnit}
    (run : expectKind expected found span state session = .ok (value, state') after) :
    after = session ∧ ∃ kinds, state' = { state with kinds } := by
  unfold expectKind at run
  obtain ⟨current, own, middle, here, rest⟩ := state_bind_eq_ok.mp run
  obtain ⟨rfl, rfl, rfl⟩ := state_pure_eq_ok.mp here
  cases unified : state.kinds.unify expected found with
  | mk equal kinds =>
    simp only [unified] at rest
    obtain ⟨_, own, middle, here, rest⟩ := state_bind_eq_ok.mp rest
    obtain ⟨same, rfl⟩ := pure_eq_ok.mp here
    obtain ⟨-, rfl⟩ := Prod.mk.inj same
    cases equal with
    | true =>
      obtain ⟨-, rfl, rfl⟩ := state_pure_eq_ok.mp rest
      exact ⟨rfl, kinds, rfl⟩
    | false => cases rest

theorem reaches_expectKind (here : state.Local declares scope world) (expected found : Kind)
    (span : Span) :
    Reaches (Session.Local closed base env kept) world (Within declares scope unsaid)
      (expectKind expected found span state) := by
  refine reaches_of_ok fun session after result kept' ended => ?_
  obtain ⟨value, state'⟩ := result
  obtain ⟨rfl, kinds, rfl⟩ := expectKind_eq_ok ended
  exact ⟨world, le_rfl, kept', trivial, here.kinds kinds⟩

theorem reaches_expectStar (here : state.Local declares scope world) {result : Ty × Kind}
    (reads : world.Reads declares scope result.1) (span : Span) :
    Reaches (Session.Local closed base env kept) world
    (Within declares scope (World.Reads declares scope)) (expectStar result span state) :=
  .state_bind (reaches_expectKind here _ _ _) fun grown kinds =>
    .state_pure ⟨reads.later grown, kinds.2⟩

theorem reaches_bindParam (here : state.Local declares scope world) (name : Name) :
    Reaches (Session.Local closed base env kept) world
      (fun later result => later.binder result.1.1 ∧
        result.2.Local declares (⟨name, result.1.1, result.1.2⟩ :: scope) later)
      (bindParam name state) := by
  have pushed : Reaches (Session.Local closed base env kept) world World.binder
      (onSubst fun subst => subst.freshRigid name) :=
    reaches_onSubst fun cells =>
      ⟨_, world.le_withBinder _, cells.push_binder _, .inr rfl⟩
  refine .state_lift pushed fun grown binder => ?_
  refine .state_bind (reaches_freshKind (here.later grown)) fun grown' kind => ?_
  refine .state_modify (.state_pure ⟨grown'.2 _ binder, ?_⟩)
  rw [kind.2.same]
  exact kind.2.inScope (List.forall_mem_cons.mpr ⟨grown'.2 _ binder, kind.2.params⟩)

theorem reaches_bindParams (here : state.Local declares scope world) (names : List Name) :
    Reaches (Session.Local closed base env kept) world
      (fun later result => (∀ param ∈ result.1, later.binder param.1) ∧ ∃ scope' : List TypeBinding,
        (∀ param ∈ scope', param ∈ scope ∨ param.var ∈ result.1.map (·.1)) ∧
          result.2.Local declares scope' later)
      (names.mapM bindParam state) := by
  induction names generalizing scope state world with
  | nil => exact .pure ⟨nofun, scope, fun _ => .inl, here⟩
  | cons name names ih =>
    rw [List.mapM_cons]
    refine .state_bind (reaches_bindParam here name) fun grown first => ?_
    refine .state_bind (ih first.2) fun grown' rest => .state_pure ?_
    obtain ⟨binders, scope', among, there⟩ := rest
    refine ⟨List.forall_mem_cons.mpr ⟨grown'.2 _ first.1, binders⟩, scope',
      fun param member => ?_, there⟩
    rw [List.map_cons, List.mem_cons]
    rcases among param member with inside | new
    · rcases List.mem_cons.mp inside with rfl | outer
      · exact .inr (.inl rfl)
      · exact .inl outer
    · exact .inr (.inr new)

theorem reaches_typeName (closes : declares → closed) (int : Registry.TakesInts kept)
    (here : state.Local declares scope world) (name : Name) (span : Span) :
    Reaches (Session.Local closed base env kept) world
      (Within declares scope fun later result => later.Reads declares scope result.1)
      (typeName name span state) := by
  refine .state_get fun session around => ?_
  cases known : session.registry.types.get? name with
  | none =>
    cases intWidth? name with
    | none => exact reaches_fail _ _
    | some width =>
      refine .state_lift (reaches_intTy int width) fun grown named => .state_pure ?_
      obtain ⟨id, rfl⟩ := named
      exact ⟨.named id, here.later grown⟩
  | some entry =>
    cases entry with
    | synonym ty kind =>
      exact .state_pure ⟨World.reads_closed (around.registry.synonym known) closes, here⟩
    | data id =>
      cases defined : session.registry.template? id with
      | none =>
        simp only [defined]
        exact .state_pure ⟨.named id, here⟩
      | some template =>
        simp only [defined]
        split
        · exact .state_pure ⟨.named id, here⟩
        · have params := (around.registry.template defined).params
          refine .state_pure ⟨.quantified params (.nominal ?_), here⟩
          exact List.forall_mem_map.mpr fun v member => .var (.inr member)

theorem reaches_typeVar (here : state.Local declares scope world) (name : Name) (span : Span) :
    Reaches (Session.Local closed base env kept) world
      (Within declares scope fun later result => later.Reads declares scope result.1)
      (typeVar name span state) := by
  refine .state_own ?_
  cases inScope : state.scope.find? (·.name = name) with
  | some binding =>
    have member : binding ∈ scope := here.same ▸ List.mem_of_find?_eq_some inScope
    exact .state_pure ⟨.var (.inr ⟨binding, member, rfl⟩), here⟩
  | none =>
    cases known : state.free with
    | none => exact reaches_fail _ _
    | some made =>
      obtain ⟨uses, each⟩ := here.free known
      cases found : made.find? (·.name = name) with
      | some binding =>
        simp only [found]
        exact .state_pure ⟨.var (.inl ⟨uses, each _ (List.mem_of_find?_eq_some found)⟩), here⟩
      | none =>
        simp only [found]
        refine .state_bind (reaches_freshKind here) fun grown kind => ?_
        have pushed : ∀ {later : World},
          Reaches (Session.Local closed base env kept) later World.own
            (onSubst Subst.fresh) := fun {later} =>
          reaches_onSubst fun cells =>
            ⟨_, later.le_withOwn _, cells.push_own Cell.isNew_unbound, .inr rfl⟩
        refine .state_lift pushed fun grown' own => ?_
        refine .state_modify (.state_pure ⟨.var (.inl ⟨uses, own⟩), kind.2.same, ?_, ?_⟩)
        · exact (kind.2.later grown').params
        · intro made' same
          obtain rfl := Option.some.inj same
          refine ⟨uses, List.forall_mem_cons.mpr ⟨own, fun binding member => ?_⟩⟩
          exact (grown.trans grown').1 _ (each binding member)

mutual

theorem reaches_type (closes : declares → closed) (int : Registry.TakesInts kept) :
    ∀ (written : Surface.TypeExpr) {world : World}
    {scope : List TypeBinding} {state : Elaborator}, (declares → written.Complete) →
      state.Local declares scope world →
    Reaches (Session.Local closed base env kept) world
      (Within declares scope fun later result => later.Reads declares scope result.1)
      (type written state)
  | .name span name, _, _, _, _, here => reaches_typeName closes int here name span
  | .var span name, _, _, _, _, here => reaches_typeVar here name span
  | .app span head args, _, _, _, complete, here => by
    unfold type
    refine .state_bind (reaches_type closes int head (fun declared => (complete declared).1) here)
      fun _ headRead => ?_
    refine .state_bind
      (reaches_types closes int args (fun declared => (complete declared).2) headRead.2)
      fun grown argsRead => ?_
    refine .state_bind (reaches_freshKind argsRead.2) fun grown' fresh => ?_
    refine .state_bind (reaches_expectKind fresh.2 _ _ _) fun further kinds =>
      .state_pure ⟨?_, kinds.2⟩
    have rest := grown'.trans further
    refine (headRead.1.later (grown.trans rest)).apply ?_
    exact List.forall_mem_map.mpr fun arg member => (argsRead.1 arg member).later rest
  | .arrow _ param result, _, _, _, complete, here => by
    unfold type
    refine .state_bind (reaches_type closes int param (fun declared => (complete declared).1) here)
      fun _ read => ?_
    refine .state_bind (reaches_expectStar read.2 read.1 _) fun _ fst => ?_
    refine .state_bind
      (reaches_type closes int result (fun declared => (complete declared).2) fst.2)
      fun grown read => ?_
    refine .state_bind (reaches_expectStar read.2 read.1 _) fun grown' snd => .state_pure ?_
    exact ⟨.arrow (fst.1.later (grown.trans grown')) snd.1, snd.2⟩
  | .tuple _ [inner], _, _, _, complete, here => by
    unfold type
    exact reaches_type closes int inner (fun declared => (complete declared).1) here
  | .tuple _ [], _, _, _, _, here => by
    unfold type
    exact .state_bind (reaches_starTypes closes int [] (fun _ => trivial) here)
      fun _ read => .state_pure ⟨.tuple read.1, read.2⟩
  | .tuple _ (first :: second :: rest), _, _, _, complete, here => by
    unfold type
    exact .state_bind (reaches_starTypes closes int (first :: second :: rest) complete here)
      fun _ read => .state_pure ⟨.tuple read.1, read.2⟩
  | .quantified span params body, _, scope, _, complete, here => by
    unfold type
    refine .state_lift (reaches_distinct _ _ _) fun grown _ => .state_own ?_
    refine .state_bind (reaches_bindParams (here.later grown) params) fun grown' bound => ?_
    obtain ⟨binders, scope', among, inner⟩ := bound
    refine .state_bind (reaches_type closes int body complete inner) fun further read => ?_
    refine .state_bind (reaches_expectStar read.2 read.1 _) fun further' inside => ?_
    refine .state_modify ?_
    have opened := further.trans further'
    have outer := here.later (grown.trans (grown'.trans opened))
    have restored := inside.2.inScope outer.params
    rw [← here.same] at restored
    split
    · rename_i empty
      refine .state_pure ⟨inside.1.imp fun v => Or.imp_right ?_, here.same ▸ restored⟩
      rintro ⟨param, member, rfl⟩
      rcases among param member with outside | new
      · exact ⟨param, outside, rfl⟩
      · rw [List.isEmpty_iff.mp empty] at new
        exact absurd new List.not_mem_nil
    · refine .state_pure ⟨.quantified ?_ (inside.1.imp ?_), here.same ▸ restored⟩
      · exact List.forall_mem_map.mpr fun param member => opened.2 _ (binders param member)
      · rintro v (own | ⟨param, member, rfl⟩)
        · exact .inl (.inl own)
        · exact (among param member).imp_left fun outside => .inr ⟨param, outside, rfl⟩
  | .hole _, _, _, _, complete, here => by
    unfold type
    refine .state_bind (reaches_freshKind here) fun _ fresh => ?_
    refine .state_lift reaches_freshVar fun grown own => .state_pure ⟨?_, fresh.2.later grown⟩
    exact own.imp fun v holds => .inl ⟨complete, holds⟩

theorem reaches_types (closes : declares → closed) (int : Registry.TakesInts kept) :
    ∀ (written : List Surface.TypeExpr)
    {world : World} {scope : List TypeBinding} {state : Elaborator},
      (declares → Surface.TypeExpr.CompleteAll written) →
    state.Local declares scope world →
    Reaches (Session.Local closed base env kept) world
      (Within declares scope fun later results => ∀ result ∈ results,
        later.Reads declares scope result.1)
      (types written state)
  | [], _, _, _, _, here => by
    unfold types
    exact .state_pure ⟨nofun, here⟩
  | written :: rest, _, _, _, complete, here => by
    unfold types
    refine .state_bind
      (reaches_type closes int written (fun declared => (complete declared).1) here)
      fun _ first => ?_
    refine .state_bind
      (reaches_types closes int rest (fun declared => (complete declared).2) first.2)
      fun grown others => .state_pure ⟨?_, others.2⟩
    exact List.forall_mem_cons.mpr ⟨first.1.later grown, others.1⟩

theorem reaches_starTypes (closes : declares → closed) (int : Registry.TakesInts kept) :
    ∀ (written : List Surface.TypeExpr)
    {world : World} {scope : List TypeBinding} {state : Elaborator},
      (declares → Surface.TypeExpr.CompleteAll written) →
    state.Local declares scope world →
    Reaches (Session.Local closed base env kept) world
      (Within declares scope fun later results => ∀ ty ∈ results, later.Reads declares scope ty)
      (starTypes written state)
  | [], _, _, _, _, here => by
    unfold starTypes
    exact .state_pure ⟨nofun, here⟩
  | written :: rest, _, _, _, complete, here => by
    unfold starTypes
    refine .state_bind
      (reaches_type closes int written (fun declared => (complete declared).1) here)
      fun _ read => ?_
    refine .state_bind (reaches_expectStar read.2 read.1 _) fun _ first => ?_
    refine .state_bind
      (reaches_starTypes closes int rest (fun declared => (complete declared).2) first.2)
      fun grown others => .state_pure ⟨?_, others.2⟩
    exact List.forall_mem_cons.mpr ⟨first.1.later grown, others.1⟩

end

end Elaborate

theorem Check.reaches_writtenType {closed : Prop} {base : Subst} {env : Env}
    {kept : Registry → Prop} {world : World}
    (int : Registry.TakesInts kept) (written : Surface.TypeExpr) :
    Reaches (Session.Local closed base env kept) world World.Owns (writtenType written) := by
  have uses : ¬ False := id
  have reads : Reaches (Session.Local closed base env kept) world
      (Elaborate.Within False [] fun later ty => later.Reads False [] ty)
      (Elaborate.starType written .forUse) :=
    .state_bind (Elaborate.reaches_type False.elim int written False.elim
      (Elaborator.local_forUse uses)) fun _ read => Elaborate.reaches_expectStar read.2 read.1 _
  refine reads.map fun _ read => read.1.imp ?_
  rintro v (⟨-, own⟩ | ⟨param, member, -⟩)
  · exact own
  · exact absurd member List.not_mem_nil

end PolyCheck
