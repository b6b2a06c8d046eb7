import PolyCheck.Proofs.Reaches
import PolyCheck.Proofs.Session.Declarations
import PolyCheck.Proofs.Session.Elaborated
import PolyCheck.Proofs.Ty.Application
import PolyCheck.Session.Elaboration

/-! Variables that written types bind are not variables that they may mention. Definitions bind
their parameters, and a quantifier binds variables that are new; as long as nothing in scope is a
parameter of a definition, what a written type leaves free is bound nowhere, and no quantifier of
its type lists a parameter twice. -/
namespace PolyCheck

open Run

/-- How many variables there are, and which of them have been bound by a definition or by a
quantifier. -/
@[ext] structure Ledger where
  size : Nat
  bound : TyVar → Prop

namespace Ledger

instance : Preorder Ledger where
  le first second := first.size ≤ second.size ∧ (∀ v, first.bound v → second.bound v) ∧
    ∀ v, v.index < first.size → second.bound v → first.bound v
  le_refl _ := ⟨Nat.le_refl _, fun _ => id, fun _ _ => id⟩
  le_trans _ _ _ first second :=
    ⟨Nat.le_trans first.1 second.1, fun v holds => second.2.1 v (first.2.1 v holds),
      fun v inside holds =>
      first.2.2 v inside (second.2.2 v (Nat.lt_of_lt_of_le inside first.1) holds)⟩

variable {base ledger next : Ledger} {v : TyVar} {ty : Ty} {registry : Registry} {session : Session}
  {scope : List TypeBinding} {state : Elaborator}

def Free (ledger : Ledger) (v : TyVar) : Prop := v.index < ledger.size ∧ ¬ ledger.bound v

theorem Free.later (free : ledger.Free v) (grown : ledger ≤ next) : next.Free v :=
  ⟨Nat.lt_of_lt_of_le free.1 grown.1, fun bound => free.2 (grown.2.2 v free.1 bound)⟩

/-- A type that quantifies bound variables, each once, over free ones. -/
structure Shows (ledger : Ledger) (ty : Ty) : Prop where
  distinct : ty.Distinct
  confined : ty.Confined ledger.bound ledger.Free

theorem Shows.later (shows_ : ledger.Shows ty) (grown : ledger ≤ next) : next.Shows ty :=
  ⟨shows_.distinct, shows_.confined.mono grown.2.1 fun _ free => free.later grown⟩

theorem Shows.var (free : ledger.Free v) : ledger.Shows (.var v) := ⟨.var, .var free⟩

theorem Shows.arrow {param result : Ty} (fst : ledger.Shows param) (snd : ledger.Shows result) :
    ledger.Shows (.arrow param result) :=
  ⟨.arrow fst.distinct snd.distinct, .arrow fst.confined snd.confined⟩

theorem Shows.tuple {elems : List Ty} (each : ∀ t ∈ elems, ledger.Shows t) :
    ledger.Shows (.tuple elems) :=
  ⟨.tuple fun t member => (each t member).distinct, .tuple fun t member => (each t member).confined⟩

theorem Shows.apply {args : List Ty} (shown : ledger.Shows ty)
    (each : ∀ arg ∈ args, ledger.Shows arg) : ledger.Shows (ty.apply args) :=
  ⟨shown.distinct.apply fun t member => (each t member).distinct,
    shown.confined.apply fun t member => (each t member).confined⟩

/-- What is shown so far does not mention a parameter that still waits, so further arguments may
follow. -/
theorem Shows.apply_apply {xs : List Ty} (shown : ledger.Shows ty) (each : ∀ x ∈ xs, ledger.Shows x)
    (ys : List Ty) : (ty.apply xs).apply ys = ty.apply (xs ++ ys) := by
  refine Ty.apply_apply shown.distinct (fun x member => (each x member).distinct) fun waiting body
    same x member => ?_
  have bound : ∀ v ∈ waiting, ledger.bound v := by
    have confined := shown.confined.apply fun x member => (each x member).confined
    exact (same ▸ confined).quantified_inv.1
  exact (each x member).confined.mono (fun _ _ => trivial) fun v free inside =>
    free.2 (bound v inside)

structure Knows (ledger : Ledger) (registry : Registry) : Prop where
  params : ∀ {id : TemplateId} {template : Template}, registry.template? id = some template →
    template.paramVars.Nodup ∧ ∀ v ∈ template.paramVars, ledger.bound v
  synonym : ∀ {name : Name} {ty : Ty} {kind : Kind},
    registry.types.get? name = some (.synonym ty kind) → ledger.Shows ty

theorem Knows.intTemplate (knows : ledger.Knows registry) (width : Nat) :
    ledger.Knows (registry.intTemplate width).2 := by
  cases known : registry.ints.get? width with
  | some id => rwa [Registry.intTemplate_of_some known]
  | none =>
    rw [Registry.intTemplate_of_none known]
    refine ⟨fun {id template} found => ?_, fun {name ty kind} found => @Ledger.Knows.synonym _ _
      knows name ty kind ?_⟩
    · rw [Registry.template?_record] at found
      change (registry.alloc _).2.template? id = some template at found
      rw [Registry.template?_alloc] at found
      split at found
      · obtain rfl := Option.some.inj found
        exact ⟨List.nodup_nil, List.forall_mem_nil _⟩
      · exact knows.params found
    · rwa [Registry.types_record] at found

theorem knows_initial (ledger : Ledger) : ledger.Knows .initial where
  params known := by
    obtain ⟨name, builtin, rfl⟩ := Registry.template?_initial known
    exact ⟨List.nodup_nil, List.forall_mem_nil _⟩
  synonym known := by rcases Registry.types_initial known with same | same <;> cases same

theorem Knows.enter (knows : ledger.Knows registry) (name : Name) {made : Template}
    (once : made.paramVars.Nodup)
    (bound : ∀ v ∈ made.paramVars, ledger.bound v) (meaning : TemplateId) :
    ledger.Knows ((registry.alloc made).2.defineType name (.data meaning)) where
  params {id template} known := by
    rw [Registry.defineType, Registry.template?_record] at known
    change (registry.alloc made).2.template? id = some template at known
    rw [Registry.template?_alloc] at known
    split at known
    · obtain rfl := Option.some.inj known
      exact ⟨once, bound⟩
    · exact knows.params known
  synonym {other ty kind} known := by
    rw [Registry.defineType, Registry.types_record, Table.get?_insert] at known
    split at known
    · cases known
    · exact knows.synonym known

/-- The variables of a session, of which the bound ones are there. Its tables are those of an
earlier ledger. -/
structure Keeps (base ledger : Ledger) (session : Session) : Prop where
  size : session.subst.size = ledger.size
  inside : ∀ v, ledger.bound v → v.index < ledger.size
  earlier : base ≤ ledger
  registry : base.Knows session.registry

/-- Names stand for free variables, no two for the same one. -/
structure Names (scope : List TypeBinding) (ledger : Ledger) (state : Elaborator) : Prop where
  same : state.scope = scope
  free : ∀ v ∈ (state.scope ++ state.free.getD []).map (·.var), ledger.Free v
  once : ((state.scope ++ state.free.getD []).map (·.var)).Nodup

theorem Names.later (names : ledger.Names scope state) (grown : ledger ≤ next) :
    next.Names scope state :=
  ⟨names.same, fun v member => (names.free v member).later grown, names.once⟩

theorem Names.kinds (names : ledger.Names scope state) (kinds : KindTable) :
    ledger.Names scope { state with kinds } :=
  ⟨names.same, names.free, names.once⟩

theorem Names.absent (names : ledger.Names scope state) {v : TyVar} (new : v.index = ledger.size) :
    v ∉ (state.scope ++ state.free.getD []).map (·.var) := fun member =>
  absurd (names.free v member).1 (Nat.not_lt_of_ge (Nat.le_of_eq new.symm))

theorem Names.enter (names : ledger.Names scope state) {v : TyVar} (free : ledger.Free v)
    (absent : v ∉ (state.scope ++ state.free.getD []).map (·.var)) (name : Name) (kind : Kind) :
    ledger.Names (⟨name, v, kind⟩ :: scope)
    { state with scope := ⟨name, v, kind⟩ :: state.scope } where
  same := congrArg _ names.same
  free := List.forall_mem_cons.mpr ⟨free, names.free⟩
  once := List.nodup_cons.mpr ⟨absent, names.once⟩

theorem Names.introduce (names : ledger.Names scope state) {made : List TypeBinding}
    (known : state.free = some made)
    {v : TyVar} (free : ledger.Free v)
    (absent : v ∉ (state.scope ++ state.free.getD []).map (·.var)) (name : Name)
    (kind : Kind) : ledger.Names scope { state with free := some (⟨name, v, kind⟩ :: made) } := by
  have moved : ((state.scope ++ ⟨name, v, kind⟩ :: made).map (·.var)).Perm
      (v :: (state.scope ++ state.free.getD []).map (·.var)) := by
    rw [known]
    exact List.perm_middle.map _
  refine ⟨names.same, fun w member => ?_,
    moved.nodup_iff.mpr (List.nodup_cons.mpr ⟨absent, names.once⟩)⟩
  rcases List.mem_cons.mp (moved.mem_iff.mp member) with rfl | old
  · exact free
  · exact names.free w old

def push (ledger : Ledger) : Ledger := { ledger with size := ledger.size + 1 }

theorem le_push (ledger : Ledger) : ledger ≤ ledger.push :=
  ⟨Nat.le_succ _, fun _ => id, fun _ _ => id⟩

theorem Keeps.push (keeps : base.Keeps ledger session) (cell : Cell) :
    base.Keeps ledger.push { session with subst := (session.subst.push cell).2 } where
  size := by
    change (session.subst.push cell).2.size = ledger.size + 1
    rw [Subst.size_push, keeps.size]
  inside v holds := Nat.lt_succ_of_lt (keeps.inside v holds)
  earlier := keeps.earlier.trans ledger.le_push
  registry := keeps.registry

theorem reaches_push {change : Subst → TyVar × Subst} {cell : Cell}
    (pushes : change = (·.push cell)) :
    Reaches base.Keeps ledger (fun later v => v.index = ledger.size ∧ later.Free v)
    (Check.onSubst change) := by
  subst pushes
  refine .modifyGet fun {session} here => ⟨ledger.push, ledger.le_push, here.push cell, here.size,
    ?_, fun bound => ?_⟩
  · exact Nat.lt_succ_of_le (Nat.le_of_eq here.size)
  · exact absurd (here.inside _ bound) (Nat.not_lt_of_ge (Nat.le_of_eq here.size.symm))

/-- Parameters of a quantifier become bound when their scope is left. -/
def bind (ledger : Ledger) (params : List TyVar) : Ledger :=
  { ledger with bound := fun v => ledger.bound v ∨ v ∈ params }

@[simp] theorem bind_nil (ledger : Ledger) : ledger.bind [] = ledger := by
  simp [bind]

theorem le_bind {first : Ledger} {params : List TyVar} (grown : first ≤ ledger)
    (new : ∀ v ∈ params, first.size ≤ v.index) : first ≤ ledger.bind params := by
  refine ⟨grown.1, fun v holds => .inl (grown.2.1 v holds), fun v inside holds => ?_⟩
  rcases holds with holds | member
  · exact grown.2.2 v inside holds
  · exact absurd inside (Nat.not_lt_of_ge (new v member))

theorem Keeps.bind {params : List TyVar} (keeps : base.Keeps ledger session)
    (free : ∀ v ∈ params, ledger.Free v)
    (new : ∀ v ∈ params, base.size ≤ v.index) : base.Keeps (ledger.bind params) session where
  size := keeps.size
  inside v bound := bound.elim (keeps.inside v) fun member => (free v member).1
  earlier := le_bind keeps.earlier new
  registry := keeps.registry

theorem Names.leave {params : List TyVar} {made : List TypeBinding}
    (names : ledger.Names (made ++ scope) state)
    (vars : params = (made.map (·.var)).reverse) : params.Nodup ∧ (∀ v ∈ params, ledger.Free v) ∧
      (ledger.bind params).Names scope { state with scope } := by
  subst vars
  obtain ⟨same, free, once⟩ := names
  rw [same, List.append_assoc, List.map_append] at free once
  simp only [List.mem_reverse, List.nodup_reverse]
  refine ⟨(List.nodup_append.mp once).1,
    fun v member => free v (List.mem_append_left _ member), rfl,
    fun v member => ?_, (List.nodup_append.mp once).2.1⟩
  have free := free v (List.mem_append_right _ member)
  refine ⟨free.1, fun bound => bound.elim free.2 fun inside => ?_⟩
  exact List.disjoint_of_nodup_append once (List.mem_reverse.mp inside) member

theorem Shows.bind {params : List TyVar} (shows_ : ledger.Shows ty) (once : params.Nodup) :
    (ledger.bind params).Shows (.quantified params ty) := by
  refine ⟨.quantified once shows_.distinct,
    .quantified (fun _ => .inr) (shows_.confined.mono (fun _ => .inl) ?_)⟩
  intro v free
  by_cases member : v ∈ params
  · exact .inr member
  · exact .inl ⟨free.1, fun bound => bound.elim free.2 member⟩

end Ledger

namespace Elaborate

variable {base ledger : Ledger} {scope : List TypeBinding} {state : Elaborator}

def Named {α : Type} (scope : List TypeBinding) (said : Ledger → α → Prop) (ledger : Ledger)
    (result : α × Elaborator) : Prop :=
  said ledger result.1 ∧ ledger.Names scope result.2

theorem named_freshKind (names : ledger.Names scope state) :
    Reaches base.Keeps ledger (Named scope unsaid) (freshKind state) :=
  .pure ⟨trivial, names.kinds _⟩

theorem named_expectKind (names : ledger.Names scope state) (expected found : Kind) (span : Span) :
    Reaches base.Keeps ledger (Named scope unsaid) (expectKind expected found span state) := by
  refine reaches_of_ok fun session after result keeps ended => ?_
  obtain ⟨value, state'⟩ := result
  obtain ⟨rfl, kinds, rfl⟩ := expectKind_eq_ok ended
  exact ⟨ledger, le_rfl, keeps, trivial, names.kinds kinds⟩

theorem named_expectStar (names : ledger.Names scope state) {result : Ty × Kind}
    (shown : ledger.Shows result.1)
    (span : Span) : Reaches base.Keeps ledger (Named scope Ledger.Shows)
    (expectStar result span state) :=
  .state_bind (named_expectKind names _ _ _) fun grown kinds =>
    .state_pure ⟨shown.later grown, kinds.2⟩

theorem named_bindParam (names : ledger.Names scope state) (name : Name) :
    Reaches base.Keeps ledger
      (fun later result => ledger.size ≤ result.1.1.index ∧
        later.Names (⟨name, result.1.1, result.1.2⟩ :: scope) result.2)
      (bindParam name state) := by
  refine .state_lift (Ledger.reaches_push rfl) fun {later var} grown new => ?_
  have fresh : Reaches base.Keeps later (fun _ result => ∃ kinds, result.2 = { state with kinds })
      (freshKind state) :=
    .pure ⟨_, rfl⟩
  refine .state_bind fresh fun {later' kind state'} grown' same => .state_modify (.state_pure ?_)
  obtain ⟨kinds, rfl⟩ := same
  refine ⟨Nat.le_of_eq new.1.symm, ?_⟩
  exact (((names.later grown).later grown').kinds kinds).enter (new.2.later grown')
    (names.absent new.1) name kind

theorem named_bindParams (names : ledger.Names scope state) (params : List Name) :
    Reaches base.Keeps ledger
      (fun later result => (∀ v ∈ result.1.map (·.1), ledger.size ≤ v.index) ∧
        ∃ made : List TypeBinding,
        result.1.map (·.1) = (made.map (·.var)).reverse ∧ later.Names (made ++ scope) result.2)
      (params.mapM bindParam state) := by
  induction params generalizing scope state ledger with
  | nil => exact .pure ⟨nofun, [], rfl, names⟩
  | cons name params ih =>
    rw [List.mapM_cons]
    refine .state_bind (named_bindParam names name) fun {_ first _} grown new => ?_
    refine .state_bind (ih new.2) fun {_ others _} grown' rest => .state_pure ?_
    obtain ⟨others', made, same, named⟩ := rest
    refine ⟨List.forall_mem_cons.mpr ⟨new.1,
        fun v member => Nat.le_trans grown.1 (others' v member)⟩,
      made ++ [⟨name, first.1, first.2⟩], ?_, ?_⟩
    · rw [List.map_append, List.reverse_append, ← same]
      rfl
    · rwa [List.append_assoc]

theorem named_typeName (names : ledger.Names scope state) (name : Name) (span : Span) :
    Reaches base.Keeps ledger (Named scope fun later result => later.Shows result.1)
    (typeName name span state) := by
  have named : ∀ {later : Ledger} (id : TemplateId), later.Shows (.named id) := fun id =>
    ⟨.nominal nofun, .nominal nofun⟩
  refine .state_get fun session keeps => ?_
  cases known : session.registry.types.get? name with
  | none =>
    cases intWidth? name with
    | none => exact .state_throw _
    | some width =>
      have taken : Reaches base.Keeps ledger (fun later ty => later.Shows ty) (Check.intTy width) :=
        .modifyGet fun here =>
          ⟨ledger, le_rfl, ⟨here.size, here.inside, here.earlier, here.registry.intTemplate width⟩,
            named _⟩
      exact .state_lift taken fun grown shown => .state_pure ⟨shown, names.later grown⟩
  | some entry =>
    cases entry with
    | synonym ty kind =>
      exact .state_pure ⟨(keeps.registry.synonym known).later keeps.earlier, names⟩
    | data id =>
      cases defined : session.registry.template? id with
      | none =>
        simp only [defined]
        exact .state_pure ⟨named id, names⟩
      | some template =>
        simp only [defined]
        split
        · exact .state_pure ⟨named id, names⟩
        · obtain ⟨once, bound⟩ := keeps.registry.params defined
          have bound := fun v member => keeps.earlier.2.1 v (bound v member)
          refine .state_pure
            ⟨⟨.quantified once (.nominal ?_), .quantified bound (.nominal ?_)⟩, names⟩
          · exact List.forall_mem_map.mpr fun v _ => .var
          · exact List.forall_mem_map.mpr fun v member => .var (.inr member)

theorem named_typeVar (names : ledger.Names scope state) (name : Name) (span : Span) :
    Reaches base.Keeps ledger (Named scope fun later result => later.Shows result.1)
    (typeVar name span state) := by
  refine .state_own ?_
  cases inScope : state.scope.find? (·.name = name) with
  | some binding =>
    have member := List.mem_append_left (state.free.getD []) (List.mem_of_find?_eq_some inScope)
    exact .state_pure ⟨.var (names.free _ (List.mem_map_of_mem member)), names⟩
  | none =>
    cases known : state.free with
    | none => exact .state_throw _
    | some made =>
      cases found : made.find? (·.name = name) with
      | some binding =>
        simp only [found]
        have member : binding ∈ state.scope ++ state.free.getD [] := by
          rw [known]
          exact List.mem_append_right _ (List.mem_of_find?_eq_some found)
        exact .state_pure ⟨.var (names.free _ (List.mem_map_of_mem member)), names⟩
      | none =>
        simp only [found]
        have fresh : Reaches base.Keeps ledger (fun _ result => ∃ kinds,
            result.2 = { state with kinds }) (freshKind state) :=
          .pure ⟨_, rfl⟩
        refine .state_bind fresh fun {_ kind state'} grown same => ?_
        obtain ⟨kinds, rfl⟩ := same
        have names := (names.later grown).kinds kinds
        refine .state_lift (Ledger.reaches_push rfl) fun {_ var} grown' new =>
          .state_modify (.state_pure ?_)
        exact ⟨.var new.2,
          (names.later grown').introduce known new.2 (names.absent new.1) name kind⟩

theorem named_freshVar : Reaches base.Keeps ledger Ledger.Shows Check.freshVar :=
  .modifyGet fun here => by
    obtain ⟨later, grown, keeps, -, free⟩ :=
      (@Ledger.reaches_push _ _ Subst.fresh _ rfl).ok here rfl
    exact ⟨later, grown, keeps, .var free⟩

mutual

theorem named_type : ∀ (written : Surface.TypeExpr) {ledger : Ledger} {scope : List TypeBinding}
    {state : Elaborator}, ledger.Names scope state →
    Reaches base.Keeps ledger (Named scope fun later result => later.Shows result.1)
    (type written state)
  | .name span name, _, _, _, names => named_typeName names name span
  | .var span name, _, _, _, names => named_typeVar names name span
  | .app span head args, _, _, _, names => by
    unfold type
    refine .state_bind (named_type head names) fun _ headRead => ?_
    refine .state_bind (named_types args headRead.2) fun grown argsRead => ?_
    refine .state_bind (named_freshKind argsRead.2) fun grown' fresh => ?_
    refine .state_bind (named_expectKind fresh.2 _ _ _) fun further kinds =>
      .state_pure ⟨?_, kinds.2⟩
    have rest := grown'.trans further
    refine (headRead.1.later (grown.trans rest)).apply ?_
    exact List.forall_mem_map.mpr fun arg member => (argsRead.1 arg member).later rest
  | .arrow _ param result, _, _, _, names => by
    unfold type
    refine .state_bind (named_type param names) fun _ read => ?_
    refine .state_bind (named_expectStar read.2 read.1 _) fun _ fst => ?_
    refine .state_bind (named_type result fst.2) fun grown read => ?_
    refine .state_bind (named_expectStar read.2 read.1 _) fun grown' snd => .state_pure ?_
    exact ⟨.arrow (fst.1.later (grown.trans grown')) snd.1, snd.2⟩
  | .tuple _ [inner], _, _, _, names => by
    unfold type
    exact named_type inner names
  | .tuple _ [], _, _, _, names => by
    unfold type
    exact .state_bind (named_starTypes [] names) fun _ read => .state_pure ⟨.tuple read.1, read.2⟩
  | .tuple _ (first :: second :: rest), _, _, _, names => by
    unfold type
    exact .state_bind (named_starTypes (first :: second :: rest) names)
      fun _ read => .state_pure ⟨.tuple read.1, read.2⟩
  | .quantified span params body, _, scope, state, names => by
    unfold type
    -- A variable is bound when its scope is left: nothing is bound on the way from the beginning of
    -- the scope to its end that was there before, while at its end the parameters are no longer
    -- new. So the steps are taken one by one.
    refine reaches_of_ok fun session after result keeps' ended => ?_
    obtain ⟨read, state'⟩ := result
    obtain ⟨_, start, distinct, rest⟩ := state_lift_bind_eq_ok.mp ended
    obtain rfl := Session.distinct_eq_ok distinct
    clear ended
    obtain ⟨_, _, _, same, ended⟩ := state_bind_eq_ok.mp rest
    obtain ⟨rfl, rfl, rfl⟩ := state_pure_eq_ok.mp same
    clear rest
    obtain ⟨vars, opened, _, bound, ended⟩ := state_bind_eq_ok.mp ended
    obtain ⟨first, grown, keeps, new, made, vars', names'⟩ :=
      (named_bindParams names params).ok keeps' bound
    obtain ⟨typed, _, _, read, ended⟩ := state_bind_eq_ok.mp ended
    obtain ⟨second, grown', keeps, shown, names'⟩ := (named_type body names').ok keeps read
    obtain ⟨ty, inner, last, checked, ended⟩ := state_bind_eq_ok.mp ended
    obtain ⟨third, grown'', keeps, shown, names'⟩ :=
      (named_expectStar names' shown _).ok keeps checked
    obtain ⟨_, _, _, left, ended⟩ := state_bind_eq_ok.mp ended
    obtain ⟨same, rfl⟩ := EStateM.Result.ok.inj left
    obtain ⟨-, rfl⟩ := Prod.mk.inj same
    obtain ⟨once, free, leave⟩ := names'.leave vars'
    rw [← names.same] at leave
    have opened := grown.trans (grown'.trans grown'')
    cases vars with
    | nil =>
      obtain ⟨same, rfl, rfl⟩ := state_pure_eq_ok.mp ended
      subst same
      rw [List.map_nil, Ledger.bind_nil] at leave
      exact ⟨third, opened, keeps, shown, names.same ▸ leave⟩
    | cons var vars =>
      obtain ⟨same, rfl, rfl⟩ := state_pure_eq_ok.mp ended
      subst same
      have new' : ∀ v ∈ (var :: vars).map (·.1), base.size ≤ v.index := fun v member =>
        Nat.le_trans keeps'.earlier.1 (new v member)
      exact ⟨_, Ledger.le_bind opened new, keeps.bind free new', shown.bind once,
        names.same ▸ leave⟩
  | .hole _, _, _, _, names => by
    unfold type
    refine .state_bind (named_freshKind names) fun _ fresh => ?_
    exact .state_lift named_freshVar fun grown shown => .state_pure ⟨shown, fresh.2.later grown⟩

theorem named_types : ∀ (written : List Surface.TypeExpr) {ledger : Ledger}
    {scope : List TypeBinding} {state : Elaborator}, ledger.Names scope state →
    Reaches base.Keeps ledger (Named scope fun later results => ∀ result ∈ results,
      later.Shows result.1) (types written state)
  | [], _, _, _, names => by
    unfold types
    exact .state_pure ⟨nofun, names⟩
  | written :: rest, _, _, _, names => by
    unfold types
    refine .state_bind (named_type written names) fun _ first => ?_
    refine .state_bind (named_types rest first.2) fun grown others => .state_pure ⟨?_, others.2⟩
    exact List.forall_mem_cons.mpr ⟨first.1.later grown, others.1⟩

theorem named_starTypes : ∀ (written : List Surface.TypeExpr) {ledger : Ledger}
    {scope : List TypeBinding} {state : Elaborator}, ledger.Names scope state →
    Reaches base.Keeps ledger (Named scope fun later types => ∀ ty ∈ types, later.Shows ty)
      (starTypes written state)
  | [], _, _, _, names => by
    unfold starTypes
    exact .state_pure ⟨nofun, names⟩
  | written :: rest, _, _, _, names => by
    unfold starTypes
    refine .state_bind (named_type written names) fun _ read => ?_
    refine .state_bind (named_expectStar read.2 read.1 _) fun _ first => ?_
    refine .state_bind (named_starTypes rest first.2) fun grown others => .state_pure ⟨?_, others.2⟩
    exact List.forall_mem_cons.mpr ⟨first.1.later grown, others.1⟩

end

end Elaborate

end PolyCheck
