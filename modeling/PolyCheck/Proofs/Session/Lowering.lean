import PolyCheck.Proofs.Pat.Refinement
import PolyCheck.Proofs.Session.Soundness
import PolyCheck.Proofs.Term.Simulation

/-! Lowering in a session. The terms of accepted units without annotations are typed, and stay so
in every later session, so they can be lowered at any time: evaluation gives values that go
together, or stops for the same reason. A tree is built at the type with its variables replaced;
where a quantifier catches a variable on the way, a part of the value may no longer be looked into,
and the tree binds another one. -/
namespace PolyCheck

open Decision

namespace CheckedDecl

/-- The names in scope of the terms of a unit. -/
def scope (context : Context) : CheckedDecl → Context
  | .define recursive definitions => context.extend (Definition.inside recursive definitions)
  | _ => context

theorem Typed.terms {subst : Subst} {registry : Registry} {context : Context}
    {checked : CheckedDecl}
    (typed : checked.Typed subst registry context) {term : Term} (member : term ∈ checked.terms) :
    Term.Typed subst registry (checked.scope context) term := by
  cases checked with
  | data _ => cases member
  | «synonym» _ => cases member
  | eval _ =>
    obtain rfl := List.mem_singleton.mp member
    exact typed
  | define recursive definitions =>
    obtain ⟨definition, inside, rfl⟩ := List.mem_map.mp member
    exact Definition.TypedAll.values typed definition inside

end CheckedDecl

namespace Decision

/-- A tree does what the first case that matches a value does; the names of programs then have the
values that this case captures. -/
def Selects (call : Term → Bindings → Outcome) (env : Bindings) (value : Value) (arms : List Arm)
    (tree : Term) : Prop :=
  match firstArm? value arms with
  | none => Term.evalWith call env tree = .error .failure
  | some (arm, bindings) => ∃ env' : Bindings,
      (∀ name : Name, name.Apart → env'.value? name = (env ++ bindings).value? name) ∧
      Term.evalWith call env tree = Term.evalWith call env' arm.body

variable {subst : Subst} {registry : Registry} {call : Term → Bindings → Outcome} {env : Bindings}
  {scrutinee : Term} {value : Value} {arms : List Arm}

theorem compile_selects (ty : Ty) (supply : NameSupply)
    (evaluated : Term.evalWith call env scrutinee = .ok value)
    (typed : value.HasType subst registry (subst.zonk scrutinee.ty))
    (cases : ∀ arm ∈ arms, arm.pat.HasType subst registry (subst.zonk scrutinee.ty))
    (linear : ∀ arm ∈ arms, arm.pat.Linear) :
    Selects call env value arms (compile subst registry scrutinee arms ty supply).1 := by
  have selects :=
    @eval_compile subst registry ty supply call env value arms scrutinee evaluated typed cases
  rw [Selects]
  cases first : firstArm? value arms with
  | none =>
    rw [first] at selects
    exact selects
  | some chosen =>
    obtain ⟨arm, bindings⟩ := chosen
    rw [first] at selects
    obtain ⟨hidden, captured, minted, perm, result⟩ := selects
    obtain ⟨inArms, matched⟩ := mem_of_firstArm? first
    refine ⟨env ++ hidden ++ captured, fun name apart => ?_, result⟩
    have distinct := (linear arm inArms).distinct_match matched
    have absent : hidden.value? name = none := Bindings.value?_minted minted apart
    rw [Bindings.value?_append, Bindings.value?_append, Bindings.value?_append, absent,
      Option.none_or, Bindings.value?_perm perm.symm distinct]

/-- A value and the cases for it have the type of a scrutinee also after its variables are replaced.
Over first-order fields this is always so. -/
def StaysTyped (subst : Subst) (registry : Registry) (ty : Ty) (value : Value)
    (arms : List Arm) : Prop :=
  (registry.Plain ∧ registry.ParamsWithin subst.size ∧ subst.Tame ∧ ty.FirstOrder subst.size) ∨
    value.HasType subst registry (subst.zonk ty) ∧
      ∀ arm ∈ arms, arm.pat.HasType subst registry (subst.zonk ty)

theorem StaysTyped.resolved {ty : Ty} (stays : StaysTyped subst registry ty value arms)
    (typed : value.HasType subst registry ty)
    (cases : ∀ arm ∈ arms, arm.pat.HasType subst registry ty) :
    value.HasType subst registry (subst.zonk ty) ∧
      ∀ arm ∈ arms, arm.pat.HasType subst registry (subst.zonk ty) := by
  rcases stays with ⟨plain, params, tame, firstOrder⟩ | again
  · refine ⟨typed.resolved tame plain params firstOrder, fun arm member => ?_⟩
    exact (cases arm member).resolved plain ⟨Nat.le_refl _, Nat.le_refl _, id⟩
  · exact again

end Decision

namespace Session

open Term

theorem lower_eq (session : Session) (term : Term) :
    (session.lower term).1 = (term.lower session.subst session.registry session.names).1 := rfl

/-- Decision trees select what the cases select, as long as the scrutinee keeps its type when
variables are replaced in it. Over first-order fields it does, so in every session of units without
annotations a term of an accepted unit evaluates to what it is lowered to in that session or in a
later one. -/
theorem lowering_preserves_meaning (subst : Subst) (registry : Registry) :
    (∀ {call : Term → Bindings → Outcome} {env : Bindings} {scrutinee : Term} {value : Value}
      {arms : List Arm} (ty : Ty) (supply : NameSupply),
      evalWith call env scrutinee = .ok value → value.HasType subst registry scrutinee.ty →
      (∀ arm ∈ arms, arm.pat.HasType subst registry scrutinee.ty ∧ arm.pat.Linear) →
      StaysTyped subst registry scrutinee.ty value arms →
      Selects call env value arms (compile subst registry scrutinee arms ty supply).1) ∧
    ∀ {options : Options} {session after later : Session} {written : Surface.Decl}
      {checked : CheckedDecl} {term : Term}, Units (Session.start options) session → written.Bare →
      Check.decl written session = .ok checked after → after.registry.Plain → Units after later →
      term ∈ checked.terms → ∀ (depth : Nat) (images : TyVar → Ty) (env env' : Bindings),
        env.Typed later.subst later.registry images (checked.scope session.env.lookup?) →
        env.Lowers later.subst later.registry env' →
        Agree (Value.Lowers later.subst later.registry) (eval depth term env)
          (eval depth (later.lower term).1 env') := by
  refine ⟨fun ty supply evaluated typed cases stays => ?_, ?_⟩
  · obtain ⟨typed', cases'⟩ := stays.resolved typed fun arm member => (cases arm member).1
    exact compile_selects ty supply evaluated typed' cases' fun arm member => (cases arm member).2
  intro options session after later written checked term units bare accepted plain further
    member depth images env env' typed lowers
  obtain ⟨atTop, -⟩ := units.atTop (atTop_start options)
  have follows := atTop.follows bare accepted plain
  obtain ⟨atTop', stays⟩ := further.atTop follows.atTop
  have typedTerm :=
    (CheckedDecl.Typed.terms follows.typed member).later stays.size_le stays.unsolved stays.registry
  have agree := simulates_eval atTop'.sound.tame atTop'.sound.registry.plain depth typedTerm
    ⟨later.names, lower_eq later term⟩ ⟨typed, lowers⟩
  exact agree.mono fun _ refines => refines.2

/-- A match on a pair, with a nested pattern and a capture. -/
def pairMatch : Surface.Expr :=
  .matchOn default (.tuple default [.lit default (.bool true), .lit default (.bool false)])
    [⟨default, .tuple default [.lit default (.bool true), .bind default "x"], .ident default "x"⟩,
      ⟨default, .wild default, .lit default (.bool true)⟩]

theorem pairMatch_accepted : ∃ checked after,
    Check.decl (.eval default pairMatch) (Session.start .standard) = .ok checked after := by
  have shown : Run.gives (fun _ _ => true)
      (Check.decl (.eval default pairMatch) (Session.start .standard)) = true := by cbv
  obtain ⟨checked, after, accepted, -⟩ := Run.exists_of_gives shown
  exact ⟨checked, after, accepted⟩

theorem pairMatch_bare : Surface.Decl.Bare (.eval default pairMatch) := by
  simp only [Surface.Decl.Bare, pairMatch, Surface.Expr.Bare, Surface.Expr.BareCases,
    Surface.Expr.BareAll, Surface.Pattern.Bare, Surface.Pattern.BareAll]
  decide

/-- Where the truth value is looked at, the first case is selected by the tree as well. -/
theorem lowering_preserves_pairMatch :
    Selects (fun _ _ => .error .unfinished) [] (.bool true)
      [⟨.bool true, .lit (.bool false) Registry.boolTy⟩]
      (compile .empty .initial (.lit (.bool true) Registry.boolTy)
        [⟨.bool true, .lit (.bool false) Registry.boolTy⟩] Registry.boolTy .empty).1 ∧
    ∃ checked after, Check.decl (.eval default pairMatch) (Session.start .standard) =
      .ok checked after ∧ ∀ term ∈ checked.terms, ∀ depth : Nat,
        Agree (Value.Lowers after.subst after.registry) (eval depth term [])
          (eval depth (after.lower term).1 []) := by
  have family : Family.of Registry.boolTy .empty .initial = .bool :=
    Pat.family_provided coherent_initial.bool
  constructor
  · refine (lowering_preserves_meaning .empty .initial).1 Registry.boolTy .empty rfl
      (.bool family true) ?_ ?_
    · intro arm member
      obtain rfl := List.mem_singleton.mp member
      exact ⟨.bool family true, ⟨by simp [Pat.Uniform, Pat.Every], List.nodup_nil⟩⟩
    · have noParams : Registry.initial.ParamsWithin Subst.empty.size := by
        intro id template known
        obtain ⟨index⟩ := id
        match index with
        | 0 | 1 =>
          obtain rfl := Option.some.inj known
          exact List.forall_mem_nil _
        | index + 2 => cases known
      exact .inl ⟨coherent_initial.plain, noParams, Subst.tame_empty,
        .nominal (List.forall_mem_nil _)⟩
  · obtain ⟨checked, after, accepted⟩ := pairMatch_accepted
    have atTop := atTop_start .standard
    have plain : after.registry.Plain := by
      obtain ⟨found, reached, run, -, rfl⟩ := decl_eq_ok accepted
      obtain ⟨term, middle, here, finish⟩ := Run.bind_eq_ok.mp run
      obtain ⟨rfl, rfl⟩ := Run.pure_eq_ok.mp finish
      exact (atTop.reaches_eval pairMatch_bare here).advance.sound.registry.plain
    refine ⟨checked, after, accepted, fun term member depth => ?_⟩
    exact (lowering_preserves_meaning after.subst after.registry).2 .refl pairMatch_bare accepted
      plain .refl member depth .var [] [] (fun _ _ _ _ found => by cases found) fun _ _ => .none

/-- A function on types that gives back its argument: `ap twist` is `twist`, which applies to
`bool -> bool` what is always its own argument. -/
def twistAliases : List Surface.Decl :=
  [.synonym default "ap" ["f", "b"] (.app default (.var default "f") [.var default "b"]),
    .synonym default "left" ["x", "y"] (.var default "x"),
    .synonym default "atArrow" ["g"] (.app default (.var default "g")
      [.arrow default (.name default "bool") (.name default "bool")]),
    .synonym default "twist" ["x"] (.app default (.name default "atArrow")
      [.app default (.name default "ap") [.app default (.name default "left") [.var default "x"]]])]

def wrapUnits : List Surface.Decl :=
  [.data default [⟨default, "box", [], [⟨default, "Box", [.name default "bool"]⟩]⟩],
    .data default [⟨default, "key", ["f"], [⟨default, "Key", []⟩,
      ⟨default, "Lock", [.app default (.var default "f") [.name default "bool"]]⟩]⟩],
    .data default [⟨default, "wrap", ["f", "a", "c"], [⟨default, "Wrap",
      [.app default (.name default "key") [.var default "f"],
        .app default (.var default "f") [.var default "a"], .var default "c"]⟩]⟩]]

def twistKey : Surface.TypeExpr :=
  .app default (.name default "key") [.app default (.name default "ap") [.name default "twist"]]

/-- A match on a wrapped box, of which the key tells the function that gives the box. -/
def wrapMatch : Surface.Decl :=
  .eval default (.matchOn default
    (.app default (.ident default "Wrap") (.tuple default
      [.ascribed default (.ident default "Key") twistKey,
        .app default (.ident default "Box") (.lit default (.bool true)), .lit default (.str "s")]))
    [⟨default, .ctor default "Wrap" [.tuple default [.ascribed default (.wild default) twistKey,
      .ctor default "Box" [.bind default "y"], .bind default "z"]], .ident default "y"⟩])

def boxPat : Pat := .ctor "Box" ⟨2⟩ 0 [.capturing "y"]

def wrapPat : Pat := .ctor "Wrap" ⟨4⟩ 0 [.any, boxPat, .capturing "z"]

def wrapArm : Arm := ⟨wrapPat, .var "y" Registry.boolTy⟩

def wrapValue : Value :=
  .ctor 0 (some (.tuple [.ctor 0 none, .ctor 0 (some (.bool true)), .str [115]]))

def wrapArgs : List Ty := [.var ⟨10⟩, .var ⟨11⟩, .var ⟨12⟩]

def wrapTy : Ty := .nominal ⟨4⟩ wrapArgs

def boxField : Ty := .app (.var ⟨10⟩) [.var ⟨11⟩]

def lockField : Ty := .app (.var ⟨10⟩) [Registry.boolTy]

def wrapCase : DataCase :=
  ⟨"Wrap", [.nominal ⟨3⟩ [.var ⟨1⟩], .app (.var ⟨1⟩) [.var ⟨2⟩], .var ⟨3⟩]⟩

structure Wrapped (session : Session) : Prop where
  whole : Family.of wrapTy session.subst session.registry = .enum ⟨4⟩ wrapArgs
  wrapParts : session.registry.fieldsAt ⟨4⟩ 0 wrapArgs =
    [.nominal ⟨3⟩ [.var ⟨10⟩], boxField, .var ⟨12⟩]
  wrapCase : session.registry.case? ⟨4⟩ 0 = some wrapCase
  wrapCount : session.registry.caseCount ⟨4⟩ = 1
  key : Family.of (.nominal ⟨3⟩ [.var ⟨10⟩]) session.subst session.registry = .enum ⟨3⟩ [.var ⟨10⟩]
  keyParts : session.registry.fieldsAt ⟨3⟩ 0 [.var ⟨10⟩] = []
  lockParts : session.registry.fieldsAt ⟨3⟩ 1 [.var ⟨10⟩] = [lockField]
  keyCount : session.registry.caseCount ⟨3⟩ = 2
  lock : Family.of lockField session.subst session.registry = .bool
  box : Family.of boxField session.subst session.registry = .enum ⟨2⟩ []
  boxParts : session.registry.fieldsAt ⟨2⟩ 0 [] = [Registry.boolTy]
  boxCase : session.registry.case? ⟨2⟩ 0 = some ⟨"Box", [Registry.boolTy]⟩
  boxCount : session.registry.caseCount ⟨2⟩ = 1
  flag : Family.of Registry.boolTy session.subst session.registry = .bool
  text : Family.of (.var ⟨12⟩) session.subst session.registry = .str

/-- What replacing variables makes of the function that gives the box: its argument is caught. -/
def caughtFn : Ty := .quantified [⟨5⟩] (.arrow Registry.boolTy Registry.boolTy)

def caughtField : Ty := .app caughtFn [.named ⟨2⟩]

def caughtArgs : List Ty := [caughtFn, .named ⟨2⟩, .named ⟨1⟩]

def caughtTy : Ty := .nominal ⟨4⟩ caughtArgs

/-- What the resolved type of the scrutinee leads to: the type of the box looks like a function. -/
structure Caught (subst : Subst) (registry : Registry) : Prop where
  resolved : subst.zonk wrapTy = caughtTy
  whole : Family.of caughtTy subst registry = .enum ⟨4⟩ caughtArgs
  parts : registry.fieldsAt ⟨4⟩ 0 caughtArgs = [.nominal ⟨3⟩ [caughtFn], caughtField, .named ⟨1⟩]
  field : Family.of caughtField subst registry = .unknown

theorem Reachable.units {options : Options} {units : List Surface.Decl} {session after : Session}
    {checked : List CheckedDecl} (before : session.Reachable options)
    (accepted : units.mapM Check.decl session = .ok checked after) : after.Reachable options := by
  induction units generalizing session checked with
  | nil =>
    rw [List.mapM_nil] at accepted
    obtain ⟨-, rfl⟩ := Run.pure_eq_ok.mp accepted
    exact before
  | cons unit units ih =>
    rw [List.mapM_cons] at accepted
    obtain ⟨first, middle, here, accepted⟩ := Run.bind_eq_ok.mp accepted
    obtain ⟨rest, last, there, accepted⟩ := Run.bind_eq_ok.mp accepted
    obtain ⟨-, rfl⟩ := Run.pure_eq_ok.mp accepted
    exact ih (before.decl unit (.inl ⟨first, here⟩)) there

theorem exists_wrapped : ∃ session : Session, session.Reachable .standard ∧ session.Wrapped ∧
    Caught session.subst session.registry := by
  have shown : Run.gives (fun _ session => decide (
        Family.of wrapTy session.subst session.registry = .enum ⟨4⟩ wrapArgs ∧
        Family.of (.nominal ⟨3⟩ [.var ⟨10⟩]) session.subst session.registry =
          .enum ⟨3⟩ [.var ⟨10⟩] ∧
        Family.of lockField session.subst session.registry = .bool ∧
        Family.of boxField session.subst session.registry = .enum ⟨2⟩ [] ∧
        Family.of Registry.boolTy session.subst session.registry = .bool ∧
        Family.of (.var ⟨12⟩) session.subst session.registry = .str) &&
      (decide (session.registry.fieldsAt ⟨4⟩ 0 wrapArgs = [.nominal ⟨3⟩ [.var ⟨10⟩], boxField,
            .var ⟨12⟩] ∧
        session.registry.fieldsAt ⟨3⟩ 0 [.var ⟨10⟩] = [] ∧
        session.registry.fieldsAt ⟨3⟩ 1 [.var ⟨10⟩] = [lockField] ∧
        session.registry.fieldsAt ⟨2⟩ 0 [] = [Registry.boolTy] ∧
        session.registry.case? ⟨4⟩ 0 = some wrapCase ∧
        session.registry.case? ⟨2⟩ 0 = some ⟨"Box", [Registry.boolTy]⟩ ∧
        session.registry.caseCount ⟨4⟩ = 1 ∧ session.registry.caseCount ⟨3⟩ = 2 ∧
        session.registry.caseCount ⟨2⟩ = 1) &&
      decide (session.subst.zonk wrapTy = caughtTy ∧
        Family.of caughtTy session.subst session.registry = .enum ⟨4⟩ caughtArgs ∧
        session.registry.fieldsAt ⟨4⟩ 0 caughtArgs =
          [.nominal ⟨3⟩ [caughtFn], caughtField, .named ⟨1⟩] ∧
        Family.of caughtField session.subst session.registry = .unknown)))
      ((wrapUnits ++ twistAliases ++ [wrapMatch]).mapM Check.decl (.start .standard)) =
        true := by cbv
  obtain ⟨checked, session, accepted, shown⟩ := Run.exists_of_gives shown
  obtain ⟨families, shown⟩ := Bool.and_eq_true_iff.mp shown
  obtain ⟨declared, caught⟩ := Bool.and_eq_true_iff.mp shown
  obtain ⟨whole, key, lock, box, flag, text⟩ := of_decide_eq_true families
  obtain ⟨wrapParts, keyParts, lockParts, boxParts, wrapCase, boxCase, wrapCount, keyCount,
      boxCount⟩ :=
    of_decide_eq_true declared
  obtain ⟨resolved, caughtWhole, parts, field⟩ := of_decide_eq_true caught
  exact ⟨session, Reachable.start.units accepted,
    { whole, wrapParts, wrapCase, wrapCount, key, keyParts, lockParts, keyCount, lock,
      box, boxParts, boxCase, boxCount, flag, text }, ⟨resolved, caughtWhole, parts, field⟩⟩

section Caught

def wholeProblem : Problem := ⟨[.var "%m0" caughtTy], [⟨[wrapPat], [], 0⟩]⟩

def partProblem : Problem :=
  ⟨[.var "%f1" (.nominal ⟨3⟩ [caughtFn]), .var "%f2" caughtField, .var "%f3" (.named ⟨1⟩)],
    [⟨[.any, boxPat, .capturing "z"], [], 0⟩]⟩

/-- The box is not looked into, and what it holds is taken from the part after it. -/
def partTree : Term :=
  .matchOn (.var "%f2" caughtField)
    [⟨.any, .matchOn (.var "%f3" (.named ⟨1⟩)) [⟨.capturing "y", .var "y" Registry.boolTy⟩]
      Registry.boolTy⟩, ⟨.any, .failure Registry.boolTy⟩] Registry.boolTy

def wholeTree : Term :=
  .matchOn (.var "%m0" caughtTy)
    [⟨.ctor "Wrap" ⟨4⟩ 0 [.capturing "%f1", .capturing "%f2", .capturing "%f3"], partTree⟩]
    Registry.boolTy

variable {subst : Subst} {registry : Registry}

theorem build_parts (caught : Caught subst registry) :
    (build subst registry [.var "y" Registry.boolTy] Registry.boolTy partProblem ⟨4⟩).1 =
      partTree := by
  have step : partProblem.step subst registry ⟨4⟩ =
      (.switch (.var "%f2" caughtField) [(.any, partProblem.specialize 1 (.variant 0) []),
        (.any, partProblem.default 1)], ⟨4⟩) := by
    change (partProblem.split registry (.of caughtField subst registry) 1) ⟨4⟩ = _
    rw [caught.field]
    rfl
  have found : build subst registry [.var "y" Registry.boolTy] Registry.boolTy
      (partProblem.specialize 1 (.variant 0) []) ⟨4⟩ =
        (.matchOn (.var "%f3" (.named ⟨1⟩)) [⟨.capturing "y", .var "y" Registry.boolTy⟩]
          Registry.boolTy, ⟨4⟩) := by
    rw [build_eq]
    rfl
  have missed : build subst registry [.var "y" Registry.boolTy] Registry.boolTy
      (partProblem.default 1) ⟨4⟩ = (.failure Registry.boolTy, ⟨4⟩) := by
    rw [build_eq]
    rfl
  rw [build_eq, StateT.run, step]
  generalize build subst registry [.var "y" Registry.boolTy] Registry.boolTy = built at found missed
  change Term.matchOn _ [⟨.any, (built (partProblem.specialize 1 (.variant 0) []) ⟨4⟩).1⟩,
    ⟨.any, (built (partProblem.default 1)
        (built (partProblem.specialize 1 (.variant 0) []) ⟨4⟩).2).1⟩]
    _ = _
  rw [found, missed]
  rfl

theorem build_whole (known : registry.case? ⟨4⟩ 0 = some wrapCase)
    (count : registry.caseCount ⟨4⟩ = 1) (caught : Caught subst registry) :
    (build subst registry [.var "y" Registry.boolTy] Registry.boolTy wholeProblem ⟨1⟩).1 =
      wholeTree := by
  have step : wholeProblem.step subst registry ⟨1⟩ = (.switch (.var "%m0" caughtTy)
      [(.ctor "Wrap" ⟨4⟩ 0 [.capturing "%f1", .capturing "%f2", .capturing "%f3"], partProblem)],
      ⟨4⟩) := by
    have heads : wholeProblem.heads 0 = [.variant 0] := rfl
    have spanned : (Family.enum ⟨4⟩ caughtArgs).spannedBy registry [.variant 0] = true := by
      rw [Family.spannedBy, count]
      rfl
    have pattern : (Family.enum ⟨4⟩ caughtArgs).pattern registry (.variant 0) =
        .ctor "Wrap" ⟨4⟩ 0 (Pat.anys 3) := by
      rw [Family.pattern, Family.arity, known]
      rfl
    change (wholeProblem.split registry (.of caughtTy subst registry) 0) ⟨1⟩ = _
    rw [caught.whole, Problem.split, heads, spanned, branches, Family.fieldTypes,
      caught.parts, pattern]
    rfl
  have parts := build_parts caught
  rw [build_eq, StateT.run, step]
  generalize build subst registry [.var "y" Registry.boolTy] Registry.boolTy = built at parts
  change Term.matchOn _ [⟨_, (built partProblem ⟨4⟩).1⟩] _ = _
  rw [parts]
  rfl

theorem Wrapped.compile_eq {session : Session} (wrapped : session.Wrapped)
    (caught : Caught session.subst session.registry) :
    (compile session.subst session.registry (.var "v" wrapTy) [wrapArm] Registry.boolTy .empty).1 =
      .letIn false [⟨"%m0", .mono caughtTy, .var "v" wrapTy⟩] wholeTree Registry.boolTy := by
  rw [← build_whole wrapped.wrapCase wrapped.wrapCount caught, wholeProblem, ← caught.resolved]
  rfl

theorem Wrapped.hasType_boxPat {session : Session} (wrapped : session.Wrapped) :
    boxPat.HasType session.subst session.registry boxField := by
  refine .ctor wrapped.box wrapped.boxCase ?_
  rw [wrapped.boxParts]
  exact .cons (.wild _ _) .nil

theorem Wrapped.hasType_pat {session : Session} (wrapped : session.Wrapped) :
    wrapPat.HasType session.subst session.registry wrapTy := by
  refine .ctor wrapped.whole wrapped.wrapCase ?_
  rw [wrapped.wrapParts]
  exact .cons (.wild _ _) (.cons wrapped.hasType_boxPat (.cons (.wild _ _) .nil))

theorem Wrapped.hasType_key {session : Session} (wrapped : session.Wrapped) :
    Value.HasType session.subst session.registry (.ctor 0 none) (.nominal ⟨3⟩ [.var ⟨10⟩]) := by
  refine @Value.HasType.ctor _ _ _ _ _ 0 [] wrapped.key (by rw [wrapped.keyCount]; decide) ?_
  rw [wrapped.keyParts]
  exact .nil

theorem Wrapped.hasType_box {session : Session} (wrapped : session.Wrapped) :
    Value.HasType session.subst session.registry (.ctor 0 (some (.bool true))) boxField := by
  refine @Value.HasType.ctor _ _ _ _ _ 0 [.bool true] wrapped.box
    (by rw [wrapped.boxCount]; decide) ?_
  rw [wrapped.boxParts]
  exact .cons (.bool wrapped.flag true) .nil

theorem Wrapped.hasType {session : Session} (wrapped : session.Wrapped) :
    wrapValue.HasType session.subst session.registry wrapTy := by
  refine @Value.HasType.ctor _ _ _ _ _ 0 [.ctor 0 none, .ctor 0 (some (.bool true)), .str [115]]
    wrapped.whole (by rw [wrapped.wrapCount]; decide) ?_
  rw [wrapped.wrapParts]
  exact .cons wrapped.hasType_key (.cons wrapped.hasType_box (.cons (.str wrapped.text _) .nil))

/-- The type of the box is caught when variables are replaced, so the tree takes the string for what
the box holds. -/
theorem caught_box_misread : ¬ ∀ {options : Options} {session : Session}
    {call : Term → Bindings → Outcome} {env : Bindings} {scrutinee : Term} {value : Value}
    {arms : List Arm} (ty : Ty) (supply : NameSupply), session.Reachable options →
    evalWith call env scrutinee = .ok value →
    value.HasType session.subst session.registry scrutinee.ty →
    (∀ arm ∈ arms, arm.pat.HasType session.subst session.registry scrutinee.ty ∧ arm.pat.Linear) →
    Selects call env value arms
      (compile session.subst session.registry scrutinee arms ty supply).1 := by
  intro selects
  obtain ⟨session, reachable, wrapped, caught⟩ := exists_wrapped
  have selected := @selects .standard session (fun _ _ => .error .unfinished) [("v", wrapValue)]
    (.var "v" wrapTy) wrapValue [wrapArm] Registry.boolTy .empty reachable rfl wrapped.hasType
    fun arm member => by
      obtain rfl := List.mem_singleton.mp member
      exact ⟨wrapped.hasType_pat, by
        simp [wrapArm, wrapPat, boxPat, Pat.Uniform, Pat.Every, Pat.EveryAll, Pat.any,
          Pat.capturing], by decide⟩
  obtain ⟨env', same, result⟩ := selected
  rw [wrapped.compile_eq caught] at result
  have read : env'.value? "y" = some (.bool true) := same "y" (Name.apart_of_not_minted (by decide))
  have body : evalWith (fun _ _ => .error .unfinished) env' wrapArm.body = .ok (.bool true) := by
    rw [wrapArm, evalWith, read]
  have misread : evalWith (fun _ _ => .error .unfinished) [("v", wrapValue)]
      (.letIn false [⟨"%m0", .mono caughtTy, .var "v" wrapTy⟩] wholeTree Registry.boolTy) =
        .ok (.str [115]) := by rfl
  rw [body, misread] at result
  cases result

end Caught

end Session

end PolyCheck
