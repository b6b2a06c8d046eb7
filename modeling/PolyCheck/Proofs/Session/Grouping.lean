import Mathlib
import PolyCheck.Proofs.Session.Constructors
import PolyCheck.Proofs.Surface.Grouping

/-! Parentheses are not noticed. A check of an expression or a pattern with more parentheses
succeeds when the check without them does, and gives the same result in the same session. Only the
locations of errors are others. -/
namespace PolyCheck

open Run Surface

/-- How many fields the constructors of a session have. -/
def Registry.arities (registry : Registry) : Arities :=
  fun name => (registry.ctors.get? name).map (·.arity)

namespace Check

variable {base : Registry} {α β : Type}

/-- Two checks succeed together, with one result and in one session, while nothing but definitions
is added to the tables. -/
def Together (base : Registry) (run run' : Check α) : Prop :=
  ∀ session : Session, base.Adding session.registry →
    ∀ result after, run session = .ok result after ↔ run' session = .ok result after

def TogetherWith (base : Registry) (run run' : Capturing α) : Prop :=
  ∀ captures, Together base (run captures) (run' captures)

theorem Steady.describe {inv : Subst → Registry → Prop} {post described : α → Prop} {run : Check α}
    (steady : Steady inv post run)
    (shown : ∀ {session found after}, inv session.subst session.registry →
      run session = .ok found after → described found) : Steady inv described run := by
  intro env options names session around
  have after := steady env options names session around
  cases result : run session with
  | ok found last =>
    rw [result] at after
    exact ⟨after.1, shown around.holds result⟩
  | error error last =>
    rw [result] at after
    exact after

namespace Together

variable {first first' : Check α} {cont cont' : α → Check β} {post : α → Prop}

theorem refl (run : Check α) : Together base run run := fun _ _ _ _ => Iff.rfl

theorem symm {run run' : Check α} (together : Together base run run') : Together base run' run :=
  fun session adding result after => (together session adding result after).symm

theorem trans {run run' run'' : Check α} (left : Together base run run')
    (right : Together base run' run'') : Together base run run'' :=
  fun session adding result after => (left session adding result after).trans
    (right session adding result after)

/-- What comes next starts from tables that the first check has only added to. -/
theorem bind (here : Together base first first')
    (adds : Steady (fun _ registry => base.Adding registry) post first)
    (rest : ∀ {found}, post found → Together base (cont found) (cont' found)) :
    Together base (first >>= cont) (first' >>= cont') := by
  intro session adding result after
  rw [bind_eq_ok, bind_eq_ok]
  refine exists_congr fun found => exists_congr fun middle => ?_
  rw [← here session adding found middle]
  refine and_congr_right fun ran => ?_
  have added := adds.keeps session adding
  rw [ran] at added
  exact rest added.2 middle added.1 result after

theorem next (adds : Steady (fun _ registry => base.Adding registry) post first)
    (rest : ∀ {found}, post found → Together base (cont found) (cont' found)) :
    Together base (first >>= cont) (first >>= cont') :=
  (refl first).bind adds rest

theorem inScope {body body' : Check α} (inside : Together base body body')
    (bindings : List (Name × Scheme)) :
    Together base (inScope bindings body) (inScope bindings body') := by
  intro session adding result after
  rw [Session.inScope_eq_ok, Session.inScope_eq_ok]
  exact exists_congr fun last => and_congr_left fun _ =>
    inside { session with env := session.env.enter bindings } adding result last

theorem refused {run run' : Check α} (left : ∀ session result after, run session ≠ .ok result after)
    (right : ∀ session result after, run' session ≠ .ok result after) : Together base run run' :=
  fun _ _ _ _ => ⟨fun ran => absurd ran (left _ _ _), fun ran => absurd ran (right _ _ _)⟩

theorem unify (expected found : Ty) (span span' : Span) :
    Together base (unify expected found span) (Check.unify expected found span') := by
  intro session _ result after
  simp only [Check.unify]
  cases Subst.unify expected found session.subst with
  | ok value subst => rfl
  | error error subst =>
    constructor
    · intro ran
      cases ran
    · intro ran
      cases ran

theorem forM {items : List α} {visit visit' : α → Check PUnit}
    (each : ∀ item, Together base (visit item) (visit' item))
    (adds : ∀ item, Steady (fun _ registry => base.Adding registry) anything (visit item)) :
    Together base (forM items visit) (forM items visit') := by
  induction items with
  | nil => exact refl _
  | cons item items ih =>
    rw [List.forM_cons, List.forM_cons]
    exact (each item).bind (adds item) fun _ => ih

end Together

namespace TogetherWith

variable {first first' : Capturing α} {cont cont' : α → Capturing β} {post : α → Prop}

theorem refl (run : Capturing α) : TogetherWith base run run := fun _ => .refl _

theorem symm {run run' : Capturing α} (together : TogetherWith base run run') :
    TogetherWith base run' run :=
  fun captures => (together captures).symm

theorem trans {run run' run'' : Capturing α} (left : TogetherWith base run run')
    (right : TogetherWith base run' run'') : TogetherWith base run run'' :=
  fun captures => (left captures).trans (right captures)

theorem bind (here : TogetherWith base first first')
    (adds : SteadyWith (fun _ registry => base.Adding registry) post first)
    (rest : ∀ {found}, post found → TogetherWith base (cont found) (cont' found)) :
    TogetherWith base (first >>= cont) (first' >>= cont') :=
  fun captures => (here captures).bind (adds captures) fun holds => rest holds _

theorem next (adds : SteadyWith (fun _ registry => base.Adding registry) post first)
    (rest : ∀ {found}, post found → TogetherWith base (cont found) (cont' found)) :
    TogetherWith base (first >>= cont) (first >>= cont') :=
  (refl first).bind adds rest

theorem lift {run run' : Check α} (together : Together base run run')
    (adds : Steady (fun _ registry => base.Adding registry) post run) :
    TogetherWith base (liftM run) (liftM run') :=
  fun _ => together.bind adds fun _ => .refl _

theorem refused {run run' : Capturing α}
    (left : ∀ captures session result after, run captures session ≠ .ok result after)
    (right : ∀ captures session result after, run' captures session ≠ .ok result after) :
    TogetherWith base run run' :=
  fun captures => .refused (left captures) (right captures)

end TogetherWith

section Patterns

def argPatterns (name : Name) (span : Span) (fields : List Ty) (args : List Pattern) :
    Capturing (List Pat) :=
  match args with
  | [.tuple tupleSpan elements] =>
    if 1 < fields.length ∧ elements.length = fields.length then
      fieldPatterns elements fields
    else do
      expectFields name fields.length 1 span
      fieldPatterns [.tuple tupleSpan elements] fields
  | [.wild wildSpan] =>
    if 1 < fields.length then
      wildFields wildSpan fields
    else do
      expectFields name fields.length 1 span
      wildFields wildSpan fields
  | args => do
    expectFields name fields.length args.length span
    fieldPatterns args fields

theorem pattern_ctor (span : Span) (name : Name) (args : List Pattern) :
    pattern (.ctor span name args) = (do
      let (info, fields, result) ← liftM (ctorPattern name span)
      let subpatterns ← argPatterns name span fields args
      pure (.ctor name info.template info.index subpatterns, result)) := by
  rw [pattern]
  refine congrArg (_ >>= ·) (funext fun found => ?_)
  obtain ⟨info, fields, result⟩ := found
  unfold argPatterns
  obtain _ | ⟨arg, _ | ⟨_, _⟩⟩ := args
  · simp only [bind_assoc]
  · cases arg with
    | tuple _ _ | wild _ =>
      dsimp only
      split
      · rfl
      · rw [bind_assoc]
    | _ => simp only [bind_assoc]
  · simp only [bind_assoc]

theorem fieldPatterns_wild (span : Span) (fields : List Ty) :
    fieldPatterns (fields.map fun _ => .wild span) fields = liftM (wildFields span fields) := by
  induction fields with
  | nil =>
    rw [List.map_nil, fieldPatterns, wildFields, liftM_pure]
    intro _ _ _ _ same
    cases same
  | cons field fields ih =>
    rw [List.map_cons, fieldPatterns, ih, pattern, wildFields]
    simp only [liftM_bind, liftM_pure, bind_assoc, pure_bind]
    rfl

theorem expectFields_eq_ok {name : Name} {expected found : Nat} {span : Span}
    {session after : Session} :
    expectFields name expected found span session = .ok () after ↔ found = expected ∧
      session = after := by
  unfold expectFields
  split
  · rename_i same
    simp [same, pure_eq_ok]
  · rename_i other
    exact ⟨nofun, fun both => absurd both.1 other⟩

theorem steady_expectFields_eq {inv : Subst → Registry → Prop} (name : Name) (expected found : Nat)
    (span : Span) :
    Steady inv (fun _ => found = expected) (expectFields name expected found span) :=
  (steady_expectFields name expected found span).describe fun _ run => (expectFields_eq_ok.mp run).1

theorem argPatterns_alone {fields : List Ty} (few : ¬ 1 < fields.length) (name : Name) (span : Span)
    (arg : Pattern) : TogetherWith base (argPatterns name span fields [arg]) (do
      expectFields name fields.length 1 span
      fieldPatterns [arg] fields) := by
  unfold argPatterns
  split
  · rename_i same
    obtain ⟨rfl, -⟩ := List.cons.inj same
    rw [if_neg fun both => few both.1]
    exact .refl _
  · rename_i wildSpan same
    obtain ⟨rfl, -⟩ := List.cons.inj same
    rw [if_neg few]
    refine .next (.lift (steady_expectFields_eq _ _ _ _)) fun {_} single => ?_
    obtain ⟨field, rfl⟩ := List.length_eq_one_iff.mp single.symm
    rw [← fieldPatterns_wild]
    exact .refl _
  · exact .refl _

theorem argPatterns_refused {fields : List Ty} {arg : Pattern} (several : 1 < fields.length)
    (single : ¬ Pattern.StandsFor fields.length [arg]) (name : Name) (span : Span)
    {captures : Captures}
    {session after : Session} {result : List Pat × Captures} :
    argPatterns name span fields [arg] captures session ≠ .ok result after := by
  have refused : ∀ {rest : Capturing (List Pat)}, ((do
      expectFields name fields.length 1 span
      rest) : Capturing (List Pat)) captures session ≠ .ok result after := by
    intro rest ran
    obtain ⟨_, _, counted, -⟩ := state_lift_bind_eq_ok.mp ran
    exact absurd (expectFields_eq_ok.mp counted).1 (Nat.ne_of_lt several)
  cases arg with
  | wild => exact absurd trivial single
  | tuple =>
    rw [argPatterns, if_neg fun both => single both.2]
    exact refused
  | _ => exact refused

theorem steady_ctorPattern_fields (agrees : base.Agrees) (name : Name) (span : Span) :
    Steady (fun _ registry => base.Adding registry)
      (fun found => base.arities name = some found.2.1.length) (ctorPattern name span) := by
  refine (steady_ctorPattern solving_adding name span).describe fun {session found after}
    adding run => ?_
  obtain ⟨known, middle, look, run⟩ := bind_eq_ok.mp run
  obtain ⟨rfl, rfl⟩ := Session.lookupCtor?_eq_ok look
  cases entry : middle.registry.ctors.get? name with
  | none =>
    rw [entry] at run
    exact nomatch run
  | some info =>
    rw [entry] at run
    obtain ⟨_, template, dataCase, describes⟩ := agrees.adding adding name info entry
    obtain ⟨fields, made, instanced, finish⟩ := bind_eq_ok.mp run
    obtain ⟨rfl, rfl⟩ := pure_eq_ok.mp finish
    obtain ⟨rfl, rfl⟩ := EStateM.Result.ok.inj ((ctorInstance_apply describes).symm.trans instanced)
    rw [Registry.arities, ← adding.ctors, entry]
    simp [describes.fieldsAt, describes.arity]

theorem steady_argPatterns (name : Name) (span : Span) (fields : List Ty) (args : List Pattern) :
    SteadyWith (fun _ registry => base.Adding registry) anything
    (argPatterns name span fields args) := by
  unfold argPatterns
  split
  · split
    · exact steady_fieldPatterns solving_adding _ _
    · refine (SteadyWith.lift (steady_expectFields _ _ _ _)).bind fun _ => ?_
      exact steady_fieldPatterns solving_adding _ _
  · split
    · exact .lift (steady_wildFields solving_adding _ _)
    · refine (SteadyWith.lift (steady_expectFields _ _ _ _)).bind fun _ => ?_
      exact .lift (steady_wildFields solving_adding _ _)
  · refine (SteadyWith.lift (steady_expectFields _ _ _ _)).bind fun _ => ?_
    exact steady_fieldPatterns solving_adding _ _

theorem together_agree (shared own : Captures) (span span' : Span) :
    Together base (agree shared own span) (agree shared own span') := by
  unfold agree
  split
  · refine .refused (fun _ _ _ ran => ?_) fun _ _ _ ran => ?_
    · cases ran
    · cases ran
  · refine .forM (fun capture => ?_) fun capture => ?_
    · dsimp only
      split
      · exact .unify _ _ _ _
      · exact .refl _
    · dsimp only
      split
      · exact steady_unify solving_adding _ _ _
      · exact .pure trivial

/-- Patterns of which one may take the place of the other, also where it stands for several
fields. -/
structure Interchangeable (base : Registry) (pattern pattern' : Pattern) : Prop where
  alone : TogetherWith base (Check.pattern pattern) (Check.pattern pattern')
  spread : ∀ (name : Name) (span : Span) {fields : List Ty}, 1 < fields.length →
    Pattern.StandsFor fields.length [pattern] → Pattern.StandsFor fields.length [pattern'] →
      TogetherWith base (argPatterns name span fields [pattern])
        (argPatterns name span fields [pattern'])

variable {patterns patterns' : List Pattern}

theorem together_elementPatterns (each : List.Forall₂ (Interchangeable base) patterns patterns') :
    TogetherWith base (elementPatterns patterns) (elementPatterns patterns') := by
  induction each with
  | nil => exact .refl _
  | cons first _ ih =>
    rw [elementPatterns, elementPatterns]
    refine first.alone.bind (steady_pattern solving_adding _) fun _ => ?_
    exact ih.bind (steady_elementPatterns solving_adding _) fun _ => .refl _

theorem together_fieldPatterns (each : List.Forall₂ (Interchangeable base) patterns patterns')
    (fields : List Ty) :
    TogetherWith base (fieldPatterns patterns fields) (fieldPatterns patterns' fields) := by
  induction each generalizing fields with
  | nil => exact .refl _
  | cons first _ ih =>
    cases fields with
    | nil => exact .refl _
    | cons field fields =>
      rw [fieldPatterns, fieldPatterns]
      refine first.alone.bind (steady_pattern solving_adding _) fun _ => ?_
      refine (TogetherWith.lift (.unify _ _ _ _) (steady_unify solving_adding _ _ _)).bind
        (.lift (steady_unify solving_adding _ _ _)) fun _ => ?_
      exact (ih fields).bind (steady_fieldPatterns solving_adding _ _) fun _ => .refl _

theorem together_alternativePatterns (each : List.Forall₂ (Interchangeable base) patterns patterns')
    (ty : Ty) (shared : Captures) :
    Together base (alternativePatterns ty shared patterns)
    (alternativePatterns ty shared patterns') := by
  induction each with
  | nil => exact .refl _
  | cons first _ ih =>
    rw [alternativePatterns, alternativePatterns]
    refine (first.alone []).bind ((steady_pattern solving_adding _).run []) fun {found} _ => ?_
    obtain ⟨⟨pat, ownTy⟩, own⟩ := found
    refine (Together.unify _ _ _ _).bind (steady_unify solving_adding _ _ _) fun _ => ?_
    refine (together_agree _ _ _ _).bind (steady_agree solving_adding _ _ _) fun _ => ?_
    exact ih.bind (steady_alternativePatterns solving_adding _ _ _) fun _ => .refl _

theorem together_argPatterns (each : List.Forall₂ (Interchangeable base) patterns patterns')
    {fields : List Ty} (stands : 1 < fields.length →
      (Pattern.StandsFor fields.length patterns ↔ Pattern.StandsFor fields.length patterns'))
    (name : Name) (span : Span) :
    TogetherWith base (argPatterns name span fields patterns)
    (argPatterns name span fields patterns') := by
  cases each with
  | nil => exact .refl _
  | @cons arg arg' _ _ same others =>
    cases others with
    | nil =>
      by_cases several : 1 < fields.length
      · by_cases single : Pattern.StandsFor fields.length [arg]
        · exact same.spread name span several single ((stands several).mp single)
        · have single' : ¬ Pattern.StandsFor fields.length [arg'] :=
            fun given => single ((stands several).mpr given)
          exact .refused (fun _ _ _ _ => argPatterns_refused several single name span)
              fun _ _ _ _ =>
            argPatterns_refused several single' name span
      · refine (argPatterns_alone several name span arg).trans
          (.trans ?_ (argPatterns_alone several name span arg').symm)
        exact .next (.lift (steady_expectFields _ _ _ _)) fun _ =>
          together_fieldPatterns (.cons same .nil) fields
    | cons second rest =>
      have all := together_fieldPatterns (.cons same (.cons second rest)) fields
      rw [argPatterns, argPatterns]
      · rw [List.length_cons, List.length_cons, rest.length_eq]
        exact .next (.lift (steady_expectFields _ _ _ _)) fun _ => all
      all_goals simp

theorem Interchangeable.of_alone {pattern pattern' : Pattern}
    (alone : TogetherWith base (Check.pattern pattern) (Check.pattern pattern'))
    (never : ∀ count, ¬ Pattern.StandsFor count [pattern]) :
      Interchangeable base pattern pattern' :=
  ⟨alone, fun _ _ _ _ single => absurd single (never _)⟩

theorem interchangeable_tuple (each : List.Forall₂ (Interchangeable base) patterns patterns')
    (span : Span) : Interchangeable base (.tuple span patterns) (.tuple span patterns') where
  alone := by
    have all := together_elementPatterns each
    cases each with
    | nil => exact .refl _
    | cons first others =>
      cases others with
      | nil =>
        rw [Check.pattern, Check.pattern]
        exact first.alone
      | cons second rest =>
        rw [Check.pattern, Check.pattern]
        · exact all.bind (steady_elementPatterns solving_adding _) fun _ => .refl _
        all_goals simp
  spread name span' {fields} several single single' := by
    rw [argPatterns, argPatterns, if_pos ⟨several, single⟩, if_pos ⟨several, single'⟩]
    exact together_fieldPatterns each fields

mutual

theorem interchangeable (agrees : base.Agrees) : ∀ (pattern' : Pattern) {pattern : Pattern},
    pattern.Grouped base.arities pattern' → Interchangeable base pattern pattern'
  | .wild _, _, grouped => by
    cases grouped
    exact ⟨.refl _, fun _ _ _ _ _ _ => .refl _⟩
  | .lit _ _, _, grouped => by
    cases grouped
    exact ⟨.refl _, fun _ _ _ _ _ _ => .refl _⟩
  | .bind _ _, _, grouped => by
    cases grouped
    exact ⟨.refl _, fun _ _ _ _ _ _ => .refl _⟩
  | .tuple span [inner'], _, grouped => by
    cases grouped with
    | tuple _ each => exact interchangeable_tuple (interchangeableAll agrees [inner'] each) span
    | parens _ inner =>
      refine ⟨?_, fun _ _ _ several _ single => absurd single (Nat.ne_of_lt several)⟩
      rw [Check.pattern]
      exact (interchangeable agrees inner' inner).alone
  | .tuple span [], _, grouped => by
    cases grouped with
    | tuple _ each => exact interchangeable_tuple (interchangeableAll agrees [] each) span
  | .tuple span (first' :: second' :: rest'), _, grouped => by
    cases grouped with
    | tuple _ each =>
      exact interchangeable_tuple (interchangeableAll agrees (first' :: second' :: rest') each) span
  | .ctor span name args', _, grouped => by
    cases grouped with
    | ctor _ _ each spread =>
      refine .of_alone ?_ fun _ => id
      rw [pattern_ctor, pattern_ctor]
      refine .next (.lift (steady_ctorPattern_fields agrees name span)) fun {found} arity => ?_
      obtain ⟨info, fields, result⟩ := found
      refine (together_argPatterns (interchangeableAll agrees args' each) (fun several => ?_)
        name span).bind (steady_argPatterns _ _ _ _) fun _ => .refl _
      exact ⟨spread _ arity several, each.standsFor several⟩
  | .ascribed _ inner' type, _, grouped => by
    cases grouped with
    | ascribed _ _ inner =>
      refine .of_alone ?_ fun _ => id
      rw [Check.pattern, Check.pattern]
      exact (interchangeable agrees inner' inner).alone.bind (steady_pattern solving_adding _)
        fun _ => .refl _
  | .oneOf span alternatives', _, grouped => by
    cases grouped with
    | oneOf _ each =>
      refine .of_alone ?_ fun _ => id
      have all := interchangeableAll agrees alternatives' each
      cases all with
      | nil => exact .refl _
      | cons first rest =>
        rw [Check.pattern, Check.pattern]
        refine (TogetherWith.lift (first.alone []) ((steady_pattern solving_adding _).run [])).bind
          (.lift ((steady_pattern solving_adding _).run [])) fun {found} _ => ?_
        obtain ⟨⟨pat, ty⟩, shared⟩ := found
        exact (TogetherWith.lift (together_alternativePatterns rest ty shared)
          (steady_alternativePatterns solving_adding _ _ _)).bind
            (.lift (steady_alternativePatterns solving_adding _ _ _)) fun _ => .refl _
termination_by structural pattern' => pattern'

theorem interchangeableAll (agrees : base.Agrees) : ∀ (patterns' : List Pattern)
    {patterns : List Pattern},
    Pattern.GroupedAll base.arities patterns patterns' →
      List.Forall₂ (Interchangeable base) patterns patterns'
  | [], _, each => by
    cases each
    exact .nil
  | first' :: rest', _, each => by
    cases each with
    | cons head tail =>
      exact .cons (interchangeable agrees first' head) (interchangeableAll agrees rest' tail)
termination_by structural patterns' => patterns'

end

end Patterns

section Expressions

/-- A group whose values are others. -/
def SameHead (binding binding' : Binding) : Prop :=
  binding.span = binding'.span ∧ binding.name = binding'.name ∧ binding.type = binding'.type

variable {bindings bindings' : List Binding}

theorem sameHead_of_grouped (each : Expr.GroupedBindings base.arities bindings bindings') :
    List.Forall₂ SameHead bindings bindings' := by
  induction bindings generalizing bindings' with
  | nil =>
    cases each
    exact .nil
  | cons binding bindings ih =>
    cases each with
    | cons span name type head tail => exact .cons ⟨rfl, rfl, rfl⟩ (ih tail)

theorem distinctBindings_congr (each : List.Forall₂ SameHead bindings bindings')
    (seen : List Name) : distinctBindings seen bindings = distinctBindings seen bindings' := by
  induction each generalizing seen with
  | nil => rfl
  | cons same _ ih => rw [distinctBindings, distinctBindings, same.1, same.2.1, ih]

theorem mapM_placeholder_congr (each : List.Forall₂ SameHead bindings bindings') :
    bindings.mapM placeholder = bindings'.mapM placeholder := by
  induction each with
  | nil => rfl
  | cons same _ ih => rw [List.mapM_cons, List.mapM_cons, placeholder, placeholder, same.1,
      same.2.2, ih]

theorem generalizeGroup_congr (each : List.Forall₂ SameHead bindings bindings') (fixed : List TyVar)
    (checked : List ((Ty × List TyVar) × Term)) :
    generalizeGroup fixed (bindings.zip checked) = generalizeGroup fixed
    (bindings'.zip checked) := by
  induction each generalizing checked with
  | nil => rfl
  | cons same _ ih =>
    cases checked with
    | nil => rfl
    | cons first checked =>
      obtain ⟨⟨ty, rigid⟩, value⟩ := first
      rw [List.zip_cons_cons, List.zip_cons_cons, generalizeGroup, generalizeGroup, same.1,
        same.2.1, ih]

theorem together_groupWith (each : List.Forall₂ SameHead bindings bindings') (recursive : Bool)
    {values values' : List Ty → Check (List Term)}
    (alike : ∀ types, Together base (values types) (values' types))
    (adds : ∀ types, Steady (fun _ registry => base.Adding registry) anything (values types)) :
    Together base (groupWith recursive bindings values)
    (groupWith recursive bindings' values') := by
  have names : bindings.map (·.name) = bindings'.map (·.name) := by
    rw [← List.forall₂_eq_eq_eq, List.forall₂_map_left_iff, List.forall₂_map_right_iff]
    exact each.imp fun _ _ same => same.2.1
  have spans : bindings.map (·.span) = bindings'.map (·.span) := by
    rw [← List.forall₂_eq_eq_eq, List.forall₂_map_left_iff, List.forall₂_map_right_iff]
    exact each.imp fun _ _ same => same.1
  have first : (bindings.head?.map (·.span)).getD default = (bindings'.head?.map
      (·.span)).getD default := by
    rw [← List.head?_map, ← List.head?_map, spans]
  have inferred : ∀ types outer span, Together base (do
      let terms ← values types
      ending .endless (fun session => session.env.walkableBelow outer session.subst) span
      let session ← get
      pure (terms, session.env.freeVarsBelow outer session.subst)) (do
      let terms ← values' types
      ending .endless (fun session => session.env.walkableBelow outer session.subst) span
      let session ← get
      pure (terms, session.env.freeVarsBelow outer session.subst)) := fun types outer span =>
    (alike types).bind (adds types) fun _ => .refl _
  have adds' : ∀ types outer span, Steady (fun _ registry => base.Adding registry) anything (do
      let terms ← values types
      ending .endless (fun session => session.env.walkableBelow outer session.subst) span
      let session ← get
      pure (terms, session.env.freeVarsBelow outer session.subst)) := fun types outer span =>
    (adds types).bind fun _ => (steady_ending _ _ _).bind fun _ => Steady.get.bind fun _ =>
      .pure trivial
  unfold groupWith
  rw [distinctBindings_congr each, mapM_placeholder_congr each, names, spans, first]
  refine .next (steady_distinctBindings [] bindings') fun _ => ?_
  refine .next (Steady.mapM fun binding _ => steady_placeholder solving_adding binding)
    fun {placeholders} _ => ?_
  refine .next .get fun {session} _ => ?_
  cases recursive with
  | true =>
    refine (Together.inScope (inferred _ _ _) _).bind (.inScope (adds' _ _ _) _) fun {found} _ => ?_
    obtain ⟨terms, fixed⟩ := found
    dsimp only
    rw [generalizeGroup_congr each]
    exact .refl _
  | false =>
    refine (inferred _ _ _).bind (adds' _ _ _) fun {found} _ => ?_
    obtain ⟨terms, fixed⟩ := found
    dsimp only
    rw [generalizeGroup_congr each]
    exact .refl _

theorem together_against (expected : Ty) (span span' : Span) (term : Term) :
    Together base (against expected span term) (against expected span' term) :=
  (Together.unify _ _ _ _).bind (steady_unify solving_adding _ _ _) fun _ => .refl _

theorem together_armWith (scrutineeTy result : Ty) (written : Pattern) (span span' : Span)
    {body body' : Check Term} (alike : Together base body body')
    (adds : Steady (fun _ registry => base.Adding registry) anything body) :
    Together base (armWith scrutineeTy result written span body)
      (armWith scrutineeTy result written span' body') := by
  refine .next ((steady_pattern solving_adding written).run []) fun _ => ?_
  refine .next (steady_unify solving_adding _ _ _) fun _ => ?_
  refine (Together.inScope (alike.bind adds fun _ => together_against _ _ _ _) _).bind
    (.inScope (adds.bind fun _ => steady_against solving_adding _ _ _) _) fun _ => .refl _

theorem reportCoverage_grouped {cases cases' : List Case}
    (each : Expr.GroupedCases base.arities cases cases') (arms : List Arm) (ty : Ty) (span : Span) :
    reportCoverage cases arms ty span = reportCoverage cases' arms ty span := by
  have locations : ∀ arms : List Arm,
    (arms.zip cases).map (fun entry => (entry.1.pat, entry.2.span)) =
      (arms.zip cases').map fun entry => (entry.1.pat, entry.2.span) := by
    intro arms
    induction arms generalizing cases cases' with
    | nil => rfl
    | cons arm arms ih =>
      cases each with
      | nil => rfl
      | cons span pattern head tail =>
        rw [List.zip_cons_cons, List.zip_cons_cons, List.map_cons, List.map_cons, ih tail]
  unfold reportCoverage
  rw [locations]

theorem steady_appliedCtor_arity (func : Expr) :
    Steady (fun _ registry => base.Adding registry)
      (fun found => func.headArity? base.arities = found.map (·.arity)) (appliedCtor? func) := by
  refine (steady_appliedCtor? func).describe fun {session found after} adding run => ?_
  cases func with
  | ident span name =>
    obtain ⟨rfl, rfl⟩ := Session.lookupCtor?_eq_ok run
    rw [adding.ctors]
    rfl
  | _ =>
    obtain ⟨rfl, rfl⟩ := pure_eq_ok.mp run
    rfl

theorem together_appliedCtor? {func func' : Expr} (grouped : func.Grouped base.arities func')
    (head : (func.headArity? base.arities).isSome → func' = func) :
    Together base (appliedCtor? func) (appliedCtor? func') := by
  cases grouped with
  | parens span inner =>
    cases func with
    | ident _ name =>
      intro session adding result after
      have absent : session.registry.ctors.get? name = none := by
        rw [adding.ctors]
        by_contra present
        exact nomatch head (Option.isSome_map.trans (Option.isSome_iff_ne_none.mpr present))
      change EStateM.Result.ok (session.registry.ctors.get? name) session = _ ↔
        EStateM.Result.ok none session = _
      rw [absent]
    | _ => exact .refl _
  | _ => exact .refl _

theorem standsFor_iff {arg : Expr} {count : Nat} (several : 1 < count) :
    arg.StandsFor count ↔ ¬ (isTuple arg = true ∧ givenFields arg ≠ count) := by
  have single := Nat.ne_of_lt several
  cases arg with
  | tuple span elements =>
    match elements with
    | [] => simp [isTuple, givenFields, Expr.StandsFor]
    | [_] => simp [isTuple, givenFields, Expr.StandsFor]
    | _ :: _ :: _ => simp [isTuple, givenFields, Expr.StandsFor]
  | _ => simp [isTuple, Expr.StandsFor]

/-- An argument that may be all the fields of a constructor gives way only to another such one. -/
theorem together_acceptsArgument {info : CtorInfo} {arg arg' : Expr}
    (stands : 1 < info.arity → (arg.StandsFor info.arity ↔ arg'.StandsFor info.arity))
    (span : Span) :
    Together base (acceptsArgument info arg span) (acceptsArgument info arg' span) := by
  have spread : 1 < info.arity ∧ isTuple arg = true ∧ givenFields arg ≠ info.arity ↔
      1 < info.arity ∧ isTuple arg' = true ∧ givenFields arg' ≠ info.arity :=
    and_congr_right fun several =>
      not_iff_not.mp
        ((standsFor_iff several).symm.trans ((stands several).trans (standsFor_iff several)))
  simp only [acceptsArgument, spread]
  split
  · refine .refused (fun _ _ _ ran => ?_) fun _ _ _ ran => ?_
    · cases ran
    · cases ran
  · exact .refl _

mutual

theorem together_infer : ∀ (expr' : Expr) {expr : Expr}, expr.Grouped base.arities expr' →
    Together base (infer expr) (infer expr')
  | .lit _ _, _, grouped => by
    cases grouped
    exact .refl _
  | .ident _ _, _, grouped => by
    cases grouped
    exact .refl _
  | .app span func' arg', _, grouped => by
    cases grouped with
    | @app _ func _ arg _ func_ arg_ head spread =>
      rw [infer, infer]
      refine (together_appliedCtor? func_ head).bind (steady_appliedCtor_arity func)
        fun {found} arity => ?_
      cases found with
      | some info =>
        refine (together_acceptsArgument
          (fun several => ⟨spread _ arity several, arg_.standsFor several⟩) span).bind
          (steady_acceptsArgument _ _ _) fun _ => ?_
        refine .next (steady_ctorInstance solving_adding info) fun {instanced} _ => ?_
        obtain ⟨fields, result⟩ := instanced
        refine (together_infer arg' arg_).bind (steady_infer solving_adding arg) fun _ => ?_
        exact (together_against _ _ _ _).bind (steady_against solving_adding _ _ _) fun _ => .refl _
      | none =>
        refine (together_infer func' func_).bind (steady_infer solving_adding func) fun _ => ?_
        refine .next (steady_openFlexible solving_adding _ _) fun _ => ?_
        exact (together_infer arg' arg_).bind (steady_infer solving_adding arg) fun _ => .refl _
  | .tuple span [inner'], _, grouped => by
    rw [infer]
    cases grouped with
    | parens _ inner => exact together_infer inner' inner
    | tuple _ each =>
      cases each with
      | cons inner none =>
        cases none
        rw [infer]
        exact together_infer inner' inner
  | .tuple span [], _, grouped => by
    cases grouped with
    | tuple _ each =>
      cases each
      exact .refl _
  | .tuple span (first' :: second' :: rest'), _, grouped => by
    cases grouped with
    | tuple _ each =>
      have all := together_inferAll (first' :: second' :: rest') each
      cases each with
      | cons _ tail =>
        cases tail
        rw [infer, infer]
        · exact all.bind (steady_inferAll solving_adding _) fun _ => .refl _
        all_goals exact nofun
  | .lambda span [⟨caseSpan, written, body'⟩], _, grouped => by
    cases grouped with
    | lambda _ each =>
      cases each with
      | @cons _ _ body _ _ _ inner none =>
        cases none
        rw [infer, infer]
        refine .next (steady_freshVar solving_adding.toGrowing) fun _ => ?_
        refine .next (steady_freshVar solving_adding.toGrowing) fun _ => ?_
        refine .next (steady_plainParam? written) fun {plain} _ => ?_
        have alike := together_infer body' inner
        have adds := steady_infer (@solving_adding base) body
        cases plain with
        | some param =>
          exact (Together.inScope (alike.bind adds fun _ => together_against _ _ _ _) _).bind
            (.inScope (adds.bind fun _ => steady_against solving_adding _ _ _) _) fun _ => .refl _
        | none =>
          refine .next (Steady.mint _) fun _ => ?_
          refine (together_armWith _ _ _ _ _ alike adds).bind
            (steady_armWith solving_adding _ _ _ _ adds) fun _ => ?_
          rw [reportCoverage_grouped (.cons caseSpan written inner .nil)]
          exact .refl _
  | .lambda span [], _, grouped => by
    cases grouped with
    | lambda _ each =>
      cases each
      exact .refl _
  | .lambda span (first' :: second' :: rest'), _, grouped => by
    cases grouped with
    | lambda _ each =>
      have all := fun paramTy result => together_inferCases paramTy result
        (first' :: second' :: rest') each
      have covered := reportCoverage_grouped each
      cases each with
      | cons _ _ _ tail =>
        cases tail
        rw [infer, infer]
        · refine .next (steady_freshVar solving_adding.toGrowing) fun _ => ?_
          refine .next (steady_freshVar solving_adding.toGrowing) fun _ => ?_
          refine .next (Steady.mint _) fun _ => ?_
          refine (all _ _).bind (steady_inferCases solving_adding _ _ _) fun _ => ?_
          rw [covered]
          exact .refl _
        all_goals exact nofun
  | .letIn span recursive bindings' body', _, grouped => by
    cases grouped with
    | letIn _ _ each inner =>
      rw [infer, infer]
      refine (together_groupWith (sameHead_of_grouped each) recursive
        (fun types => together_inferValues types bindings' each)
        fun types => steady_inferValues solving_adding types _).bind
          (steady_groupWith solving_adding _ _ fun types => steady_inferValues solving_adding types
            _) fun _ => ?_
      exact (Together.inScope (together_infer body' inner) _).bind
        (.inScope (steady_infer solving_adding _) _) fun _ => .refl _
  | .matchOn span scrutinee' cases', _, grouped => by
    cases grouped with
    | matchOn _ inner each =>
      rw [infer, infer]
      refine (together_infer scrutinee' inner).bind (steady_infer solving_adding _) fun _ => ?_
      refine .next (steady_freshVar solving_adding.toGrowing) fun _ => ?_
      refine (together_inferCases _ _ cases' each).bind (steady_inferCases solving_adding _ _ _)
        fun _ => ?_
      rw [reportCoverage_grouped each]
      exact .refl _
  | .ascribed span inner' type, _, grouped => by
    cases grouped with
    | ascribed _ _ inner =>
      have alike := together_infer inner' inner
      have adds := steady_infer (@solving_adding base)
      rw [infer, infer]
      refine .next (steady_writtenType solving_adding type) fun _ => ?_
      refine .next (steady_ending _ _ _) fun _ => .next .get fun _ => ?_
      split
      · refine .next (steady_openRigid solving_adding _ _ _) fun {opened} _ => ?_
        refine alike.bind (adds _) fun _ => ?_
        exact (together_against _ _ _ _).bind (steady_against solving_adding _ _ _) fun _ => .refl _
      · exact alike.bind (adds _) fun _ => together_against _ _ _ _
termination_by structural expr' => expr'

theorem together_inferAll : ∀ (exprs' : List Expr) {exprs : List Expr},
    Expr.GroupedAll base.arities exprs exprs' → Together base (inferAll exprs) (inferAll exprs')
  | [], _, each => by
    cases each
    exact .refl _
  | first' :: rest', _, each => by
    cases each with
    | cons head tail =>
      rw [inferAll, inferAll]
      refine (together_infer first' head).bind (steady_infer solving_adding _) fun _ => ?_
      exact (together_inferAll rest' tail).bind (steady_inferAll solving_adding _) fun _ => .refl _
termination_by structural exprs' => exprs'

theorem together_inferCases (scrutineeTy result : Ty) : ∀ (cases' : List Case) {cases : List Case},
    Expr.GroupedCases base.arities cases cases' →
      Together base (inferCases scrutineeTy result cases) (inferCases scrutineeTy result cases')
  | [], _, each => by
    cases each
    exact .refl _
  | ⟨_, written, body'⟩ :: rest', _, each => by
    cases each with
    | cons _ _ head tail =>
      rw [inferCases, inferCases]
      have adds := steady_infer (@solving_adding base)
      refine (together_armWith _ _ _ _ _ (together_infer body' head) (adds _)).bind
        (steady_armWith solving_adding _ _ _ _ (adds _)) fun _ => ?_
      exact (together_inferCases scrutineeTy result rest' tail).bind
        (steady_inferCases solving_adding _ _ _) fun _ => .refl _
termination_by structural cases' => cases'

theorem together_inferValues : ∀ (types : List Ty) (bindings' : List Binding)
    {bindings : List Binding}, Expr.GroupedBindings base.arities bindings bindings' →
      Together base (inferValues types bindings) (inferValues types bindings')
  | [], _, _, _ => by
    rw [inferValues, inferValues]
    · exact .refl _
    all_goals exact nofun
  | _ :: _, [], _, each => by
    cases each
    exact .refl _
  | ty :: types, ⟨_, _, _, value'⟩ :: rest', _, each => by
    cases each with
    | cons _ _ _ head tail =>
      rw [inferValues, inferValues]
      refine (together_infer value' head).bind (steady_infer solving_adding _) fun _ => ?_
      refine (together_against _ _ _ _).bind (steady_against solving_adding _ _ _) fun _ => ?_
      exact (together_inferValues types rest' tail).bind (steady_inferValues solving_adding _ _)
        fun _ => .refl _
termination_by structural _ bindings' => bindings'

end

end Expressions

end Check

namespace Session

variable {options : Options} {session during : Session}

/-- In any state of a unit, an expression or a pattern with more parentheses is accepted when it is
accepted without them. The term of the expression, the checked pattern with its type and captures,
and the session are the same. -/
theorem parentheses_unnoticed (reachable : session.Reachable options)
    (adding : session.registry.Adding during.registry) :
    (∀ {expr expr' : Expr}, expr.Grouped session.registry.arities expr' → ∀ term after,
      Check.infer expr during = .ok term after ↔ Check.infer expr' during = .ok term after) ∧
    ∀ {pattern pattern' : Pattern}, pattern.Grouped session.registry.arities pattern' →
      ∀ captures found after, Check.pattern pattern captures during = .ok found after ↔
        Check.pattern pattern' captures during = .ok found after := by
  refine ⟨fun grouped => ?_, fun grouped captures => ?_⟩
  · exact Check.together_infer _ grouped during adding
  · exact (Check.interchangeable reachable.agrees _ grouped).alone captures during adding

/-- A data type of pairs of truth values. -/
def pairDecl : Decl :=
  .data default
    [⟨default, "pair", [], [⟨default, "Pair", [.name default "bool", .name default "bool"]⟩]⟩]

/-- A data type of streams without elements. -/
def streamDecl : Decl :=
  .data default [⟨default, "stream", [], [⟨default, "Next", [.name default "stream"]⟩]⟩]

/-- The pair of two truth values. -/
def pairOf (first second : Expr) : Expr :=
  .app default (.ident default "Pair") (.tuple default [first, second])

/-- Parentheses around the components of a pair. -/
theorem pairOf_parentheses_unnoticed : ∃ checked session term after,
    Check.decl pairDecl (Session.start .standard) = .ok checked session ∧
      Check.infer (pairOf (.lit default (.bool true)) (.lit default (.bool false))) session =
        .ok term after ∧
      Check.infer (pairOf (.tuple default [.lit default (.bool true)])
        (.tuple default [.tuple default [.lit default (.bool false)]])) session =
          .ok term after := by
  have shown : gives (fun _ session => gives (fun _ _ => true)
      (Check.infer (pairOf (.lit default (.bool true)) (.lit default (.bool false))) session))
      (Check.decl pairDecl (Session.start .standard)) = true := by cbv
  obtain ⟨checked, session, accepted, shown⟩ := exists_of_gives shown
  obtain ⟨term, after, inferred, -⟩ := exists_of_gives shown
  have reachable : session.Reachable .standard := .decl .start pairDecl (.inl ⟨checked, accepted⟩)
  refine ⟨checked, session, term, after, accepted, inferred, ?_⟩
  refine ((parentheses_unnoticed reachable (Registry.adding_refl _)).1 ?_ term after).mp inferred
  refine .app default (.ident _ _) (.tuple default (.cons ?_ (.cons ?_ .nil))) (fun _ => rfl)
    fun _ _ _ => id
  · exact .parens default (.lit _ _)
  · exact .parens default (.parens default (.lit _ _))

/-- The function that makes a pair of what it is given. -/
def pairing (arg : Expr) : Expr :=
  .lambda default [⟨default, .bind default "p", .app default (.ident default "Pair") arg⟩]

/-- A stream that is its own continuation. -/
def forever (next : Expr) : Expr :=
  .letIn default true [⟨default, "x", none, .app default next (.ident default "x")⟩]
    (.ident default "x")

theorem exists_ok_of_gives {α : Type} {result : EStateM.Result TypeError Session α}
    (ended : gives (fun _ _ => true) result = true) : ∃ found after, result = .ok found after :=
  let ⟨found, after, same, _⟩ := exists_of_gives ended
  ⟨found, after, same⟩

theorem ne_ok_of_gives {α : Type} {result : EStateM.Result TypeError Session α}
    (failed : (!gives (fun _ _ => true) result) = true) (found : α) (after : Session) :
      result ≠ .ok found after := by
  rintro rfl
  exact absurd failed Bool.false_ne_true

/-- Parentheses are noticed around a variable that holds the fields of a pair, around a wildcard for
them, and around the constructor of a recursive value. -/
theorem parentheses_noticed :
    (∃ checked session, Check.decl pairDecl (Session.start .standard) = .ok checked session ∧
      (∃ term after, Check.infer (pairing (.ident default "p")) session = .ok term after) ∧
      (∀ term after, Check.infer (pairing (.tuple default [.ident default "p"])) session ≠
        .ok term after) ∧
      (∃ found after, Check.pattern (.ctor default "Pair" [.wild default]) [] session =
        .ok found after) ∧
      ∀ found after, Check.pattern (.ctor default "Pair" [.tuple default [.wild default]])
      [] session ≠ .ok found after) ∧
    ∃ checked session, Check.decl streamDecl (Session.start .standard) = .ok checked session ∧
      (∃ term after, Check.infer (forever (.ident default "Next")) session = .ok term after) ∧
      ∀ term after, Check.infer (forever (.tuple default [.ident default "Next"])) session ≠
        .ok term after := by
  constructor
  · have shown : gives (fun _ session =>
        gives (fun _ _ => true) (Check.infer (pairing (.ident default "p")) session) &&
        !gives (fun _ _ => true)
          (Check.infer (pairing (.tuple default [.ident default "p"])) session) &&
        gives (fun _ _ => true) (Check.pattern (.ctor default "Pair" [.wild default]) [] session) &&
        !gives (fun _ _ => true)
          (Check.pattern (.ctor default "Pair" [.tuple default [.wild default]]) [] session))
        (Check.decl pairDecl (Session.start .standard)) = true := by cbv
    obtain ⟨checked, session, accepted, shown⟩ := exists_of_gives shown
    simp only [Bool.and_eq_true] at shown
    obtain ⟨⟨⟨pair, pair'⟩, wild⟩, wild'⟩ := shown
    exact ⟨checked, session, accepted, exists_ok_of_gives pair, ne_ok_of_gives pair',
      exists_ok_of_gives wild, ne_ok_of_gives wild'⟩
  · have shown : gives (fun _ session =>
        gives (fun _ _ => true) (Check.infer (forever (.ident default "Next")) session) &&
        !gives (fun _ _ => true)
          (Check.infer (forever (.tuple default [.ident default "Next"])) session))
        (Check.decl streamDecl (Session.start .standard)) = true := by cbv
    obtain ⟨checked, session, accepted, shown⟩ := exists_of_gives shown
    simp only [Bool.and_eq_true] at shown
    exact ⟨checked, session, accepted, exists_ok_of_gives shown.1, ne_ok_of_gives shown.2⟩

end Session

end PolyCheck
