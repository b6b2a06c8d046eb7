import PolyCheck.Proofs.Session.Captures
import PolyCheck.Proofs.Session.Lowering
import PolyCheck.Proofs.Term.Scoped

/-! Lowered units. The term of an expression reads no name that the expression does not spell out,
and no pattern in it captures a name twice; so where its patterns still have the types of what they
are matched against, what it is lowered to has switches only and reads no minted name. In units
without annotations they always have. With annotations the type of a scrutinee may have been
accepted for another one than it turns out to be. -/
namespace PolyCheck

open Run

/-- A term that reads names from a list only, and whose patterns capture no name twice. -/
structure Term.Written (names : List Name) (term : Term) : Prop where
  linear : term.EachMatch fun _ pats => ∀ p ∈ pats, p.Linear
  reads : ∀ name, term.Reads name → name ∈ names

namespace Term.Written

variable {names names' : List Name} {term : Term}

theorem mono (written : term.Written names) (more : names ⊆ names') : term.Written names' :=
  ⟨written.linear, fun name reads => more (written.reads name reads)⟩

theorem withTy (written : term.Written names) (ty : Ty) : (term.withTy ty).Written names := by
  cases term <;> exact ⟨written.linear, written.reads⟩

theorem matchOn {scrutinee : Term} {arms : List Arm} {ty : Ty} (written : scrutinee.Written names)
    (linear : ∀ arm ∈ arms, arm.pat.Linear) (each : ∀ arm ∈ arms, arm.body.Written names) :
    (Term.matchOn scrutinee arms ty).Written names where
  linear := ⟨written.linear, List.forall_mem_map.mpr linear,
    eachMatchArms_iff.mpr fun arm member => (each arm member).linear⟩
  reads name reads := by
    rcases reads with reads | reads
    · exact written.reads name reads
    · obtain ⟨arm, member, -, reads⟩ := readsArms_iff.mp reads
      exact (each arm member).reads name reads

theorem tuple {terms : List Term} {ty : Ty} (each : ∀ term ∈ terms, term.Written names) :
    (Term.tuple terms ty).Written names where
  linear := eachMatchAll_iff.mpr fun term member => (each term member).linear
  reads name reads := by
    obtain ⟨term, member, reads⟩ := readsAny_iff.mp reads
    exact (each term member).reads name reads

theorem letIn {recursive : Bool} {definitions : List Definition} {body : Term} {ty : Ty}
    (each : ∀ definition ∈ definitions, definition.value.Written names)
    (written : body.Written names) :
    (Term.letIn recursive definitions body ty).Written names where
  linear := ⟨eachMatchDefinitions_iff.mpr fun definition member => (each definition member).linear,
    written.linear⟩
  reads name reads := by
    rcases reads with ⟨-, reads⟩ | ⟨-, reads⟩
    · obtain ⟨definition, member, reads⟩ := readsDefinitions_iff.mp reads
      exact (each definition member).reads name reads
    · exact written.reads name reads

theorem lambda {param : Name} {paramTy ty : Ty} {body : Term}
    (written : body.Written (param :: names)) :
    (Term.lambda param paramTy body ty).Written names where
  linear := written.linear
  reads name reads := (List.mem_cons.mp (written.reads name reads.2)).resolve_left reads.1

theorem matchingLambda {param : Name} {paramTy result : Ty} {arms : List Arm}
    (linear : ∀ arm ∈ arms, arm.pat.Linear) (each : ∀ arm ∈ arms, arm.body.Written names) :
    (Check.matchingLambda param paramTy arms result).Written names :=
  lambda (matchOn ⟨trivial, fun _ same => same ▸ List.mem_cons_self⟩ linear fun arm member =>
    (each arm member).mono (List.subset_cons_self param names))

end Term.Written

namespace Term

variable (subst : Subst) (name : Name)

theorem names_zonkDefinitions (definitions : List Definition) :
    (zonkDefinitions subst definitions).map (·.name) = definitions.map (·.name) := by
  rw [zonkDefinitions_eq_map, List.map_map]
  rfl

mutual

theorem reads_zonk : ∀ term : Term, (term.zonk subst).Reads name ↔ term.Reads name
  | .var _ _ | .lit _ _ | .failure _ => Iff.rfl
  | .tuple elems _ => readsAny_zonk elems
  | .ctor _ _ _ none _ => Iff.rfl
  | .ctor _ _ _ (some arg) _ => reads_zonk arg
  | .lambda _ _ body _ => and_congr_right fun _ => reads_zonk body
  | .app func arg _ => or_congr (reads_zonk func) (reads_zonk arg)
  | .letIn _ definitions body _ => by
    rw [zonk, Reads, Reads, names_zonkDefinitions, readsDefinitions_zonk definitions,
      reads_zonk body]
  | .matchOn scrutinee arms _ => or_congr (reads_zonk scrutinee) (readsArms_zonk arms)

theorem readsAny_zonk : ∀ terms : List Term, ReadsAny name (zonkAll subst terms) ↔
    ReadsAny name terms
  | [] => Iff.rfl
  | term :: terms => or_congr (reads_zonk term) (readsAny_zonk terms)

theorem readsDefinitions_zonk : ∀ definitions : List Definition,
    ReadsDefinitions name (zonkDefinitions subst definitions) ↔ ReadsDefinitions name definitions
  | [] => Iff.rfl
  | ⟨_, _, value⟩ :: rest => or_congr (reads_zonk value) (readsDefinitions_zonk rest)

theorem readsArms_zonk : ∀ arms : List Arm, ReadsArms name (zonkArms subst arms) ↔
    ReadsArms name arms
  | [] => Iff.rfl
  | ⟨_, body⟩ :: rest =>
    or_congr (and_congr_right fun _ => reads_zonk body) (readsArms_zonk rest)

end

variable {holds : List Pat → Prop}

mutual

theorem eachMatch_zonk : ∀ term : Term, (term.EachMatch fun _ => holds) →
    (term.zonk subst).EachMatch fun _ => holds
  | .var _ _, _ | .lit _ _, _ | .failure _, _ => trivial
  | .tuple elems _, each => eachMatchAll_zonk elems each
  | .ctor _ _ _ none _, _ => trivial
  | .ctor _ _ _ (some arg) _, each => eachMatch_zonk arg each
  | .lambda _ _ body _, each => eachMatch_zonk body each
  | .app func arg _, each => ⟨eachMatch_zonk func each.1, eachMatch_zonk arg each.2⟩
  | .letIn _ definitions body _, each =>
    ⟨eachMatchDefinitions_zonk definitions each.1, eachMatch_zonk body each.2⟩
  | .matchOn scrutinee arms _, ⟨here, pats, each⟩ => by
    refine ⟨eachMatch_zonk scrutinee here, ?_, eachMatchArms_zonk arms each⟩
    rwa [zonkArms_eq_map, List.map_map]

theorem eachMatchAll_zonk : ∀ terms : List Term, EachMatchAll (fun _ => holds) terms →
    EachMatchAll (fun _ => holds) (zonkAll subst terms)
  | [], _ => trivial
  | term :: terms, each => ⟨eachMatch_zonk term each.1, eachMatchAll_zonk terms each.2⟩

theorem eachMatchDefinitions_zonk : ∀ definitions : List Definition,
    EachMatchDefinitions (fun _ => holds) definitions →
      EachMatchDefinitions (fun _ => holds) (zonkDefinitions subst definitions)
  | [], _ => trivial
  | ⟨_, _, value⟩ :: rest, each =>
    ⟨eachMatch_zonk value each.1, eachMatchDefinitions_zonk rest each.2⟩

theorem eachMatchArms_zonk : ∀ arms : List Arm, EachMatchArms (fun _ => holds) arms →
    EachMatchArms (fun _ => holds) (zonkArms subst arms)
  | [], _ => trivial
  | ⟨_, body⟩ :: rest, each => ⟨eachMatch_zonk body each.1, eachMatchArms_zonk rest each.2⟩

end

theorem Written.zonk {names : List Name} {term : Term} (written : term.Written names) :
    (term.zonk subst).Written names where
  linear := eachMatch_zonk subst term written.linear
  reads name reads := written.reads name ((reads_zonk subst name term).mp reads)

end Term

namespace Check

def Gives {α : Type} (post : α → Prop) (check : Check α) : Prop :=
  ∀ session value after, check session = .ok value after → post value

namespace Gives

variable {α β : Type} {post : α → Prop} {post' : β → Prop} {check : Check α} {cont : α → Check β}

theorem bind (first : Gives post check) (then_ : ∀ value, post value → Gives post' (cont value)) :
    Gives post' (check >>= cont) := by
  intro session value after run
  obtain ⟨found, middle, here, rest⟩ := bind_eq_ok.mp run
  exact then_ found (first _ _ _ here) _ _ _ rest

theorem next (then_ : ∀ value, Gives post' (cont value)) : Gives post' (check >>= cont) :=
  bind (fun _ _ _ _ => trivial : Gives anything check) fun value _ => then_ value

theorem pure {value : α} (holds : post value) : Gives post (Pure.pure value : Check α) := by
  intro session found after run
  obtain ⟨rfl, rfl⟩ := pure_eq_ok.mp run
  exact holds

theorem fail (cause : ErrorCause) (span : Span) : Gives post (Check.fail cause span) :=
  fun _ _ _ run => by cases run

theorem inScope (gives : Gives post check) (bindings : List (Name × Scheme)) :
    Gives post (Check.inScope bindings check) := by
  intro session value after run
  obtain ⟨last, inside, -⟩ := Session.inScope_eq_ok.mp run
  exact gives _ _ _ inside

end Gives

variable {names : List Name}

theorem gives_against {post : Term → Prop} {term : Term} (holds : post term) (expected : Ty)
    (span : Span) : Gives post (against expected span term) :=
  .next fun _ => .pure holds

theorem gives_ctorValue (info : CtorInfo) : Gives (·.Written names) (ctorValue info) := by
  refine .next fun found => ?_
  dsimp only
  split
  · exact .pure ⟨trivial, nofun⟩
  · exact .next fun param => .pure (.lambda ⟨trivial, fun _ same => same ▸ List.mem_cons_self⟩)

theorem gives_identifier (name : Name) (span : Span) :
    Gives (·.Written [name]) (identifier name span) := by
  refine .next fun known => ?_
  cases known with
  | some info => exact gives_ctorValue info
  | none =>
    refine .next fun session => ?_
    split
    · exact .fail _ _
    · exact .next fun _ => .next fun _ => .next fun _ =>
        .pure ⟨trivial, fun _ same => same ▸ List.mem_cons_self⟩

theorem gives_armWith {scrutineeTy result : Ty} {written : Surface.Pattern} {span : Span}
    {body : Check Term} (gives : Gives (·.Written names) body) :
    Gives (fun arm => arm.pat.Linear ∧ arm.body.Written names)
      (armWith scrutineeTy result written span body) := by
  have records : Gives (fun (found : (Pat × Ty) × Captures) => found.1.1.Linear)
      ((pattern written).run []) := by
    rintro session ⟨⟨pat, ty⟩, captures⟩ after run
    obtain ⟨records, uniform⟩ := records_pattern written run
    exact ⟨uniform, records.of_nil.2⟩
  refine records.bind fun found linear => .next fun _ => ?_
  refine (Gives.inScope (gives.bind fun term written => gives_against written _ _) _).bind fun term
    written => ?_
  exact .pure ⟨linear, written⟩

theorem gives_groupWith (recursive : Bool) (bindings : List Surface.Binding)
    {values : List Ty → Check (List Term)}
    (gives : ∀ types, Gives (fun terms => ∀ term ∈ terms, term.Written names) (values types)) :
    Gives (fun definitions => ∀ definition ∈ definitions, definition.value.Written names)
      (groupWith recursive bindings values) := by
  intro session definitions after run
  obtain ⟨placeholders, middle, terms, inside, fixed, steps⟩ := Session.groupWith_eq_ok run
  have written := gives _ _ _ _ steps.checked
  rw [steps.defined]
  exact List.forall_mem_map.mpr fun entry member =>
    written _ (List.of_mem_zip (List.of_mem_zip member).2).2

mutual

theorem gives_infer : ∀ written : Surface.Expr, Gives (·.Written written.names) (infer written)
  | .lit span value => by
    unfold infer
    exact .next fun _ => .pure ⟨trivial, nofun⟩
  | .ident span name => by
    unfold infer
    exact gives_identifier name span
  | .app span func arg => by
    unfold infer
    refine .next fun applied => ?_
    cases applied with
    | some info =>
      refine .next fun _ => .next fun _ => (gives_infer arg).bind fun term written => ?_
      refine (gives_against written _ _).bind fun term written => .pure ?_
      exact ⟨written.linear, fun name reads => List.mem_append_right _ (written.reads name reads)⟩
    | none =>
      refine (gives_infer func).bind fun func' written => .next fun _ => ?_
      refine (gives_infer arg).bind fun arg' written' => .next fun _ => .next fun _ => .pure ?_
      exact ⟨⟨written.linear, written'.linear⟩, fun name reads => List.mem_append.mpr
        (reads.imp (written.reads name) (written'.reads name))⟩
  | .tuple _ [inner] => by
    unfold infer
    exact fun session term after run => (gives_infer inner session term after run).mono
      (List.subset_append_left _ _)
  | .tuple _ [] => by
    unfold infer
    exact (gives_inferAll []).bind fun _ each => .pure (.tuple each)
  | .tuple _ (first :: second :: rest) => by
    unfold infer
    exact (gives_inferAll (first :: second :: rest)).bind fun _ each => .pure (.tuple each)
  | .lambda span [⟨caseSpan, written, body⟩] => by
    have inBody : body.names ⊆ (Surface.Expr.lambda span [⟨caseSpan, written, body⟩]).names :=
        fun name member =>
      List.mem_append_left _ (List.mem_append_right _ member)
    unfold infer
    refine .next fun _ => .next fun _ => .next fun plain => ?_
    cases plain with
    | some param =>
      refine (Gives.inScope ((gives_infer body).bind fun term written =>
        gives_against written _ _) _).bind fun term written => .pure ?_
      exact .lambda (written.mono fun name member => List.mem_cons_of_mem _ (inBody member))
    | none =>
      refine .next fun _ => (gives_armWith (gives_infer body)).bind fun arm given =>
        .next fun _ => .pure ?_
      exact .matchingLambda (List.forall_mem_singleton.mpr given.1)
        (List.forall_mem_singleton.mpr (given.2.mono inBody))
  | .lambda span [] => by
    unfold infer
    refine .next fun _ => .next fun _ => .next fun _ => ?_
    refine (gives_inferCases _ _ []).bind fun arms each => .next fun _ => .pure ?_
    exact .matchingLambda (fun arm member => (each arm member).1) fun arm member =>
      (each arm member).2
  | .lambda span (⟨caseSpan, written, body⟩ :: second :: rest) => by
    unfold infer
    refine .next fun _ => .next fun _ => .next fun _ => ?_
    refine (gives_inferCases _ _ (⟨caseSpan, written, body⟩ :: second :: rest)).bind
        fun arms each =>
      .next fun _ => .pure ?_
    exact .matchingLambda (fun arm member => (each arm member).1) fun arm member =>
      (each arm member).2
  | .letIn _ recursive bindings body => by
    unfold infer
    refine (gives_groupWith recursive bindings fun types => gives_inferValues types bindings).bind
      fun definitions each => ?_
    refine (Gives.inScope (gives_infer body) _).bind fun term written => .pure ?_
    exact .letIn (fun definition member => (each definition member).mono
      (List.subset_append_left _ _)) (written.mono (List.subset_append_right _ _))
  | .matchOn span scrutinee cases => by
    unfold infer
    refine (gives_infer scrutinee).bind fun term written => .next fun _ => ?_
    refine (gives_inferCases _ _ cases).bind fun arms each => .next fun _ => .pure ?_
    exact .matchOn (written.mono (List.subset_append_left _ _))
      (fun arm member => (each arm member).1)
      fun arm member => (each arm member).2.mono (List.subset_append_right _ _)
  | .ascribed span inner written => by
    unfold infer
    refine .next fun _ => .next fun _ => .next fun _ => ?_
    split
    · refine .next fun _ => (gives_infer inner).bind fun term written => ?_
      refine (gives_against written _ _).bind fun term written => .next fun _ => .next fun _ => ?_
      exact .next fun _ => .next fun _ => .pure (written.withTy _)
    · exact (gives_infer inner).bind fun term written => gives_against written _ _
termination_by structural written => written

theorem gives_inferAll : ∀ written : List Surface.Expr,
    Gives (fun terms => ∀ term ∈ terms, term.Written (Surface.Expr.namesAll written))
      (inferAll written)
  | [] => by
    unfold inferAll
    exact .pure (List.forall_mem_nil _)
  | first :: rest => by
    unfold inferAll
    refine (gives_infer first).bind fun term written => (gives_inferAll rest).bind fun terms each =>
      .pure ?_
    exact List.forall_mem_cons.mpr ⟨written.mono (List.subset_append_left _ _),
      fun term member => (each term member).mono (List.subset_append_right _ _)⟩
termination_by structural written => written

theorem gives_inferCases (scrutineeTy result : Ty) : ∀ written : List Surface.Case,
    Gives (fun arms => ∀ arm ∈ arms, arm.pat.Linear ∧
      arm.body.Written (Surface.Expr.namesCases written)) (inferCases scrutineeTy result written)
  | [] => by
    unfold inferCases
    exact .pure (List.forall_mem_nil _)
  | ⟨span, written, body⟩ :: rest => by
    unfold inferCases
    refine (gives_armWith (gives_infer body)).bind fun arm given => ?_
    refine (gives_inferCases scrutineeTy result rest).bind fun arms each => .pure ?_
    refine List.forall_mem_cons.mpr ⟨⟨given.1, given.2.mono fun name member => ?_⟩,
        fun arm member =>
      ⟨(each arm member).1, (each arm member).2.mono (List.subset_append_right _ _)⟩⟩
    exact List.mem_append_left _ (List.mem_append_right _ member)
termination_by structural written => written

theorem gives_inferValues : ∀ (types : List Ty) (bindings : List Surface.Binding),
    Gives (fun terms => ∀ term ∈ terms, term.Written (Surface.Expr.namesBindings bindings))
      (inferValues types bindings)
  | [], _ => by
    unfold inferValues
    exact .pure (List.forall_mem_nil _)
  | _ :: _, [] => by
    unfold inferValues
    exact .pure (List.forall_mem_nil _)
  | ty :: types, ⟨_, name, _, value⟩ :: rest => by
    unfold inferValues
    refine (gives_infer value).bind fun term written => (gives_against written _ _).bind fun term
      written => ?_
    refine (gives_inferValues types rest).bind fun terms each => .pure ?_
    refine List.forall_mem_cons.mpr ⟨written.mono fun other member => ?_, fun term member =>
      (each term member).mono (List.subset_append_right _ _)⟩
    exact List.mem_append_left _ (List.mem_cons_of_mem name member)
termination_by structural _ bindings => bindings

end

end Check

namespace Term

variable {subst : Subst} {registry : Registry} {context : Context} {term : Term}

variable {holds holds' : Ty → List Pat → Prop}

mutual

theorem eachMatch_and : ∀ term : Term, term.EachMatch holds → term.EachMatch holds' →
    term.EachMatch fun ty pats => holds ty pats ∧ holds' ty pats
  | .var _ _, _, _ | .lit _ _, _, _ | .failure _, _, _ => trivial
  | .tuple elems _, each, each' => eachMatchAll_and elems each each'
  | .ctor _ _ _ none _, _, _ => trivial
  | .ctor _ _ _ (some arg) _, each, each' => eachMatch_and arg each each'
  | .lambda _ _ body _, each, each' => eachMatch_and body each each'
  | .app func arg _, each, each' =>
    ⟨eachMatch_and func each.1 each'.1, eachMatch_and arg each.2 each'.2⟩
  | .letIn _ definitions body _, each, each' =>
    ⟨eachMatchDefinitions_and definitions each.1 each'.1, eachMatch_and body each.2 each'.2⟩
  | .matchOn scrutinee arms _, each, each' =>
    ⟨eachMatch_and scrutinee each.1 each'.1, ⟨each.2.1, each'.2.1⟩,
    eachMatchArms_and arms each.2.2 each'.2.2⟩

theorem eachMatchAll_and : ∀ terms : List Term, EachMatchAll holds terms →
    EachMatchAll holds' terms → EachMatchAll (fun ty pats => holds ty pats ∧ holds' ty pats) terms
  | [], _, _ => trivial
  | term :: terms, each, each' =>
    ⟨eachMatch_and term each.1 each'.1, eachMatchAll_and terms each.2 each'.2⟩

theorem eachMatchDefinitions_and : ∀ definitions : List Definition,
    EachMatchDefinitions holds definitions → EachMatchDefinitions holds' definitions →
      EachMatchDefinitions (fun ty pats => holds ty pats ∧ holds' ty pats) definitions
  | [], _, _ => trivial
  | ⟨_, _, value⟩ :: rest, each, each' =>
    ⟨eachMatch_and value each.1 each'.1, eachMatchDefinitions_and rest each.2 each'.2⟩

theorem eachMatchArms_and : ∀ arms : List Arm, EachMatchArms holds arms →
    EachMatchArms holds' arms → EachMatchArms (fun ty pats => holds ty pats ∧ holds' ty pats) arms
  | [], _, _ => trivial
  | ⟨_, body⟩ :: rest, each, each' =>
    ⟨eachMatch_and body each.1 each'.1, eachMatchArms_and rest each.2 each'.2⟩

end

theorem Written.suited {names : List Name} (written : term.Written names)
    (fit : term.PatternsFit subst registry) : term.Suited subst registry :=
  eachMatch_and term fit written.linear

theorem Typed.patternsFit (typed : Typed subst registry context term) (tame : subst.Tame) :
    term.PatternsFit subst registry := by
  induction typed with
  | var _ _ _ _ _ => trivial
  | bool _ _ => trivial
  | int _ _ => trivial
  | str _ _ => trivial
  | tuple _ ih => exact eachMatchAll_iff.mpr ih
  | constant _ _ _ => trivial
  | ctor _ _ _ _ _ ih => exact ih
  | lambda _ _ _ ih => exact ih
  | app _ _ _ ih ih' => exact ⟨ih, ih'⟩
  | letIn _ _ _ _ _ ih ih' => exact ⟨eachMatchDefinitions_iff.mpr ih, ih'⟩
  | matchOn captures typed pats _ _ _ _ _ ih ih' =>
    refine ⟨ih, fun p member => ?_, eachMatchArms_iff.mpr ih'⟩
    obtain ⟨arm, inArms, rfl⟩ := List.mem_map.mp member
    rw [Resolved.zonk_eq typed.resolved tame]
    exact (pats arm inArms).hasType subst

end Term

namespace Session

open Term

variable {session after later : Session} {written : Surface.Decl} {checked : CheckedDecl}
  {term : Term}

theorem written_of_accepted (accepted : Check.decl written session = .ok checked after)
    (member : term ∈ checked.terms) : term.Written written.names := by
  obtain ⟨found, reached, run, rfl, -⟩ := decl_eq_ok accepted
  cases written with
  | data span types =>
    obtain ⟨ids, middle, -, finish⟩ := bind_eq_ok.mp run
    obtain ⟨rfl, -⟩ := pure_eq_ok.mp finish
    cases member
  | «synonym» span name params body =>
    obtain ⟨⟨⟩, middle, -, finish⟩ := bind_eq_ok.mp run
    obtain ⟨rfl, -⟩ := pure_eq_ok.mp finish
    cases member
  | define span recursive bindings =>
    obtain ⟨definitions, middle, here, finish⟩ := bind_eq_ok.mp run
    obtain ⟨rfl, -⟩ := pure_eq_ok.mp finish
    have each :=
      Check.gives_groupWith recursive bindings (fun types => Check.gives_inferValues types bindings)
      _ _ _ here
    rw [CheckedDecl.zonk, CheckedDecl.terms, zonkDefinitions_eq_map, List.map_map] at member
    obtain ⟨definition, inside, rfl⟩ := List.mem_map.mp member
    exact (each definition inside).zonk reached.subst
  | eval span expr =>
    obtain ⟨found, middle, here, finish⟩ := bind_eq_ok.mp run
    obtain ⟨rfl, -⟩ := pure_eq_ok.mp finish
    obtain rfl := List.mem_singleton.mp member
    exact (Check.gives_infer expr _ _ _ here).zonk reached.subst

/-- In every session what a term of an accepted unit is lowered to has only shallow matches, and
where the patterns of the term have the types of what they are matched against, every switch has
different heads and no case after one without a test, nothing is read that the term does not read,
and no minted name if the unit spells none out. In sessions of units without annotations the
patterns have these types. -/
theorem lowered_shallow_scoped {session after : Session} {written : Surface.Decl}
    {checked : CheckedDecl} {term : Term}
    (accepted : Check.decl written session = .ok checked after) (member : term ∈ checked.terms)
    (later : Session) :
    (later.lower term).1.IsShallow ∧
      (term.PatternsFit later.subst later.registry →
        (later.lower term).1.IsSwitching ∧
        (∀ name, (later.lower term).1.Reads name → term.Reads name) ∧
        ((∀ name ∈ written.names, name.isMinted = false) →
          ∀ name, (later.lower term).1.Reads name → name.isMinted = false)) ∧
      ∀ {options : Options}, Units (Session.start options) session → written.Bare →
        after.registry.Plain → Units after later → term.PatternsFit later.subst later.registry := by
  have flat : Flat later.subst later.registry term (later.lower term).1 :=
    flat_lower term later.names
  refine ⟨flat.shallow, fun fit => ?_, fun units bare plain further => ?_⟩
  · have spelled := written_of_accepted accepted member
    have suited := spelled.suited fit
    exact ⟨flat.switches suited, flat.reads suited, fun names name reads =>
      names name (spelled.reads name (flat.reads suited name reads))⟩
  · obtain ⟨atTop, -⟩ := units.atTop (atTop_start _)
    have follows := atTop.follows bare accepted plain
    obtain ⟨atTop', stays⟩ := further.atTop follows.atTop
    exact ((CheckedDecl.Typed.terms follows.typed member).later stays.size_le stays.unsolved
      stays.registry).patternsFit atTop'.sound.tame

theorem lowered_pairMatch : ∃ term after,
    Check.decl (.eval default pairMatch) (Session.start .standard) = .ok (.eval term) after ∧
      (after.lower term).1.IsShallow ∧ (after.lower term).1.IsSwitching ∧
      (∀ name, (after.lower term).1.Reads name → term.Reads name) ∧
      ∀ name, (after.lower term).1.Reads name → name.isMinted = false := by
  obtain ⟨checked, after, accepted⟩ := pairMatch_accepted
  have atTop := atTop_start .standard
  have evaluated : (∃ term, checked = .eval term) ∧ after.registry.Plain := by
    obtain ⟨found, reached, run, rfl, rfl⟩ := decl_eq_ok accepted
    obtain ⟨term, middle, here, finish⟩ := bind_eq_ok.mp run
    obtain ⟨rfl, rfl⟩ := pure_eq_ok.mp finish
    exact ⟨⟨_, rfl⟩, (atTop.reaches_eval pairMatch_bare here).advance.sound.registry.plain⟩
  obtain ⟨⟨term, rfl⟩, plain⟩ := evaluated
  have member : term ∈ (CheckedDecl.eval term).terms := List.mem_singleton_self term
  have names : ∀ name ∈ Surface.Decl.names (.eval default pairMatch),
    name.isMinted = false := by decide
  obtain ⟨shallow, whole, fits⟩ := lowered_shallow_scoped accepted member after
  obtain ⟨switching, reads, spelled⟩ := whole (fits .refl pairMatch_bare plain .refl)
  exact ⟨term, after, accepted, shallow, switching, reads, spelled names⟩

/-- A box, a type applied to a box, and an alias that turns its arguments around. -/
def boxed : Surface.Decl :=
  .data default [⟨default, "box", [], [⟨default, "Box", [.name default "bool"]⟩]⟩]

def applied : Surface.Decl :=
  .data default
    [⟨default, "ap", ["f"],
      [⟨default, "Ap", [.app default (.var default "f") [.name default "box"]]⟩]⟩]

def turned : Surface.Decl :=
  .synonym default "flip" ["a", "b"] (.tuple default [.var default "b", .var default "a"])

/-- A match that takes the box out of what is turned around, as if it were the second component. -/
def unboxing : Surface.Decl :=
  .eval default (.lambda default [⟨default, .bind default "x",
    .matchOn default (.ascribed default (.ident default "x")
        (.app default (.name default "ap")
          [.app default (.name default "flip") [.var default "c"]]))
      [⟨default, .ctor default "Ap"
          [.tuple default [.wild default, .ctor default "Box" [.bind default "y"]]],
        .ident default "y"⟩]⟩])

/-- What a function by a match of one case on a variable is lowered to, if a depth is enough for the
tree. -/
def lowerWithin (session : Session) (depth : Nat) : Term → Option Term
  | .lambda param paramTy (.matchOn (.var name nameTy) [⟨pat, .var body bodyTy⟩] ty) lambdaTy =>
    let scrutineeTy := session.subst.zonk nameTy
    let minted := session.names.mint "m"
    let problem : Decision.Problem := ⟨[.var minted.1 scrutineeTy], [⟨[pat], [], 0⟩]⟩
    let tree := Decision.buildWithin session.subst session.registry [.var body bodyTy] ty depth
      problem minted.2
    let bound : Definition := ⟨minted.1, .mono scrutineeTy, .var name nameTy⟩
    if problem.weight <
      depth then some (.lambda param paramTy (.letIn false [bound] tree.1 ty) lambdaTy) else none
  | _ => none

theorem lower_of_lowerWithin {session : Session} {depth : Nat} {term lowered : Term}
    (found : session.lowerWithin depth term = some lowered) : (session.lower term).1 = lowered := by
  unfold lowerWithin at found
  split at found
  · dsimp only at found
    split at found
    · next deep =>
      rw [Decision.buildWithin_eq deep] at found
      exact Option.some.inj found
    · cases found
  · cases found

/-- The unit is accepted, and what its term is lowered to reads a name that nothing binds. -/
theorem unboxing_reads_capture : ¬ ∀ {options : Options} {session after : Session}
    {written : Surface.Decl} {checked : CheckedDecl} {term : Term}, session.Reachable options →
    Check.decl written session = .ok checked after → term ∈ checked.terms →
    (∀ name ∈ written.names, name.isMinted = false) →
    ∀ name, (after.lower term).1.Reads name → term.Reads name := by
  intro within
  have shown :
      gives (fun _ first => gives (fun _ second => gives (fun _ third => gives (fun checked after =>
      checked.terms.any fun term =>
        ((after.lowerWithin 100 term).any fun lowered => lowered.mentions ["y"] []) &&
        !term.mentions ["y"] [])
      (Check.decl unboxing third)) (Check.decl turned second)) (Check.decl applied first))
      (Check.decl boxed (Session.start .standard)) = true := by cbv
  obtain ⟨data, first, declared, shown⟩ := exists_of_gives shown
  obtain ⟨data', second, declared', shown⟩ := exists_of_gives shown
  obtain ⟨entered, third, declared'', shown⟩ := exists_of_gives shown
  obtain ⟨checked, after, accepted, shown⟩ := exists_of_gives shown
  obtain ⟨term, member, shown⟩ := List.any_eq_true.mp shown
  simp only [Bool.and_eq_true, Bool.not_eq_true', Option.any_eq_true, Term.mentions_iff] at shown
  obtain ⟨⟨lowered, found, name, inNames, -, reads⟩, absent⟩ := shown
  rw [← lower_of_lowerWithin found] at reads
  have reachable : Reachable .standard third :=
    .decl (.decl (.decl .start boxed (.inl ⟨_, declared⟩)) applied
    (.inl ⟨_, declared'⟩)) turned (.inl ⟨_, declared''⟩)
  have names : ∀ name ∈ Surface.Decl.names unboxing, name.isMinted = false := by decide
  exact Term.not_reads_of_not_mentions absent
    (within reachable accepted member names name reads) inNames

end Session

end PolyCheck
