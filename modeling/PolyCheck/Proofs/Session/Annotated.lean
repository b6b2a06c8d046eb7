import PolyCheck.Proofs.Session.Ascription
import PolyCheck.Proofs.Session.Dangling
import PolyCheck.Proofs.Session.Instances
import PolyCheck.Proofs.Session.Lasting
import PolyCheck.Proofs.Session.Matching
import PolyCheck.Proofs.Session.Rollback
import PolyCheck.Proofs.Subst.Grounded

/-! Annotations of bindings and ascriptions of their values. The binding `let f : t = e` checks its
value against the annotation, opened with rigid variables, and generalizes the annotation;
`let f = (e : t)` does the same within the ascription, instantiates the quantifier once more and
generalizes the instance. The two runs are compared step by step: the second one has a variable of
its own for the type of the binding, and otherwise the same variables under other numbers.

The binding takes the type as it is read, while the ascription looks through solved variables and
applied functions on types first. That is the first difference, and it shows when such a function
gives the quantifier. The second one is the type of the value where the annotation is no quantifier:
the binding generalizes the annotation, the ascription what was inferred. -/
namespace PolyCheck.Session

open Run Subst

variable {span span' span'' : Span} {name : Name} {value : Surface.Expr}
  {written : Surface.TypeExpr}
  {before middle after : Session} {expected opened : Ty} {rigid : List TyVar} {term : Term}

theorem env_of_expectExpr (run : Check.expectExpr value expected before = .ok term after) :
    after.env = before.env := by
  have any : Solving fun _ _ => True :=
    ⟨⟨fun _ _ => trivial, fun _ _ => trivial⟩, fun _ _ _ _ => trivial⟩
  have steady : Check.Steady (fun _ _ => True) anything (Check.expectExpr value expected) :=
    (Check.steady_infer any value).bind fun _ => Check.steady_against any _ _ _
  have kept :=
    steady before.env before.options before.names before ⟨rfl, rfl, Nat.le_refl _, trivial⟩
  rw [run] at kept
  exact kept.1.env

theorem group_single (binding : Surface.Binding) : Check.group false [binding] = (do
    let (opened, rigid) ← Check.placeholder binding
    let outer := (← get).env.depth
    let term ← Check.expectExpr binding.value opened
    Check.ending .endless (fun session => session.env.walkableBelow outer session.subst)
      binding.span
    let fixed := (fun session : Session => session.env.freeVarsBelow outer session.subst) (← get)
    Check.noEscape rigid fixed binding.span
    Check.ending .endless (Scheme.generalizes ·.subst opened) binding.span
    pure [⟨binding.name, .generalize (← get).subst fixed opened, term⟩]) := by
  obtain ⟨span, name, type, value⟩ := binding
  have new : ([] : List Name).contains name = false := rfl
  simp only [Check.group, Check.groupWith, Check.distinctBindings, new, Bool.false_eq_true,
    if_false, List.mapM_cons, List.mapM_nil, List.map_cons, List.map_nil, Check.inferValues,
    List.zip_cons_cons, List.zip_nil_left, Check.generalizeGroup, bind_assoc, pure_bind,
    Check.expectExpr]
  rfl

theorem group_single_eq_ok {binding : Surface.Binding} {definitions : List Definition} :
    Check.group false [binding] before = .ok definitions after ↔
      ∃ opened rigid middle term, Check.placeholder binding before = .ok (opened, rigid) middle ∧
        Check.expectExpr binding.value opened middle = .ok term after ∧ Spared rigid after ∧
        Scheme.generalizes after.subst opened = true ∧
        definitions =
        [⟨binding.name, .generalize after.subst (after.env.freeVars after.subst) opened,
          term⟩] := by
  rw [group_single]
  constructor
  · intro run
    obtain ⟨⟨opened, rigid⟩, middle, placed, rest⟩ := bind_eq_ok.mp run
    obtain ⟨_, _, same, rest⟩ := bind_eq_ok.mp rest
    obtain ⟨rfl, rfl⟩ := EStateM.Result.ok.inj same
    obtain ⟨term, last, inferred, rest⟩ := bind_eq_ok.mp rest
    obtain ⟨walkable, rest⟩ := Check.ending_bind_eq_ok.mp rest
    obtain ⟨_, _, same, rest⟩ := bind_eq_ok.mp rest
    obtain ⟨rfl, rfl⟩ := EStateM.Result.ok.inj same
    obtain ⟨_, _, spared, rest⟩ := bind_eq_ok.mp rest
    obtain ⟨rfl, absent⟩ := noEscape_eq_ok.mp spared
    obtain ⟨ends, rest⟩ := Check.ending_bind_eq_ok.mp rest
    obtain ⟨rfl, rfl⟩ := EStateM.Result.ok.inj rest
    rw [← env_of_expectExpr inferred] at walkable absent ⊢
    exact ⟨opened, rigid, middle, term, placed, inferred, ⟨walkable, absent⟩, ends, rfl⟩
  · rintro ⟨opened, rigid, middle, term, placed, inferred, ⟨walkable, absent⟩, ends, rfl⟩
    have spared : Check.noEscape rigid (after.env.freeVars after.subst) binding.span after =
    .ok () after :=
      noEscape_eq_ok.mpr ⟨rfl, absent⟩
    refine bind_eq_ok.mpr ⟨_, _, placed,
      bind_eq_ok.mpr ⟨_, _, rfl, bind_eq_ok.mpr ⟨_, _, inferred, ?_⟩⟩⟩
    rw [← env_of_expectExpr inferred]
    refine Check.ending_bind_eq_ok.mpr ⟨walkable,
      bind_eq_ok.mpr ⟨_, _, rfl, bind_eq_ok.mpr ⟨_, _, spared, ?_⟩⟩⟩
    exact Check.ending_bind_eq_ok.mpr ⟨ends, rfl⟩

theorem completes_single {binding : Surface.Binding}
    (completes : Check.Completes (Check.group false [binding]) before) :
    Check.Completes (Check.placeholder binding) before ∧
      ∀ {opened rigid middle}, Check.placeholder binding before = .ok (opened, rigid) middle →
        Check.Completes (Check.expectExpr binding.value opened) middle ∧
        ∀ {term after}, Check.expectExpr binding.value opened middle = .ok term after →
          after.env.walkableBelow after.env.depth after.subst = true ∧
          ((∀ v ∈ rigid, v ∉ after.env.freeVars after.subst) →
            Scheme.generalizes after.subst opened = true) := by
  rw [group_single] at completes
  refine ⟨completes.first, fun {opened rigid middle} placed => ?_⟩
  have opening := (completes.rest placed).rest rfl
  refine ⟨opening.first, fun {term after} inferred => ?_⟩
  obtain ⟨walkable, rest⟩ := (opening.rest inferred).guarded rfl
  rw [← env_of_expectExpr inferred] at walkable rest
  refine ⟨walkable, fun absent => ?_⟩
  have spared : Check.noEscape rigid (after.env.freeVars after.subst) binding.span after =
      .ok () after :=
    noEscape_eq_ok.mpr ⟨rfl, absent⟩
  exact (((rest.rest rfl).rest spared).guarded rfl).1

theorem completes_ascribed
    (completes : Check.Completes (Check.infer (.ascribed span value written)) before) :
    Check.Completes (Check.writtenType written) before ∧
      ∀ {expected read}, Check.writtenType written before = .ok expected read →
        ∃ head, read.subst.shallow? expected = some head ∧
          (∃ opened rigid middle, Opens expected read head opened rigid middle) ∧
          ∀ {opened rigid middle}, Opens expected read head opened rigid middle →
            Check.Completes (Check.expectExpr value opened) middle ∧
            ∀ {term checked}, Check.expectExpr value opened middle = .ok term checked →
              ∀ {vars body}, head = .quantified vars body →
                checked.env.walkableBelow checked.env.depth checked.subst = true ∧
                ((∀ v ∈ rigid, v ∉ checked.env.freeVars checked.subst) →
                  (checked.subst.zonk? body).isSome = true) := by
  unfold Check.infer at completes
  refine ⟨completes.first, fun {expected read} elaborates => ?_⟩
  obtain ⟨ended, rest⟩ := (completes.rest elaborates).guarded rfl
  obtain ⟨head, shallow⟩ := Option.isSome_iff_exists.mp ended
  replace rest := rest.rest rfl
  simp only [Subst.shallow, shallow, Option.getD_some] at rest
  refine ⟨head, shallow, ?_⟩
  split at rest
  · rename_i vars body
    have resolves := (rest.first.guarded rfl).1
    refine ⟨⟨_, _, _, .quantified resolves⟩, fun {opened rigid middle} opens => ?_⟩
    replace rest := rest.rest (openRigid_eq_ok.mpr opens)
    dsimp only at rest
    rw [← bind_assoc] at rest
    refine ⟨rest.first, fun {term checked} inferred => ?_⟩
    rintro _ _ ⟨⟩
    obtain ⟨walkable, last⟩ := (rest.rest inferred).guarded rfl
    refine ⟨walkable, fun absent => ?_⟩
    have spared : Check.noEscape rigid (checked.env.freeVars checked.subst) span checked =
        .ok () checked :=
      noEscape_eq_ok.mpr ⟨rfl, absent⟩
    have opened := (((last.rest rfl).rest spared).first.guarded rfl).1
    rwa [Subst.opens, Subst.shallow?_of_head fun _ => rfl] at opened
  · rename_i plain
    refine ⟨⟨_, _, _, .plain plain⟩, fun {opened rigid middle} opens => ?_⟩
    cases opens with
    | quantified => exact absurd rfl (plain _ _)
    | plain _ => exact ⟨rest, fun {_ _} _ {_ _} same => absurd same (plain _ _)⟩

theorem placeholder_eq_ok {read : Session}
    (elaborates : Check.writtenType written before = .ok expected read) :
    Check.placeholder ⟨span, name, some written, value⟩ before = .ok (opened, rigid) middle ↔
      Opens expected read expected opened rigid middle := by
  constructor
  · intro placed
    obtain ⟨_, _, found, placed⟩ := bind_eq_ok.mp placed
    obtain ⟨rfl, rfl⟩ := EStateM.Result.ok.inj (elaborates.symm.trans found)
    split at placed
    · obtain ⟨⟨copies, body⟩, _, opens, ended⟩ := bind_eq_ok.mp placed
      obtain ⟨same, rfl⟩ := pure_eq_ok.mp ended
      obtain ⟨rfl, rfl⟩ := Prod.mk.inj same
      exact openRigid_eq_ok.mp opens
    · rename_i plain
      obtain ⟨same, rfl⟩ := pure_eq_ok.mp placed
      obtain ⟨rfl, rfl⟩ := Prod.mk.inj same
      exact .plain plain
  · intro opens
    refine bind_eq_ok.mpr ⟨_, _, elaborates, ?_⟩
    split
    · exact bind_eq_ok.mpr ⟨_, _, openRigid_eq_ok.mpr opens, rfl⟩
    · rename_i plain
      cases opens with
      | quantified => exact absurd rfl (plain _ _)
      | plain _ => rfl

section Acceptance

/-- A value accepted against an annotation: it is checked against the annotation as it is read,
opened with rigid variables if that is a quantifier, and none of these is then free in the
scopes. -/
structure Acceptance (written : Surface.TypeExpr) (value : Surface.Expr) (before : Session) where
  expected : Ty
  read : Session
  opened : Ty
  rigid : List TyVar
  middle : Session
  term : Term
  checked : Session
  elaborates : Check.writtenType written before = .ok expected read
  opens : Opens expected read expected opened rigid middle
  inferred : Check.expectExpr value opened middle = .ok term checked
  spared : (∀ vars body, expected ≠ .quantified vars body) ∨ Spared rigid checked

structure Attempt (written : Surface.TypeExpr) (value : Surface.Expr)
    (before : Session) : Prop where
  reads : Check.Completes (Check.writtenType written) before
  opens : ∀ {expected read}, Check.writtenType written before = .ok expected read →
    ∃ opened rigid middle, Opens expected read expected opened rigid middle ∧
      Check.Completes (Check.expectExpr value opened) middle ∧
      ∀ {term checked}, Check.expectExpr value opened middle = .ok term checked →
        (∀ vars body, expected ≠ .quantified vars body) ∨
          checked.env.walkableBelow checked.env.depth checked.subst = true

structure Acceptance.Relabels {before before' : Session} (label : TyVar → TyVar)
    (accepted : Acceptance written value before) (accepted' : Acceptance written value before') :
      Prop where
  expected : accepted'.expected = accepted.expected.relabel label
  read : accepted.read.Relabelled label accepted'.read
  opened : accepted'.opened = accepted.opened.relabel label
  rigid : accepted'.rigid = accepted.rigid.map label
  middle : accepted.middle.Relabelled label accepted'.middle
  term : accepted'.term = accepted.term.relabel label
  checked : accepted.checked.Relabelled label accepted'.checked

variable {before' read read' checked checked' : Session} {label : TyVar → TyVar}

theorem Acceptance.run_of (accepted : Acceptance written value before)
    (elaborates : Check.writtenType written before = .ok expected read)
    (opens : Opens expected read expected opened rigid middle) : ∃ term checked,
      Check.expectExpr value opened middle = .ok term checked ∧
      ((∀ vars body, expected ≠ .quantified vars body) ∨ Spared rigid checked) := by
  obtain ⟨expected', read', opened', rigid', middle', term, checked, elaborates', opens', inferred,
    spared⟩ := accepted
  obtain ⟨rfl, rfl⟩ := EStateM.Result.ok.inj (elaborates'.symm.trans elaborates)
  obtain ⟨rfl, rfl, rfl⟩ := opens'.unique opens
  exact ⟨term, checked, inferred, spared⟩

theorem Opens.relabel (atRead : read.Relabelled label read') {head : Ty} {opened' : Ty}
    {rigid' : List TyVar} {middle' : Session} (opens : Opens expected read head opened rigid middle)
    (opens' : Opens (expected.relabel label) read' (head.relabel label) opened' rigid' middle') :
    opened' = opened.relabel label ∧ rigid' = rigid.map label ∧
      middle.Relabelled label middle' := by
  cases head with
  | quantified vars body =>
    have matched := Check.matches_openRigid vars body default read read' atRead
    rw [openRigid_eq_ok.mpr opens, openRigid_eq_ok.mpr opens'] at matched
    obtain ⟨same, there⟩ := matched.ok_inv
    obtain ⟨rfl, rfl⟩ := Prod.mk.inj same
    exact ⟨rfl, rfl, there⟩
  | var | arrow | tuple | nominal | app =>
    cases opens
    cases opens'
    exact ⟨rfl, rfl, atRead⟩

theorem Spared.relabel (here : checked.Relabelled label checked')
    (walkable : checked.env.walkableBelow checked.env.depth checked.subst = true)
    (walkable' : checked'.env.walkableBelow checked'.env.depth checked'.subst = true) :
    Spared rigid checked ↔ Spared (rigid.map label) checked' := by
  have free : checked'.env.freeVars checked'.subst =
      (checked.env.freeVars checked.subst).map label := by
    rw [here.env, Env.depth_relabel] at walkable'
    rw [here.env, Env.freeVars, Env.freeVars, Env.depth_relabel,
      Env.freeVarsBelow_relabel here.subst.toCorresponds _ walkable walkable']
  have each : (∀ v ∈ rigid, v ∉ checked.env.freeVars checked.subst) ↔
      ∀ v ∈ rigid.map label, v ∉ checked'.env.freeVars checked'.subst := by
    rw [free, List.forall_mem_map]
    exact forall₂_congr fun v _ => not_congr (List.mem_map_of_injective here.subst.injective).symm
  exact ⟨fun spared => ⟨walkable', each.mp spared.absent⟩,
    fun spared => ⟨walkable, each.mpr spared.absent⟩⟩

theorem Attempt.acceptances (attempt : Attempt written value before)
    (attempt' : Attempt written value before') (here : before.Relabelled label before')
    (one : Nonempty (Acceptance written value before) ∨
      Nonempty (Acceptance written value before')) :
    ∃ (accepted : Acceptance written value before) (accepted' : Acceptance written value before'),
      accepted.Relabels label accepted' := by
  rcases (Check.matches_writtenType written before before' here).both attempt.reads
      attempt'.reads with
    ⟨expected, read, read', elaborates, elaborates', atRead⟩ | ⟨never, never'⟩
  · obtain ⟨opened, rigid, middle, opens, completes, walks⟩ := attempt.opens elaborates
    obtain ⟨opened', rigid', middle', opens', completes', walks'⟩ := attempt'.opens elaborates'
    obtain ⟨rfl, rfl, atMiddle⟩ := opens.relabel atRead opens'
    rcases (Check.matches_expectExpr value opened middle middle' atMiddle).both completes
        completes' with
      ⟨term, checked, checked', inferred, inferred', atChecked⟩ | ⟨never, never'⟩
    · have spared : ((∀ vars body, expected ≠ .quantified vars body) ∨ Spared rigid checked) ∧
          ((∀ vars body, expected.relabel label ≠ .quantified vars body) ∨
            Spared (rigid.map label) checked') := by
        cases expected with
        | quantified vars body =>
          have walkable := (walks inferred).resolve_left fun plain => plain _ _ rfl
          have walkable' := (walks' inferred').resolve_left fun plain => plain _ _ rfl
          have both : Spared rigid checked ↔ Spared (rigid.map label) checked' :=
            Spared.relabel atChecked walkable walkable'
          rcases one with ⟨⟨accepted⟩⟩ | ⟨⟨accepted⟩⟩
          · obtain ⟨_, _, run, spared⟩ := accepted.run_of elaborates opens
            obtain ⟨rfl, rfl⟩ := EStateM.Result.ok.inj (run.symm.trans inferred)
            have spared := spared.resolve_left fun plain => plain _ _ rfl
            exact ⟨.inr spared, .inr (both.mp spared)⟩
          · obtain ⟨_, _, run, spared⟩ := accepted.run_of elaborates' opens'
            obtain ⟨rfl, rfl⟩ := EStateM.Result.ok.inj (run.symm.trans inferred')
            have spared := spared.resolve_left fun plain => plain _ _ rfl
            exact ⟨.inr (both.mpr spared), .inr spared⟩
        | var | arrow | tuple | nominal | app => exact ⟨.inl nofun, .inl nofun⟩
      exact ⟨⟨expected, read, opened, rigid, middle, term, checked, elaborates, opens,
          inferred, spared.1⟩,
        ⟨expected.relabel label, read', _, _, middle', _, checked', elaborates', opens',
          inferred', spared.2⟩,
        ⟨rfl, atRead, rfl, rfl, atMiddle, rfl, atChecked⟩⟩
    · rcases one with ⟨⟨accepted⟩⟩ | ⟨⟨accepted⟩⟩
      · obtain ⟨term, checked, inferred, -⟩ := accepted.run_of elaborates opens
        exact absurd inferred (never _ _)
      · obtain ⟨term, checked, inferred, -⟩ := accepted.run_of elaborates' opens'
        exact absurd inferred (never' _ _)
  · rcases one with ⟨⟨accepted⟩⟩ | ⟨⟨accepted⟩⟩
    · exact absurd accepted.elaborates (never _ _)
    · exact absurd accepted.elaborates (never' _ _)

theorem attempt_annotated
    (completes : Check.Completes (Check.group false [⟨span, name, some written, value⟩]) before) :
    Attempt written value before := by
  obtain ⟨placing, rest⟩ := completes_single completes
  replace placing : Check.Completes (Check.writtenType written >>= _) before := placing
  refine ⟨placing.first, fun {expected read} elaborates => ?_⟩
  have opens : ∃ opened rigid middle, Opens expected read expected opened rigid middle := by
    have opening := placing.rest elaborates
    cases expected with
    | quantified vars body => exact ⟨_, _, _, .quantified (opening.first.guarded rfl).1⟩
    | var | arrow | tuple | nominal | app => exact ⟨_, _, _, .plain nofun⟩
  obtain ⟨opened, rigid, middle, opens⟩ := opens
  obtain ⟨completes, walks⟩ := rest ((placeholder_eq_ok elaborates).mpr opens)
  exact ⟨opened, rigid, middle, opens, completes, fun inferred => .inr (walks inferred).1⟩

def withPlaceholder (session : Session) : Session :=
  { session with subst := (session.subst.push .unbound).2 }

theorem placeholder_unannotated (before : Session) :
    Check.placeholder ⟨span, name, none, value⟩ before =
    .ok (.var ⟨before.subst.size⟩, []) before.withPlaceholder := rfl

theorem attempt_ascribed
    (completes :
      Check.Completes
        (Check.group false [⟨span, name, none, .ascribed span' value written⟩]) before)
    (headed : ∀ {expected read head}, Check.writtenType written before.withPlaceholder =
      .ok expected read → read.subst.shallow? expected = some head → head = expected) :
    Attempt written value before.withPlaceholder := by
  obtain ⟨-, rest⟩ := completes_single completes
  obtain ⟨reads, rest⟩ := completes_ascribed (rest (placeholder_unannotated before)).1.first
  refine ⟨reads, fun {expected read} elaborates => ?_⟩
  obtain ⟨head, shallow, ⟨opened, rigid, middle, opens⟩, rest⟩ := rest elaborates
  obtain rfl := headed elaborates shallow
  refine ⟨opened, rigid, middle, opens, (rest opens).1, fun {term checked} inferred => ?_⟩
  cases head with
  | quantified vars body => exact .inr ((rest opens).2 inferred rfl).1
  | var | arrow | tuple | nominal | app => exact .inl nofun

theorem Acceptance.annotated (accepted : Acceptance written value before)
    (completes : Check.Completes (Check.group false [⟨span, name, some written, value⟩]) before) :
    Check.group false [⟨span, name, some written, value⟩] before =
      .ok [⟨name, .generalize accepted.checked.subst
          (accepted.checked.env.freeVars accepted.checked.subst) accepted.opened,
        accepted.term⟩] accepted.checked ∧
      accepted.checked.env.walkableBelow accepted.checked.env.depth accepted.checked.subst = true ∧
      Scheme.generalizes accepted.checked.subst accepted.opened = true := by
  have placed : Check.placeholder ⟨span, name, some written, value⟩ before =
      .ok (accepted.opened, accepted.rigid) accepted.middle :=
    (placeholder_eq_ok accepted.elaborates).mpr accepted.opens
  obtain ⟨walkable, generalizes⟩ := ((completes_single completes).2 placed).2 accepted.inferred
  have absent : ∀ v ∈ accepted.rigid, v ∉ accepted.checked.env.freeVars accepted.checked.subst := by
    rcases accepted.spared with plain | spared
    · have none_ : accepted.rigid = [] := by
        obtain ⟨_, _, _, _, _, _, _, _, opens, _, _⟩ := accepted
        cases opens with
        | quantified => exact absurd rfl (plain _ _)
        | plain _ => rfl
      rw [none_]
      exact List.forall_mem_nil _
    · exact spared.absent
  have generalizes := generalizes absent
  exact ⟨group_single_eq_ok.mpr ⟨_, _, _, _, placed, accepted.inferred, ⟨walkable, absent⟩,
      generalizes, rfl⟩, walkable, generalizes⟩

theorem nonempty_acceptance_of_annotated {definitions : List Definition}
    (run : Check.group false [⟨span, name, some written, value⟩] before = .ok definitions after) :
    Nonempty (Acceptance written value before) := by
  obtain ⟨opened, rigid, middle, term, placed, inferred, spared, -, -⟩ := group_single_eq_ok.mp run
  obtain ⟨expected, read, elaborates, -⟩ := bind_eq_ok.mp placed
  exact ⟨⟨expected, read, opened, rigid, middle, term, after, elaborates,
    (placeholder_eq_ok elaborates).mp placed, inferred, .inr spared⟩⟩

theorem nonempty_acceptance_of_ascribed {definitions : List Definition}
    (headed : ∀ {expected read head}, Check.writtenType written before.withPlaceholder =
      .ok expected read → read.subst.shallow? expected = some head → head = expected)
    (run : Check.group false [⟨span, name, none, .ascribed span' value written⟩] before =
      .ok definitions after) :
    Nonempty (Acceptance written value before.withPlaceholder) := by
  obtain ⟨_, _, _, _, placed, inferred, -⟩ := group_single_eq_ok.mp run
  obtain ⟨-, rfl⟩ := EStateM.Result.ok.inj placed
  obtain ⟨_, _, infers, -⟩ := bind_eq_ok.mp inferred
  obtain ⟨expected, read, elaborates, -⟩ :=
    bind_eq_ok.mp (by unfold Check.infer at infers; exact infers)
  obtain ⟨head, opened, rigid, middle, inner, checked, shallow, opens, inferred, spared, -⟩ :=
    (ascribed_eq_ok elaborates).mp infers
  obtain rfl := headed elaborates shallow
  exact ⟨⟨head, read, opened, rigid, middle, inner, checked, elaborates, opens, inferred, spared⟩⟩

/-- A group whose value is inferred with a type that corresponds to one of the first session. -/
theorem group_of_ascription {inner : Term} {ty : Ty}
    (completes : Check.Completes (Check.group false [⟨span, name, none, value⟩]) before)
    (run : Check.infer value before.withPlaceholder = .ok inner checked')
    (here : checked.Relabelled label checked')
    (same : inner.ty = ty.relabel label) (unseen : ∀ w, label w ≠ ⟨before.subst.size⟩) :
    ∃ solved, checked.subst.Answered label ⟨before.subst.size⟩ ty solved ∧
      checked'.env.walkableBelow checked'.env.depth solved = true ∧
      Scheme.generalizes solved (.var ⟨before.subst.size⟩) = true ∧
      Check.group false [⟨span, name, none, value⟩] before =
        .ok [⟨name, .generalize solved (checked'.env.freeVars solved)
            (.var ⟨before.subst.size⟩), inner⟩] { checked' with subst := solved } := by
  obtain ⟨-, rest⟩ := completes_single completes
  obtain ⟨comparing, rest⟩ := rest (placeholder_unannotated before)
  have equating : Check.Completes (Check.unify (.var ⟨before.subst.size⟩) inner.ty value.span)
      checked' :=
    (comparing.rest run).first
  rcases here.subst.unify_unseen unseen ty with ⟨last, stopped⟩ | ⟨solved, answers, answered⟩
  · obtain ⟨error, after, stops, stop⟩ : ∃ error after,
      Check.unify (.var ⟨before.subst.size⟩) inner.ty value.span checked' =
        .error error after ∧ error.cause.runsOut = true := by
      simp only [Check.unify, same, stopped]
      exact ⟨_, _, rfl, rfl⟩
    exact absurd stop (Bool.eq_false_iff.mp (equating _ _ stops))
  · have inferred : Check.expectExpr value (.var ⟨before.subst.size⟩) before.withPlaceholder =
        .ok inner { checked' with subst := solved } := by
      refine bind_eq_ok.mpr ⟨_, _, run, bind_eq_ok.mpr ⟨(), _, ?_, rfl⟩⟩
      rw [Check.unify, same, answers]
    obtain ⟨walkable, generalizes⟩ := rest inferred
    have generalizes := generalizes (List.forall_mem_nil _)
    exact ⟨solved, answered, walkable, generalizes, group_single_eq_ok.mpr
      ⟨_, _, _, _, placeholder_unannotated before, inferred, ⟨walkable, List.forall_mem_nil _⟩,
        generalizes, rfl⟩⟩

theorem generalize_answered {solved : Subst} {x : TyVar} {ty resolved : Ty} {depth : Nat}
    (here : checked.Relabelled label checked') (answered : checked.subst.Answered label x ty solved)
    (walkable : checked.env.walkableBelow checked.env.depth checked.subst = true)
    (walkable' : checked'.env.walkableBelow checked'.env.depth solved = true)
    (generalizes : Scheme.generalizes solved (.var x) = true)
    (walk : checked.subst.zonkWithin depth ty = some resolved)
    (searches : (checked.subst.freeVars? resolved).isSome = true) :
    Scheme.generalize solved (checked'.env.freeVars solved) (.var x) =
      Scheme.relabel label ⟨(checked.subst.freeVars resolved).filter
        fun v => !(checked.env.freeVars checked.subst).contains v, resolved⟩ := by
  obtain ⟨resolves, searches'⟩ := Bool.and_eq_true_iff.mp generalizes
  obtain ⟨whole, walk'⟩ := Option.isSome_iff_exists.mp resolves
  obtain rfl :=
    Subst.Zonks.unique ((answered.zonks whole).mp ⟨_, walk'⟩)
      ⟨_, answered.corresponds.zonkWithin walk⟩
  rw [Subst.zonk, walk', Option.getD_some] at searches'
  obtain ⟨free, search⟩ := Option.isSome_iff_exists.mp searches
  obtain ⟨free', search'⟩ := Option.isSome_iff_exists.mp searches'
  obtain rfl := answered.corresponds.freeVars_eq search search'
  have fixed : checked'.env.freeVars solved = (checked.env.freeVars checked.subst).map label := by
    rw [here.env, Env.depth_relabel] at walkable'
    rw [here.env, Env.freeVars, Env.freeVars, Env.depth_relabel,
      Env.freeVarsBelow_relabel answered.corresponds _ walkable walkable']
  rw [Scheme.generalize, Scheme.relabel, Subst.zonk, walk', Option.getD_some, Subst.freeVars,
    search', Option.getD_some, Subst.freeVars, search, Option.getD_some, fixed, List.filter_map]
  refine congrArg (Scheme.mk · _)
    (congrArg (List.map label) (List.filter_congr fun v _ => congrArg not ?_))
  simp [here.subst.injective.eq_iff]

end Acceptance

section Placeholder

variable {env : Env} {shape : Shape} {v w : TyVar} {n : Nat}

def skip (n : Nat) (v : TyVar) : TyVar := if v.index < n then v else ⟨v.index + 1⟩

theorem index_skip (n : Nat) (v : TyVar) :
    (skip n v).index = if v.index < n then v.index else v.index + 1 := by
  unfold skip
  split <;> rfl

theorem skip_injective (n : Nat) : Function.Injective (skip n) := by
  intro v w same
  have index : (skip n v).index = (skip n w).index := congrArg TyVar.index same
  rw [index_skip, index_skip] at index
  refine congrArg TyVar.mk (?_ : v.index = w.index)
  split at index <;> split at index <;> omega

theorem skip_ne (n : Nat) (v : TyVar) : skip n v ≠ ⟨n⟩ := by
  intro same
  have index : (skip n v).index = n := congrArg TyVar.index same
  rw [index_skip] at index
  split at index <;> omega

theorem Fits.relabelled_withPlaceholder (fits : before.Fits env shape)
    (ends : before.subst.LinksEnd) :
    before.Relabelled (skip before.subst.size) before.withPlaceholder := by
  have keeps : ∀ v : TyVar, v.index < shape.cells → skip before.subst.size v = v := fun v inside =>
    if_pos (fits.subst.size ▸ inside)
  have cells : ∀ v, (before.subst.cell v).relabel (skip before.subst.size) =
      before.subst.cell v := by
    intro v
    have fit := fits.subst.cell v
    generalize before.subst.cell v = cell at fit
    cases fit with
    | unbound | rigid => rfl
    | link inside => rw [Cell.relabel, keeps _ inside]
    | bound fit => rw [Cell.relabel, fit.relabel keeps]
  refine ⟨⟨⟨skip_injective _, fun v => ?_, ends, ends.push Cell.isNew_unbound⟩, fun v other => ?_,
      fun count => ?_⟩, rfl, fits.registry.fixed keeps, ?_, rfl, rfl⟩
  · rw [cells]
    change (before.subst.push .unbound).2.cell _ = _
    by_cases inside : v.index < before.subst.size
    · rw [skip, if_pos inside, cell_push, if_neg (Nat.ne_of_lt inside)]
    · have outside := Nat.le_of_not_lt inside
      have beyond : (skip before.subst.size v).index = v.index + 1 := by
        rw [index_skip, if_neg inside]
      rw [cell_push, if_neg (by omega), cell_of_size_le outside, cell_of_size_le (by omega)]
  · change (before.subst.push .unbound).2.cell _ = _
    rw [cell_push]
    split
    · rfl
    · rename_i different
      refine cell_of_size_le (Nat.le_of_not_lt fun inside => other v ?_)
      rw [skip, if_pos inside]
  · rw [skip, if_neg (by simp)]
    change _ = TyVar.mk ((before.subst.push .unbound).2.size + count)
    rw [size_push, Nat.add_right_comm]
  · change before.env = before.env.relabel _
    refine (Env.relabel_eq fun scheme member => ?_).symm
    have fit := fits.schemes scheme (fits.scopes ▸ member)
    rw [Scheme.relabel, fit.ty.relabel keeps,
      (List.map_congr_left fun v member => keeps v (fit.vars v member)).trans (List.map_id _)]

end Placeholder

section Agreement

variable {label : TyVar → TyVar} {before' read' : Session} {base : Subst} {world : World}
  {vars : List TyVar} {body : Ty}

/-- The value of an accepted ascription is inferred, with a type that corresponds to one of the
first session: an instance of the resolved quantifier, or the type of the value. -/
theorem Acceptance.infers (accepted' : Acceptance written value before')
    (completes : Check.Completes (Check.infer (.ascribed span value written)) before')
    (headed : ∀ {head}, accepted'.read.subst.shallow? accepted'.expected = some head →
      head = accepted'.expected) :
    ∃ inner after, Check.infer (.ascribed span value written) before' = .ok inner after ∧
      Instance accepted'.expected accepted'.term accepted'.checked inner after := by
  obtain ⟨expected, read, opened, rigid, middle, term, checked, elaborates, opens, inferred,
    spared⟩ := accepted'
  obtain ⟨-, rest⟩ := completes_ascribed completes
  obtain ⟨head, shallow, -, rest⟩ := rest elaborates
  obtain rfl := headed shallow
  have instance_ : ∃ inner after, Instance head term checked inner after := by
    cases head with
    | quantified vars body =>
      have spared := spared.resolve_left fun plain => plain _ _ rfl
      exact ⟨_, _, .quantified (((rest opens).2 inferred rfl).2 spared.absent)⟩
    | var | arrow | tuple | nominal | app => exact ⟨_, _, .plain nofun⟩
  obtain ⟨inner, after, result⟩ := instance_
  exact ⟨inner, after, (ascribed_eq_ok elaborates).mpr
    ⟨_, _, _, _, _, _, shallow, opens, inferred, spared, result⟩, result⟩

theorem Acceptance.exists_resolved (here : before.InPlay True base world)
    (complete : written.Complete)
    (noFree : written.Closed []) (accepted : Acceptance written value before)
    (ends : accepted.checked.subst.LinksEnd) (same : accepted.expected = .quantified vars body) :
    ∃ binder resolved depth, accepted.checked.subst.Copied binder vars resolved accepted.rigid ∧
      (∀ v, binder v ∨ v ∈ accepted.rigid → v.index < accepted.checked.subst.size) ∧
      accepted.opened = instanceAt vars resolved accepted.rigid ∧
      accepted.checked.subst.zonkWithin depth body = some resolved := by
  obtain ⟨expected, read, opened, rigid, middle, term, checked, elaborates, opens, inferred,
    spared⟩ := accepted
  dsimp only at ends same ⊢
  subst same
  have int : Registry.TakesInts fun _ => True := fun _ _ _ => trivial
  obtain ⟨later, -, atRead, confined⟩ := here.writtenType_closed int complete noFree elaborates
  obtain ⟨bound, confined⟩ := confined.quantified_inv
  have confined : body.Confined later.binder (· ∈ vars) :=
    confined.imp fun v shown => shown.resolve_left id
  have binders : ∀ v, later.binder v → ∃ name, read.subst.cell v = .rigid name :=
    fun _ => atRead.subst.rigid
  obtain ⟨longer, length, distinct, each, resolves, instance_⟩ := opens.copies
  obtain ⟨resolved, walk⟩ := Option.isSome_iff_exists.mp resolves
  rw [longer.zonk atRead.subst.ends walk] at instance_
  let opening : Opening default written before :=
    ⟨_, read, vars, body, rigid, opened, middle, elaborates,
      by rw [Subst.shallow, Subst.shallow?_of_head fun _ => rfl,
        Option.getD_some], openRigid_eq_ok.mpr opens⟩
  obtain ⟨keeps, rigidAt⟩ := opening.keepsRigid inferred
  obtain ⟨normal, confined'⟩ := Subst.resolved_closed atRead.subst.ends binders bound confined walk
  have atEnd : ∀ v, later.binder v → ∃ name, checked.subst.cell v = .rigid name := fun v isBinder =>
    (binders v isBinder).imp fun name => keeps v name
  have isNew : ∀ v, later.binder v → (checked.subst.cell v).IsNew :=
    fun v isBinder => isNew_of_rigid (atEnd v isBinder)
  refine ⟨later.binder, resolved, read.subst.depthBound body.size,
    ⟨normal.of_cells confined' fun v shown _ => isNew v (shown.elim (bound v) id),
    confined', isNew, bound, length, distinct, fun v member => isNew_of_rigid (rigidAt v member),
        fun v member isBinder =>
      ?_⟩, fun v shown => ?_, instance_, ?_⟩
  · exact Nat.not_lt_of_le (each v member).1 (atRead.subst.bound isBinder).1
  · obtain ⟨name, cell⟩ := shown.elim (atEnd v) (rigidAt v)
    by_contra outside
    rw [cell_of_size_le (Nat.le_of_not_lt outside)] at cell
    cases cell
  · exact (keeps.zonkWithin atRead.subst.ends ends confined
      (fun v shown => binders v (shown.elim id (bound v))) _).trans walk

/-- Between the inference of the value and the comparison with the annotation nothing refers to
what is missing. -/
theorem Acceptance.exists_inferred {shape : Shape} (fits : before.Fits before.env shape)
    (accepted : Acceptance written value before) : ∃ inner inside larger,
      Check.infer value accepted.middle = .ok inner inside ∧
      Check.against accepted.opened value.span inner inside = .ok accepted.term accepted.checked ∧
      inside.Fits before.env larger ∧ accepted.opened.Fits larger ∧
      Shape.discipline.Types larger inner := by
  have placed : Check.placeholder ⟨default, "", some written, value⟩ before =
      .ok (accepted.opened, accepted.rigid) accepted.middle :=
    (placeholder_eq_ok accepted.elaborates).mpr accepted.opens
  obtain ⟨second, grown, atMiddle, own⟩ :=
    (Shape.discipline.checks_placeholder fun _ _ => trivial).ok fits placed
  obtain ⟨inner, inside, infers, compares⟩ := bind_eq_ok.mp accepted.inferred
  obtain ⟨third, later, atInferred, types⟩ :=
    (Shape.discipline.infers value fun _ _ => trivial).ok atMiddle infers
  exact ⟨inner, inside, third, infers, compares, atInferred, own.grow later, types⟩

theorem Acceptance.fits {shape : Shape} (fits : before.Fits before.env shape)
    (accepted : Acceptance written value before) : ∃ larger,
      accepted.checked.Fits before.env larger := by
  obtain ⟨inner, inside, larger, -, compares, atInferred, own, types⟩ :=
    accepted.exists_inferred fits
  obtain ⟨last, -, atChecked, -⟩ :=
    (Shape.discipline.checks_against own types).ok atInferred compares
  exact ⟨last, atChecked⟩

def withInstance (session : Session) (count : Nat) : Session :=
  { session with subst := (session.subst.pushMany .unbound count).2 }

variable {accepted : Acceptance written value before} {accepted' : Acceptance written value before'}
  {inner : Term}

theorem Acceptance.Relabels.instance_quantified (relabels : accepted.Relabels label accepted')
    (same : accepted.expected = .quantified vars body) {depth : Nat} {resolved : Ty}
    (walk : accepted.checked.subst.zonkWithin depth body = some resolved)
    (result : Instance accepted'.expected accepted'.term accepted'.checked inner after) :
    (accepted.checked.withInstance vars.length).Relabelled label after ∧
      inner.ty = (instanceAt vars resolved
        (accepted.checked.subst.pushMany .unbound vars.length).1).relabel label := by
  rw [relabels.expected, same, Ty.relabel] at result
  have atChecked := relabels.checked
  cases result with
  | plain plain => exact absurd rfl (plain _ _)
  | quantified resolves =>
    obtain ⟨whole, walk'⟩ := Option.isSome_iff_exists.mp resolves
    obtain rfl := atChecked.subst.zonk_eq walk walk'
    obtain ⟨there, fresh⟩ := atChecked.subst.pushMany Cell.isNew_unbound rfl vars.length
    obtain ⟨longer', -⟩ :=
      accepted'.checked.subst.lengthened_pushMany Cell.isNew_unbound vars.length
    rw [List.length_map, ty_withTy, longer'.zonk atChecked.subst.ends' walk', fresh, instanceAt,
      Ty.relabel_instance atChecked.subst.injective, Ty.relabel_vars]
    exact ⟨⟨there, atChecked.registry, atChecked.fixed, atChecked.env, atChecked.names,
        atChecked.options⟩, rfl⟩

theorem Acceptance.Relabels.instance_plain (relabels : accepted.Relabels label accepted')
    (plain : ∀ vars body, accepted.expected ≠ .quantified vars body)
    (result : Instance accepted'.expected accepted'.term accepted'.checked inner after) :
    accepted.checked.Relabelled label after ∧ inner.ty = accepted.term.ty.relabel label := by
  rw [relabels.expected] at result
  cases expected : accepted.expected with
  | quantified vars body => exact absurd expected (plain _ _)
  | var | arrow | tuple | nominal | app =>
    rw [expected] at result
    cases result
    rw [relabels.term, Term.ty_relabel]
    exact ⟨relabels.checked, rfl⟩

theorem fixed_withInstance {session : Session} (ends : session.subst.LinksEnd)
    (walkable : session.env.walkableBelow session.env.depth session.subst = true) (count : Nat) :
    session.env.walkableBelow session.env.depth (session.withInstance count).subst = true ∧
      session.env.freeVars (session.withInstance count).subst =
        session.env.freeVars session.subst := by
  obtain ⟨longer, -⟩ := session.subst.lengthened_pushMany Cell.isNew_unbound count
  rw [Env.walkableBelow, List.all_eq_true] at walkable
  have each : ∀ scheme ∈ (session.env.scopes.take session.env.depth).flatMap Table.values, ∃ free,
      session.subst.freeVars? scheme.ty = some free ∧ (session.withInstance count).subst.freeVars?
        scheme.ty = some free := by
    intro scheme member
    obtain ⟨free, search⟩ := Option.isSome_iff_exists.mp (walkable scheme member)
    exact ⟨free, search, longer.freeVars? ends search⟩
  constructor
  · rw [Env.walkableBelow, List.all_eq_true]
    intro scheme member
    obtain ⟨free, -, search⟩ := each scheme member
    rw [search]
    rfl
  · rw [Env.freeVars, Env.freeVarsBelow, Env.freeVars, Env.freeVarsBelow]
    refine congrArg List.eraseDups (List.flatMap_congr fun scheme member => ?_)
    obtain ⟨free, search, search'⟩ := each scheme member
    rw [Scheme.freeVars, Scheme.freeVars, Subst.freeVars, Subst.freeVars, search, search']

theorem Fits.fixed {env : Env} {shape : Shape} {session : Session}
    (fits : session.Fits env shape) {v : TyVar}
    (fixed : v ∈ session.env.freeVars session.subst) : v.index < session.subst.size := by
  rw [Env.freeVars, Env.freeVarsBelow, List.mem_eraseDups, List.mem_flatMap] at fixed
  obtain ⟨scheme, member, free⟩ := fixed
  obtain ⟨scope, inScopes, inScope⟩ := List.mem_flatMap.mp member
  have fit := fits.schemes scheme
    (fits.scopes ▸ List.mem_flatMap.mpr ⟨scope, List.mem_of_mem_take inScopes, inScope⟩)
  rw [fits.subst.size]
  exact fits.subst.freeVars fit.ty v (List.mem_of_mem_filter free)

theorem Acceptance.Relabels.ascribed_quantified {shape : Shape}
    {accepted' : Acceptance written value before.withPlaceholder}
    (relabels : accepted.Relabels (skip before.subst.size) accepted')
    (here : before.InPlay True base world)
    (fits : before.Fits before.env shape) (complete : written.Complete) (noFree : written.Closed [])
    (same : accepted.expected = .quantified vars body)
    (headed : ∀ {head}, accepted'.read.subst.shallow? accepted'.expected = some head →
      head = accepted'.expected)
    (completes :
      Check.Completes (Check.group false [⟨span, name, none, .ascribed span' value written⟩])
        before) :
    ∃ scheme inner after,
      Check.group false [⟨span, name, none, .ascribed span' value written⟩] before =
        .ok [⟨name, scheme, inner⟩] after ∧
      ∀ scheme', scheme' = Scheme.generalize accepted.checked.subst
        (accepted.checked.env.freeVars accepted.checked.subst) accepted.opened →
        Ty.Alike Eq (.quantified scheme'.vars scheme'.ty) (.quantified scheme.vars scheme.ty) := by
  have ends := relabels.checked.subst.ends
  obtain ⟨binder, resolved, depth, copied, old, opened, walk⟩ :=
    accepted.exists_resolved here complete noFree ends same
  obtain ⟨walkable, absent⟩ := accepted.spared.resolve_left fun plain => plain _ _ same
  obtain ⟨larger, atChecked⟩ := accepted.fits fits
  obtain ⟨longer, length, each⟩ :=
    accepted.checked.subst.lengthened_pushMany Cell.isNew_unbound vars.length
  obtain ⟨walkable', fixed⟩ := fixed_withInstance ends walkable vars.length
  -- The value of the group has a type over new variables, none of which is held fixed.
  have inferring := ((completes_single completes).2 (placeholder_unannotated before)).1.first
  obtain ⟨inner, after, run, result⟩ := accepted'.infers inferring headed
  obtain ⟨there, ty⟩ := relabels.instance_quantified same walk result
  obtain ⟨solved, answered, walkableAfter, generalizes, accepts⟩ :=
    group_of_ascription completes run there ty (skip_ne before.subst.size)
  have copied' : (accepted.checked.withInstance vars.length).subst.Copied binder vars resolved
      (accepted.checked.subst.pushMany .unbound vars.length).1 :=
    ⟨longer.normal copied.normal, copied.confined,
      fun v isBinder => longer.isNew_of_isNew (copied.binders v isBinder),
      copied.bound, length, accepted.checked.subst.nodup_pushMany Cell.isNew_unbound _,
      fun v member => longer.isNew (each v member).1,
      fun v member isBinder => Nat.not_lt_of_le (each v member).1 (old v (.inl isBinder))⟩
  have spared : ∀ v ∈ (accepted.checked.subst.pushMany .unbound vars.length).1,
      v ∉ accepted.checked.env.freeVars (accepted.checked.withInstance vars.length).subst :=
        fun v member isFixed =>
    Nat.not_lt_of_le (each v member).1 (atChecked.fixed (fixed ▸ isFixed))
  obtain ⟨normal, confined, confines⟩ := copied'.instantiate
  obtain ⟨free, search, -⟩ := normal.exists_freeVars? confines confined
  have scheme := generalize_answered there answered walkable' walkableAfter generalizes normal.zonk?
    (Option.isSome_iff_exists.mpr ⟨free, search⟩)
  have whole := copied'.generalize spared
  rw [Scheme.generalize, normal.zonk] at whole
  rw [scheme] at accepts
  refine ⟨_, inner, _, accepts, ?_⟩
  rintro _ rfl
  have last : (accepted.checked.withInstance vars.length).env = accepted.checked.env := rfl
  rw [opened, copied.generalize absent, last, whole, ← copied.freeVars_lengthened longer ends]
  exact copied'.alike (copied.lengthened longer)
    (fun v member isRigid => Nat.not_lt_of_le (each v member).1 (old v (.inr isRigid)))
      (skip_injective _)

theorem headed_relabel (here : before.Relabelled label before')
    (reads : Check.Completes (Check.writtenType written) before)
    (headed : ∀ {expected read}, Check.writtenType written before = .ok expected read →
      read.subst.shallow? expected = some expected) {expected' head : Ty}
    (elaborates' : Check.writtenType written before' = .ok expected' read')
    (shallow : read'.subst.shallow? expected' = some head) : head = expected' := by
  have matched := Check.matches_writtenType written before before' here
  rw [elaborates'] at matched
  cases elaborates : Check.writtenType written before with
  | ok expected read =>
    rw [elaborates] at matched
    obtain ⟨rfl, atRead⟩ := matched.ok_inv
    exact atRead.subst.shallow_eq (headed elaborates) shallow
  | error error read =>
    rw [elaborates] at matched
    cases matched with
    | stopped stop => exact absurd stop (Bool.eq_false_iff.mp (reads error read elaborates))

theorem Acceptance.Relabels.zonks_of_firstOrder {shape : Shape}
    {accepted : Acceptance written value before}
    {accepted' : Acceptance written value before'} (relabels : accepted.Relabels label accepted')
    (fits : before.Fits before.env shape) (closed : accepted.expected.FirstOrder 0) :
    accepted.opened = accepted.expected ∧
      accepted.checked.subst.Zonks accepted.term.ty accepted.expected := by
  have same : accepted.opened = accepted.expected := by
    obtain ⟨_, _, _, _, _, _, _, _, opens, _, _⟩ := accepted
    cases opens with
    | quantified => cases closed
    | plain _ => rfl
  refine ⟨same, ?_⟩
  obtain ⟨inner, inside, larger, infers, compares, fitInside, own, types⟩ :=
    accepted.exists_inferred fits
  obtain ⟨_, _, infers', -⟩ := bind_eq_ok.mp accepted'.inferred
  have matched := Check.matches_infer value _ _ relabels.middle
  rw [infers, infers'] at matched
  rw [same] at compares own
  obtain ⟨_, _, equated, ended⟩ := bind_eq_ok.mp compares
  obtain ⟨term, checked⟩ := pure_eq_ok.mp ended
  obtain ⟨solved, unified, rfl⟩ := unify_eq_ok.mp equated
  rw [← term, ← checked]
  exact Subst.unify_ground fitInside.subst matched.ok_inv.2.subst.ends own types.ty closed unified

theorem Acceptance.Relabels.ascribed_plain {shape : Shape}
    {accepted' : Acceptance written value before.withPlaceholder}
    (relabels : accepted.Relabels (skip before.subst.size) accepted')
    (fits : before.Fits before.env shape)
    (plain : ∀ vars body, accepted.expected ≠ .quantified vars body)
    (headed : ∀ {head}, accepted'.read.subst.shallow? accepted'.expected = some head →
      head = accepted'.expected)
    (walkable : accepted.checked.env.walkableBelow accepted.checked.env.depth
      accepted.checked.subst = true)
    (generalizes : Scheme.generalizes accepted.checked.subst accepted.opened = true)
    (completes :
      Check.Completes (Check.group false [⟨span, name, none, .ascribed span' value written⟩])
        before) :
    ∃ scheme inner after,
      Check.group false [⟨span, name, none, .ascribed span' value written⟩] before =
        .ok [⟨name, scheme, inner⟩] after ∧
      (accepted.expected.FirstOrder 0 → ∀ scheme',
        scheme' = Scheme.generalize accepted.checked.subst
        (accepted.checked.env.freeVars accepted.checked.subst) accepted.opened →
        Ty.Alike Eq (.quantified scheme'.vars scheme'.ty) (.quantified scheme.vars scheme.ty)) := by
  have inferring := ((completes_single completes).2 (placeholder_unannotated before)).1.first
  obtain ⟨inner, after, run, result⟩ := accepted'.infers inferring headed
  obtain ⟨there, ty⟩ := relabels.instance_plain plain result
  obtain ⟨solved, answered, walkableAfter, generalizes', accepts⟩ :=
    group_of_ascription completes run there ty (skip_ne before.subst.size)
  refine ⟨_, inner, _, accepts, ?_⟩
  rintro closed _ rfl
  obtain ⟨same, ⟨depth, walk⟩⟩ := relabels.zonks_of_firstOrder fits closed
  rw [same] at generalizes ⊢
  obtain ⟨resolves, searches⟩ := Bool.and_eq_true_iff.mp generalizes
  obtain ⟨resolved, walk'⟩ := Option.isSome_iff_exists.mp resolves
  obtain rfl := (closed.zonks _).unique ⟨_, walk'⟩
  rw [Subst.zonk, walk', Option.getD_some] at searches
  have confined : (Ty.quantified [] accepted.expected).Confined (fun _ => False) fun _ => False :=
    .quantified (List.forall_mem_nil _) (closed.confined.mono (fun _ => id) fun _ => False.elim)
  rw [generalize_answered there answered walkable walkableAfter generalizes' walk searches,
    Scheme.generalize, Subst.zonk, walk', Option.getD_some, closed.freeVars_eq_nil]
  exact confined.alike_relabel (skip_injective _) fun _ => False.elim

end Agreement

/-- Where the head of the annotation is found at once, a binding is accepted with it as its
annotation exactly when its value, ascribed with it, is; and the schemes are equal up to the names
of what they quantify, if the annotation is a quantifier or first-order. -/
theorem annotated_iff_ascribed {base : Subst} {world : World} {shape : Shape}
    (here : before.InPlay True base world)
    (fits : before.Fits before.env shape) (complete : written.Complete) (noFree : written.Closed [])
    (headed : ∀ {expected read}, Check.writtenType written before = .ok expected read →
      read.subst.shallow? expected = some expected)
    (completes : Check.Completes (Check.group false [⟨span, name, some written, value⟩]) before)
    (completes' :
      Check.Completes (Check.group false [⟨span', name, none, .ascribed span'' value written⟩])
        before) :
    ((∃ definitions after, Check.group false [⟨span, name, some written, value⟩] before =
        .ok definitions after) ↔ ∃ definitions after,
        Check.group false [⟨span', name, none, .ascribed span'' value written⟩] before =
          .ok definitions after) ∧
    ∀ {definitions definitions' after after'},
      Check.group false [⟨span, name, some written, value⟩] before = .ok definitions after →
      Check.group false [⟨span', name, none, .ascribed span'' value written⟩] before =
        .ok definitions' after' →
      ∃ scheme scheme' term term', definitions = [⟨name, scheme, term⟩] ∧
        definitions' = [⟨name, scheme', term'⟩] ∧
        ∀ {expected read}, Check.writtenType written before = .ok expected read →
          (∃ vars body, expected = .quantified vars body) ∨ expected.FirstOrder 0 →
          Ty.Alike Eq (.quantified scheme.vars scheme.ty)
          (.quantified scheme'.vars scheme'.ty) := by
  have placed := fits.relabelled_withPlaceholder here.subst.ends
  have attempt := attempt_annotated completes
  have headed' : ∀ {expected read head}, Check.writtenType written before.withPlaceholder =
    .ok expected read →
      read.subst.shallow? expected = some head → head = expected :=
        headed_relabel placed attempt.reads headed
  have attempt' := attempt_ascribed completes' headed'
  have both : Nonempty (Acceptance written value before) ∨
    Nonempty (Acceptance written value before.withPlaceholder) →
      ∃ scheme term after scheme' term' after',
        Check.group false [⟨span, name, some written, value⟩] before =
        .ok [⟨name, scheme, term⟩] after ∧
        Check.group false [⟨span', name, none, .ascribed span'' value written⟩] before =
          .ok [⟨name, scheme', term'⟩] after' ∧
        ∀ {expected read}, Check.writtenType written before = .ok expected read →
          (∃ vars body, expected = .quantified vars body) ∨ expected.FirstOrder 0 →
          Ty.Alike Eq (.quantified scheme.vars scheme.ty)
            (.quantified scheme'.vars scheme'.ty) := by
    intro one
    obtain ⟨accepted, accepted', relabels⟩ := attempt.acceptances attempt' placed one
    obtain ⟨run, walkable, generalizes⟩ := accepted.annotated completes
    by_cases quantified : ∃ vars body, accepted.expected = .quantified vars body
    · obtain ⟨vars, body, same⟩ := quantified
      obtain ⟨scheme', term', after', run', alike⟩ :=
        relabels.ascribed_quantified here fits complete noFree same
        (headed' accepted'.elaborates) completes'
      exact ⟨_, _, _, scheme', term', after', run, run', fun _ _ => alike _ rfl⟩
    · push Not at quantified
      obtain ⟨scheme', term', after', run', alike⟩ := relabels.ascribed_plain fits quantified
        (headed' accepted'.elaborates) walkable generalizes completes'
      refine ⟨_, _, _, scheme', term', after', run, run', fun elaborates form => ?_⟩
      obtain ⟨rfl, -⟩ := EStateM.Result.ok.inj (accepted.elaborates.symm.trans elaborates)
      rcases form with ⟨vars, body, same⟩ | closed
      · exact absurd same (quantified vars body)
      · exact alike closed _ rfl
  refine ⟨⟨?_, ?_⟩, fun {_ _ _ _} run run' => ?_⟩
  · rintro ⟨_, _, run⟩
    obtain ⟨_, _, _, _, _, _, -, run', -⟩ := both (.inl (nonempty_acceptance_of_annotated run))
    exact ⟨_, _, run'⟩
  · rintro ⟨_, _, run'⟩
    obtain ⟨_, _, _, _, _, _, run, -⟩ := both (.inr (nonempty_acceptance_of_ascribed headed' run'))
    exact ⟨_, _, run⟩
  · obtain ⟨scheme, term, _, scheme', term', _, again, again', alike⟩ :=
      both (.inl (nonempty_acceptance_of_annotated run))
    obtain ⟨rfl, -⟩ := EStateM.Result.ok.inj (run.symm.trans again)
    obtain ⟨rfl, -⟩ := EStateM.Result.ok.inj (run'.symm.trans again')
    exact ⟨scheme, scheme', term, term', rfl, rfl, alike⟩

/-- `let f : forall a. a -> a = fun x -> x` and `let f = (fun x -> x : forall a. a -> a)` in an
empty session. -/
theorem polyIdentity_annotated_iff_ascribed : ∃ scheme scheme' term term' after after',
    Check.group false [⟨default, "f", some polyIdentity, identity⟩] (Session.start .standard) =
        .ok [⟨"f", scheme, term⟩] after ∧
      Check.group false [⟨default, "f", none, .ascribed default identity polyIdentity⟩]
      (Session.start .standard) = .ok [⟨"f", scheme', term'⟩] after' ∧
      Ty.Alike Eq (.quantified scheme.vars scheme.ty) (.quantified scheme'.vars scheme'.ty) := by
  have shown : gives (fun _ _ => true)
    (Check.group false [⟨default, "f", some polyIdentity, identity⟩]
      (Session.start .standard)) = true := by cbv
  have shown' : gives (fun _ _ => true) (Check.group false
      [⟨default, "f", none, .ascribed default identity polyIdentity⟩] (Session.start .standard)) =
      true := by cbv
  obtain ⟨definitions, after, run, -⟩ := exists_of_gives shown
  obtain ⟨definitions', after', run', -⟩ := exists_of_gives shown'
  have complete : polyIdentity.Complete := ⟨trivial, trivial⟩
  have noFree : polyIdentity.Closed [] := ⟨List.mem_singleton_self _, List.mem_singleton_self _⟩
  have reads : Check.writtenType polyIdentity (Session.start .standard) =
      .ok (.quantified [⟨0⟩] (.arrow (.var ⟨0⟩) (.var ⟨0⟩))) _ := rfl
  obtain ⟨-, schemes⟩ := annotated_iff_ascribed (inPlay_start .standard) (fits_start .standard)
    complete noFree (fun found => by
      obtain ⟨rfl, -⟩ := EStateM.Result.ok.inj (reads.symm.trans found)
      exact Subst.shallow?_of_head fun _ => rfl)
    (fun _ _ refused => by cases run.symm.trans refused)
      (fun _ _ refused => by cases run'.symm.trans refused)
  obtain ⟨scheme, scheme', term, term', rfl, rfl, alike⟩ := schemes run run'
  exact ⟨scheme, scheme', term, term', after, after', run, run', alike reads (.inl ⟨_, _, rfl⟩)⟩

def fromPolyIdentity : Surface.TypeExpr :=
  .arrow default (.quantified default ["b"] (.arrow default (.var default "b") (.var default "b")))
    (.name default "bool")

def takesHoled : Surface.Expr :=
  .lambda default [⟨default, .ascribed default (.bind default "x")
    (.quantified default ["a"] (.arrow default (.hole default) (.var default "a"))),
    .lit default (.bool true)⟩]

/-- A hole in the value lets a rigid variable out of a quantifier inside the annotation; the
ascription generalizes it. -/
theorem inner_quantifier_differs : ∃ definition definition' after after',
    Check.group false [⟨default, "f", some fromPolyIdentity, takesHoled⟩]
    (Session.start .standard) = .ok [definition] after ∧
      Check.group false [⟨default, "f", none, .ascribed default takesHoled fromPolyIdentity⟩]
        (Session.start .standard) = .ok [definition'] after' ∧
      ¬ Ty.Alike Eq (.quantified definition.scheme.vars definition.scheme.ty)
        (.quantified definition'.scheme.vars definition'.scheme.ty) := by
  have shown : gives (fun definitions _ => decide (definitions.map (·.scheme.vars) = [[]]))
      (Check.group false [⟨default, "f", some fromPolyIdentity, takesHoled⟩]
        (Session.start .standard)) = true := by cbv
  have shown' : gives (fun definitions _ => decide (definitions.map (·.scheme.vars) = [[⟨7⟩]]))
      (Check.group false [⟨default, "f", none, .ascribed default takesHoled fromPolyIdentity⟩]
        (Session.start .standard)) = true := by cbv
  obtain ⟨definitions, after, run, vars⟩ := exists_of_gives shown
  obtain ⟨definitions', after', run', vars'⟩ := exists_of_gives shown'
  obtain ⟨definition, rfl, none_⟩ := List.map_eq_singleton_iff.mp (of_decide_eq_true vars)
  obtain ⟨definition', rfl, one⟩ := List.map_eq_singleton_iff.mp (of_decide_eq_true vars')
  refine ⟨definition, definition', after, after', run, run', fun alike => ?_⟩
  rw [none_, one] at alike
  cases alike with
  | quantified length _ => cases length

def applying : Surface.Decl :=
  .synonym default "ap" ["f", "x"] (.app default (.var default "f") [.var default "x"])

def constantly : Surface.Decl :=
  .synonym default "poly" ["a"]
    (.quantified default ["b"]
      (.arrow default (.var default "a") (.arrow default (.var default "b") (.var default "a"))))

def appliedPoly : Surface.TypeExpr :=
  .app default (.name default "ap") [.name default "poly", .name default "bool"]

def constant : Surface.Expr :=
  .lambda default
    [⟨default, .bind default "x",
      .lambda default [⟨default, .bind default "y", .ident default "x"⟩]⟩]

/-- A quantifier that an applied function on types gives is opened for the ascription only. -/
theorem applied_quantifier_not_opened :
    ¬ ∀ {options : Options} {session : Session}, session.Reachable options →
      ∀ (name : Name) (value : Surface.Expr) (written : Surface.TypeExpr),
        (∃ definitions after, Check.group false [⟨default, name, some written, value⟩] session =
          .ok definitions after) ↔ ∃ definitions after,
            Check.group false [⟨default, name, none, .ascribed default value written⟩] session =
              .ok definitions after := by
  intro agree
  have shown : gives (fun _ middle => gives (fun _ session =>
      gives (fun _ _ => true)
        (Check.group false [⟨default, "f", none, .ascribed default constant appliedPoly⟩]
        session) &&
        !gives (fun _ _ => true)
          (Check.group false [⟨default, "f", some appliedPoly, constant⟩] session))
      (Check.decl constantly middle)) (Check.decl applying (Session.start .standard)) =
        true := by cbv
  obtain ⟨checked, middle, first, shown⟩ := exists_of_gives shown
  obtain ⟨checked', session, second, shown⟩ := exists_of_gives shown
  obtain ⟨accepted, refused⟩ := Bool.and_eq_true_iff.mp shown
  obtain ⟨definitions, after, run, -⟩ := exists_of_gives accepted
  have reachable : session.Reachable .standard :=
    .decl (.decl .start applying (.inl ⟨checked, first⟩)) constantly (.inl ⟨checked', second⟩)
  obtain ⟨definitions', after', run'⟩ :=
    (agree reachable "f" constant appliedPoly).mpr ⟨definitions, after, run⟩
  rw [run'] at refused
  exact Bool.noConfusion refused

end PolyCheck.Session
