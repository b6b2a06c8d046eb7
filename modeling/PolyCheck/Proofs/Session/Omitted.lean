import PolyCheck.Proofs.Name
import PolyCheck.Proofs.Session.Followed
import PolyCheck.Proofs.Session.Soundness

/-! Failed units can be left out of a session. What remains of them is a number of minted names, so
the units after them have the same answers up to the numbers of their own, and the sessions end with
the same cells, definitions and names. -/
namespace PolyCheck

open Run Check

/-- What a unit is told: how it is accepted or why it is refused, and what was found beside that. -/
structure Answer where
  outcome : Except TypeError CheckedDecl
  findings : List Diagnostic

def Answer.rename (naming : Renaming) (answer : Answer) : Answer :=
  ⟨answer.outcome.map (CheckedDecl.rename naming), answer.findings⟩

def Answer.Refused (answer : Answer) : Prop := ∃ error, answer.outcome = .error error

namespace Session

def submit (session : Session) (written : Surface.Decl) : Answer × Session :=
  match Check.decl written session with
  | .ok checked after => (⟨.ok checked, after.pending.drop session.pending.length⟩, after)
  | .error error after => (⟨.error error, after.pending.drop session.pending.length⟩, after)

/-- The answers to units that are checked one after another. -/
def answers (session : Session) : List Surface.Decl → List Answer
  | [] => []
  | written :: rest => (session.submit written).1 :: (session.submit written).2.answers rest

def afterAll (session : Session) (units : List Surface.Decl) : Session :=
  units.foldl (fun session written => (session.submit written).2) session

structure Twin (shift : Nat) (session other : Session) : Prop where
  subst : other.subst = session.subst
  registry : other.registry = session.registry
  env : other.env = session.env
  options : other.options = session.options
  names : other.names.next = session.names.next + shift

variable {options : Options} {session other : Session} {shift : Nat} {written : Surface.Decl}

theorem Reachable.submit (reachable : session.Reachable options) (written : Surface.Decl) :
    (session.submit written).2.Reachable options := by
  unfold Session.submit
  cases run : Check.decl written session with
  | ok checked after => exact .decl reachable written (.inl ⟨checked, run⟩)
  | error error after => exact .decl reachable written (.inr ⟨error, run⟩)

theorem Reachable.inner (reachable : session.Reachable options) : session.env.inner = [] := by
  refine reachable.keeps (·.env.inner = []) rfl (fun inner accepted => ?_) fun _ _ inner => inner
  obtain ⟨found, reached, run, -, rfl⟩ := decl_eq_ok accepted
  exact (congrArg Env.inner (undoable_of_ok run).env).trans inner

theorem names_submit (session : Session) (written : Surface.Decl) :
    session.names.next ≤ (session.submit written).2.names.next := by
  unfold Session.submit
  cases run : resolvedUnit written (opened session) with
  | ok found reached =>
    rw [decl_of_ok run]
    exact (undoable_of_ok (resolvedUnit_eq_ok.mp run).1).names
  | error error reached =>
    rw [decl_of_error run]
    exact (undoable_of_error run).names

theorem Twin.refused (twin : session.Twin shift other) (reachable : other.Reachable options)
    (refused : (other.submit written).1.Refused) :
    ∃ further, session.Twin (shift + further) (other.submit written).2 := by
  obtain ⟨error, outcome⟩ := refused
  unfold Session.submit at outcome ⊢
  cases run : Check.decl written other with
  | ok checked after => simp [run] at outcome
  | error error' after =>
    obtain ⟨further, names⟩ := Nat.exists_eq_add_of_le (names_of_refused run)
    dsimp only
    rw [reachable.settled.restored run]
    refine ⟨further, twin.subst, twin.registry, twin.env, twin.options, ?_⟩
    rw [names, twin.names, Nat.add_assoc]

/-- How the two sessions go together in a unit. -/
def twinMirror (naming : Renaming) (distinct : Function.Injective naming) (shift : Nat)
    (session other : Session) : Mirror where
  naming := naming
  distinct := distinct
  shift := shift
  options := session.options
  options' := session.options
  width := rfl
  shows := fun _ => true
  warnings _ _ _ _ _ := (List.filter_true _).symm
  searches _ _ _ _ ends := ends
  counts _ := True
  refuses _ _ _ _ _ ends := ends
  since := session.pending.length
  earlier := other.pending

section Mirrored

variable {naming : Renaming} (distinct : Function.Injective naming)

theorem rename_top {env : Env} (inner : env.inner = []) (naming : Renaming) :
    env.rename naming = env := by
  rw [Env.rename, inner]
  exact congrArg (fun inner => { env with inner }) inner.symm

theorem Twin.mirrored (twin : session.Twin shift other) (inner : session.env.inner = []) :
    (twinMirror naming distinct shift session other).session session = other := by
  obtain ⟨subst, registry, env, ⟨next⟩, options, pending⟩ := other
  obtain ⟨rfl, rfl, rfl, rfl, names⟩ := twin
  dsimp only at names
  simp only [Mirror.session, twinMirror, List.drop_length, List.filter_nil, List.append_nil,
    rename_top inner, ← names]

theorem twin_mirrored (other : Session) {after : Session} (inner : after.env.inner = [])
    (same : after.options = session.options) :
    after.Twin shift ((twinMirror naming distinct shift session other).session after) :=
  ⟨rfl, rfl, rename_top inner naming, same.symm, rfl⟩

theorem findings_mirrored (other after : Session) :
    ((twinMirror naming distinct shift session other).session after).pending.drop
      other.pending.length = after.pending.drop session.pending.length := by
  simp only [Mirror.session, twinMirror, List.drop_left, List.filter_true]

end Mirrored

theorem Twin.submit (twin : session.Twin shift other) (reachable : session.Reachable options)
    {naming : Renaming}
    (distinct : Function.Injective naming) (kept : ∀ name ∈ written.names, naming name = name)
    (shifts : ∀ stem ∈ checkStems, ∀ number, session.names.next ≤ number →
      number < (session.submit written).2.names.next →
      naming ("%" ++ stem ++ toString number) = "%" ++ stem ++ toString (number + shift)) :
    (other.submit written).1 = (session.submit written).1.rename naming ∧
      (session.submit written).2.Twin shift (other.submit written).2 := by
  have mirrored := twin.mirrored distinct reachable.inner
  have followed := @Mirror.follows_decl (twinMirror naming distinct shift session other) written
    kept session ⟨rfl, Nat.le_refl _⟩
  have later := (reachable.submit written).inner
  rw [mirrored] at followed
  unfold Session.submit at shifts later ⊢
  cases run : Check.decl written session with
  | ok checked after =>
    rw [run] at followed
    simp only [run] at shifts later ⊢
    obtain ⟨leads, -, answer⟩ := followed
    rw [answer shifts]
    dsimp only
    rw [findings_mirrored]
    exact ⟨rfl, twin_mirrored distinct other later leads.admits.options⟩
  | error error after =>
    rw [run] at followed
    simp only [run] at shifts later ⊢
    obtain ⟨leads, answer⟩ := followed
    rw [answer trivial shifts]
    dsimp only
    rw [findings_mirrored]
    exact ⟨rfl, twin_mirrored distinct other later leads.admits.options⟩

def keptUnits (units : List (Surface.Decl × Bool)) : List Surface.Decl :=
  (units.filter (·.2)).map (·.1)

def keptAnswers (session : Session) (units : List (Surface.Decl × Bool)) : List Answer :=
  ((units.zip (session.answers (units.map (·.1)))).filter (·.1.2)).map (·.2)

def RefusesOthers (session : Session) (units : List (Surface.Decl × Bool)) : Prop :=
  ∀ entry ∈ units.zip (session.answers (units.map (·.1))), entry.1.2 = false → entry.2.Refused

/-- Names below a bound get the numbers that are so much greater, and the others those of another
numbering. -/
def splice (bound shift : Nat) (numbering : Nat → Nat) (number : Nat) : Nat :=
  if number < bound then number + shift else numbering number

theorem splice_strictMono {bound : Nat} {numbering : Nat → Nat} (increases : StrictMono numbering)
    (behind : ∀ number, number + shift ≤ numbering number) :
      StrictMono (splice bound shift numbering) := by
  intro first second less
  unfold splice
  have later := behind second
  have order := increases less
  split <;> split <;> omega

/-- Along a list of units the second session numbers its names in the order of the first. Any
numbering that agrees with it from here on gives the answers. -/
theorem Twin.exists_numbering {units : List (Surface.Decl × Bool)} (twin : session.Twin shift other)
    (reachable : session.Reachable options) (reachable' : other.Reachable options)
    (spelled : ∀ unit ∈ units, ∀ name ∈ unit.1.names, name.isMinted = false)
    (refuses : other.RefusesOthers units) :
    ∃ numbering : Nat → Nat, StrictMono numbering ∧ (∀ number, number + shift ≤ numbering number) ∧
      (∀ finer : Nat → Nat, StrictMono finer →
        (∀ number, session.names.next ≤ number → finer number = numbering number) →
        other.keptAnswers units =
          (session.answers (keptUnits units)).map (Answer.rename (Name.renumber finer))) ∧
      ∃ total, (session.afterAll (keptUnits units)).Twin total
      (other.afterAll (units.map (·.1))) := by
  induction units generalizing session other shift with
  | nil =>
    exact ⟨(· + shift), fun _ _ less => Nat.add_lt_add_right less shift, fun _ => Nat.le_refl _,
      fun _ _ _ => rfl, shift, twin⟩
  | cons unit units ih =>
    obtain ⟨written, kept⟩ := unit
    obtain ⟨plain, others⟩ := List.forall_mem_cons.mp spelled
    obtain ⟨here, refuses⟩ := List.forall_mem_cons.mp refuses
    cases kept with
    | false =>
      obtain ⟨further, twin'⟩ := twin.refused reachable' (here rfl)
      obtain ⟨numbering, increases, behind, answers, final⟩ :=
        ih twin' reachable (reachable'.submit written) others refuses
      exact ⟨numbering, increases, fun number => Nat.le_trans (by omega) (behind number),
        answers, final⟩
    | true =>
      have later := names_submit session written
      have step : ∀ finer : Nat → Nat, StrictMono finer →
          (∀ number, session.names.next ≤ number → number < (session.submit written).2.names.next →
            finer number = number + shift) →
          (other.submit written).1 = (session.submit written).1.rename (Name.renumber finer) ∧
            (session.submit written).2.Twin shift (other.submit written).2 := by
        intro finer increases same
        refine twin.submit reachable (Name.renumber_injective increases.injective)
          (fun name member => Name.renumber_of_not_minted (plain name member)) fun stem inChecks
            number above below => ?_
        have stems : ∀ stem ∈ checkStems, IsStem stem := by decide
        rw [Name.renumber_minted (stems stem inChecks), same number above below]
      obtain ⟨-, twin'⟩ :=
        step (· + shift) (fun _ _ less => Nat.add_lt_add_right less shift) fun _ _ _ => rfl
      obtain ⟨numbering, increases, behind, answers, final⟩ :=
        ih twin' (reachable.submit written) (reachable'.submit written) others refuses
      refine ⟨splice (session.submit written).2.names.next shift numbering,
        splice_strictMono increases behind,
        fun number => ?_, fun finer increases' same => ?_, final⟩
      · unfold splice
        have := behind number
        split <;> omega
      · have first := (step finer increases' fun number above below => by
          rw [same number above, splice, if_pos below]).1
        have rest := answers finer increases' fun number above => by
          rw [same number (Nat.le_trans later above), splice, if_neg (Nat.not_lt.mpr above)]
        exact congrArg₂ List.cons first rest

/-- In a session whose programs spell no minted names, the units that fail can be left out, all of
them or some. Every other unit has the same outcome and the same findings, with the numbers of
minted names changed by one increasing function, and the session ends with the same cells,
definitions, tables and scopes. -/
theorem failed_units_invisible (options : Options) {units : List (Surface.Decl × Bool)}
    (spelled : ∀ unit ∈ units, ∀ name ∈ unit.1.names, name.isMinted = false)
    (refuses : (Session.start options).RefusesOthers units) :
    ∃ numbering : Nat → Nat, StrictMono numbering ∧
      (Session.start options).keptAnswers units =
        ((Session.start options).answers (keptUnits units)).map
        (Answer.rename (Name.renumber numbering)) ∧
      let full := (Session.start options).afterAll (units.map (·.1))
      let short := (Session.start options).afterAll (keptUnits units)
      full.subst = short.subst ∧ full.registry = short.registry ∧ full.env = short.env ∧
        short.names.next ≤ full.names.next := by
  have twin : (Session.start options).Twin 0 (Session.start options) := ⟨rfl, rfl, rfl, rfl, rfl⟩
  obtain ⟨numbering, increases, -, answers, total, final⟩ :=
    twin.exists_numbering .start .start spelled refuses
  exact ⟨numbering, increases, answers numbering increases fun _ _ => rfl, final.subst,
    final.registry, final.env, final.names ▸ Nat.le_add_right _ _⟩

/-- A function of an unknown name, which mints a name for its parameter before it is refused. -/
def refusedFunction : Surface.Decl :=
  .eval default (.lambda default [⟨default, .wild default, .ident default "x"⟩])

def constantFunction : Surface.Decl :=
  .eval default (.lambda default [⟨default, .wild default, .lit default (.bool true)⟩])

/-- The second function has the answer that it has without the first, up to the number in its
parameter. -/
theorem refused_function_invisible :
    ∃ numbering : Nat → Nat, StrictMono numbering ∧
      (Session.start .standard).keptAnswers [(refusedFunction, false), (constantFunction, true)] =
        ((Session.start .standard).answers [constantFunction]).map
          (Answer.rename (Name.renumber numbering)) := by
  have spelled : ∀ unit ∈ [(refusedFunction, false), (constantFunction, true)],
      ∀ name ∈ unit.1.names, name.isMinted = false := by decide
  have refuses : (Session.start .standard).RefusesOthers [(refusedFunction, false),
      (constantFunction, true)] := by
    refine List.forall_mem_cons.mpr ⟨fun _ => ⟨_, rfl⟩, List.forall_mem_singleton.mpr nofun⟩
  obtain ⟨numbering, increases, answers, -⟩ := failed_units_invisible .standard spelled refuses
  exact ⟨numbering, increases, answers⟩

end Session

end PolyCheck
