import Mathlib
import PolyCheck.Agenda

/-! Runs of computations with a state that also remains after an error: what each of the operations
gives when it is started in a state, and what it takes for a run to keep an invariant of the state
in any case and to give a result of some kind when it succeeds. -/
namespace PolyCheck.Run

variable {ε σ α β : Type}

theorem bind_apply (first : EStateM ε σ α) (next : α → EStateM ε σ β) (state : σ) :
    (first >>= next) state =
      match first state with
      | .ok value state' => next value state'
      | .error error state' => .error error state' := rfl

theorem bind_eq_ok {first : EStateM ε σ α} {next : α → EStateM ε σ β} {state after : σ}
    {value : β} : (first >>= next) state = .ok value after ↔
      ∃ found middle, first state = .ok found middle ∧ next found middle = .ok value after := by
  rw [bind_apply]
  cases first state with
  | ok found middle =>
    constructor
    · exact fun run => ⟨found, middle, rfl, run⟩
    · rintro ⟨found', middle', same, run⟩
      obtain ⟨rfl, rfl⟩ := EStateM.Result.ok.inj same
      exact run
  | error error middle => simp

theorem bind_eq_error {first : EStateM ε σ α} {next : α → EStateM ε σ β} {state after : σ}
    {error : ε} : (first >>= next) state = .error error after ↔ first state = .error error after ∨
      ∃ found middle, first state = .ok found middle ∧ next found middle = .error error after := by
  rw [bind_apply]
  cases first state with
  | ok found middle =>
    constructor
    · exact fun run => .inr ⟨found, middle, rfl, run⟩
    · rintro (run | ⟨found', middle', same, run⟩)
      · cases run
      · obtain ⟨rfl, rfl⟩ := EStateM.Result.ok.inj same
        exact run
  | error error middle => simp

theorem map_eq_ok {run : EStateM ε σ α} {change : α → β} {state after : σ} {value : β} :
    (change <$> run) state = .ok value after ↔ ∃ found, run state = .ok found after ∧
      value = change found := by
  rw [map_eq_pure_bind, bind_eq_ok]
  constructor
  · rintro ⟨found, middle, here, ended⟩
    obtain ⟨rfl, rfl⟩ := EStateM.Result.ok.inj ended
    exact ⟨found, here, rfl⟩
  · rintro ⟨found, here, rfl⟩
    exact ⟨found, after, here, rfl⟩

/-- Whether a run ends well, with a result and in a state that pass a test. -/
def gives (test : α → σ → Bool) : EStateM.Result ε σ α → Bool
  | .ok value state => test value state
  | .error _ _ => false

theorem exists_of_gives {test : α → σ → Bool} {result : EStateM.Result ε σ α}
    (shown : gives test result = true) :
    ∃ value state, result = .ok value state ∧ test value state = true := by
  cases result with
  | ok value state => exact ⟨value, state, rfl, shown⟩
  | error error state => exact absurd shown Bool.false_ne_true

theorem state_bind_eq_ok {τ : Type} {first : StateT τ (EStateM ε σ) α}
    {next : α → StateT τ (EStateM ε σ) β} {own own' : τ} {state after : σ} {value : β} :
    (first >>= next) own state = .ok (value, own') after ↔
      ∃ found own'' middle, first own state = .ok (found, own'') middle ∧
        next found own'' middle = .ok (value, own') after := by
  change (first own >>= fun (found, own'') => next found own'') state = _ ↔ _
  rw [bind_eq_ok, Prod.exists]

theorem state_lift_bind_eq_ok {τ : Type} {first : EStateM ε σ α}
    {next : α → StateT τ (EStateM ε σ) β} {own own' : τ} {state after : σ} {value : β} :
    ((liftM first : StateT τ (EStateM ε σ) α) >>= next) own state = .ok (value, own') after ↔
      ∃ found middle, first state = .ok found middle ∧
        next found own middle = .ok (value, own') after := by
  change ((first >>= fun found => pure (found, own)) >>= fun (found, own'') =>
    next found own'') state = _ ↔ _
  rw [bind_eq_ok]
  constructor
  · rintro ⟨⟨found, own''⟩, middle, run, rest⟩
    obtain ⟨found', middle', here, same⟩ := bind_eq_ok.mp run
    obtain ⟨pair, rfl⟩ := EStateM.Result.ok.inj same
    obtain ⟨rfl, rfl⟩ := Prod.mk.inj pair
    exact ⟨found', middle', here, rest⟩
  · rintro ⟨found, middle, run, rest⟩
    exact ⟨(found, own), middle, bind_eq_ok.mpr ⟨found, middle, run, rfl⟩, rest⟩

theorem state_pure_eq_ok {τ : Type} {result value : α} {own own' : τ} {state after : σ} :
    (pure result : StateT τ (EStateM ε σ) α) own state = .ok (value, own') after ↔
      result = value ∧ own = own' ∧ state = after := by
  change EStateM.Result.ok (result, own) state = .ok (value, own') after ↔ _
  simp [and_assoc]

theorem pure_eq_ok {result value : α} {state after : σ} :
    (pure result : EStateM ε σ α) state = .ok value after ↔ result = value ∧ state = after := by
  change EStateM.Result.ok result state = .ok value after ↔ _
  simp

theorem map_apply (change : α → β) (first : EStateM ε σ α) (state : σ) :
    (change <$> first) state =
      match first state with
      | .ok value state' => .ok (change value) state'
      | .error error state' => .error error state' := rfl

theorem pure_apply (value : α) (state : σ) : (pure value : EStateM ε σ α) state = .ok value state :=
  rfl

theorem get_apply (state : σ) : (get : EStateM ε σ σ) state = .ok state state := rfl

theorem throw_apply (error : ε) (state : σ) :
    (throw error : EStateM ε σ α) state = .error error state :=
  rfl

/-- The invariant survives the run, also a failed one, and a result is as described. -/
def Keeps (inv : σ → Prop) (post : α → Prop) (run : EStateM ε σ α) : Prop :=
  ∀ state : σ, inv state →
    match run state with
    | .ok value after => inv after ∧ post value
    | .error _ after => inv after

/-- A result about which nothing is said. -/
def anything : α → Prop := fun _ => True

variable {inv : σ → Prop} {post : α → Prop} {post' : β → Prop} {run : EStateM ε σ α}
  {next : α → EStateM ε σ β}

theorem Keeps.weaken (keeps : Keeps inv post run) : Keeps inv anything run := by
  intro state holds
  have after := keeps state holds
  cases result : run state with
  | ok value after' =>
    rw [result] at after
    exact ⟨after.1, trivial⟩
  | error error after' =>
    rw [result] at after
    exact after

theorem Keeps.bind (first : Keeps inv post run)
    (then_ : ∀ {value}, post value → Keeps inv post' (next value)) :
    Keeps inv post' (run >>= next) := by
  intro state holds
  have after := first state holds
  rw [bind_apply]
  cases result : run state with
  | ok value after' =>
    rw [result] at after
    exact then_ after.2 after' after.1
  | error error after' =>
    rw [result] at after
    exact after

theorem Keeps.pure {value : α} (holds : post value) :
    Keeps inv post (Pure.pure value : EStateM ε σ α) :=
  fun _ kept => ⟨kept, holds⟩

theorem Keeps.throw (error : ε) : Keeps inv post (throw error : EStateM ε σ α) :=
  fun _ holds => holds

theorem Keeps.get : Keeps inv inv (get : EStateM ε σ σ) :=
  fun _ holds => ⟨holds, holds⟩

theorem Keeps.set {state : σ} (holds : inv state) :
    Keeps inv anything (set state : EStateM ε σ PUnit) :=
  fun _ _ => ⟨holds, trivial⟩

theorem Keeps.map (keeps : Keeps inv post run) (change : α → β) :
    Keeps inv anything (change <$> run) := by
  rw [map_eq_pure_bind]
  exact keeps.bind fun _ => .pure trivial

theorem Keeps.forM {items : List α} {visit : α → EStateM ε σ PUnit}
    (each : ∀ item ∈ items, Keeps inv anything (visit item)) :
    Keeps inv anything (forM items visit) := by
  induction items with
  | nil => exact .pure trivial
  | cons item items ih =>
    rw [List.forM_cons]
    exact (each item List.mem_cons_self).bind fun _ =>
      ih fun other member => each other (List.mem_cons_of_mem item member)

theorem Keeps.mapM {items : List α} {visit : α → EStateM ε σ β}
    (each : ∀ item ∈ items, Keeps inv post' (visit item)) :
    Keeps inv (fun results => ∀ result ∈ results, post' result) (items.mapM visit) := by
  induction items with
  | nil => exact .pure nofun
  | cons item items ih =>
    rw [List.mapM_cons]
    refine (each item List.mem_cons_self).bind fun {value} first => ?_
    refine (ih fun other member => each other (List.mem_cons_of_mem item member)).bind
      fun {values} rest => .pure fun result member => ?_
    rcases List.mem_cons.mp member with rfl | member
    · exact first
    · exact rest result member

theorem Keeps.walk {stop : EStateM ε σ Unit} {visit : Nat → α → EStateM ε σ (List α)}
    (stopped : Keeps inv anything stop)
    (visited : ∀ level item, Keeps inv anything (visit level item)) (agenda : Agenda α) :
    Keeps inv anything (Agenda.walk stop visit agenda) := by
  have descends : ∀ level item, Keeps inv anything (Agenda.descend stop visit level item) := by
    intro level
    induction level with
    | zero => exact fun _ => stopped
    | succ level ih => exact fun item =>
      (visited _ item).bind fun _ => .forM fun other _ => ih other
  rw [Agenda.walk_eq_forM]
  exact .forM fun entry _ => descends entry.1 entry.2

end PolyCheck.Run
