import PolyCheck.Proofs.Run

/-! Runs along growing worlds. A world says what is known about a state besides the state itself,
and later worlds know more. A run that succeeds reaches a later world, in which the invariant holds
again and the result is as described; what was described earlier has to hold in every later world. A
run that fails may have to stay in the invariant as well. -/
namespace PolyCheck.Run

variable {ε σ τ α β ω : Type} [Preorder ω]

/-- Where the run succeeds, the world has grown so that the invariant and the description hold;
where it fails, and failures count, the invariant holds all the same. -/
def Arrives (failures : Prop) (inv : ω → σ → Prop) (world : ω) (post : ω → α → Prop)
    (run : EStateM ε σ α) : Prop :=
  ∀ state, inv world state →
    match run state with
    | .ok value after => ∃ later, world ≤ later ∧ inv later after ∧ post later value
    | .error _ after => failures → ∃ later, world ≤ later ∧ inv later after

/-- Only success counts. -/
abbrev Reaches (inv : ω → σ → Prop) (world : ω) (post : ω → α → Prop)
    (run : EStateM ε σ α) : Prop :=
  Arrives False inv world post run

/-- The invariant holds wherever the run stops. -/
abbrev Stays (inv : ω → σ → Prop) (world : ω) (post : ω → α → Prop) (run : EStateM ε σ α) : Prop :=
  Arrives True inv world post run

/-- Nothing is said about a result. -/
def unsaid : ω → α → Prop := fun _ _ => True

/-- What holds in a world holds in all later ones. -/
def Lasts (said : ω → α → Prop) : Prop :=
  ∀ {world later : ω} {value : α}, world ≤ later → said world value → said later value

variable {failures : Prop} {inv : ω → σ → Prop} {world : ω} {post : ω → α → Prop}
  {post' : ω → β → Prop} {run : EStateM ε σ α} {next : α → EStateM ε σ β}

theorem reaches_of_ok (shown : ∀ state after value, inv world state → run state = .ok value after →
    ∃ later, world ≤ later ∧ inv later after ∧ post later value) : Reaches inv world post run := by
  intro state kept
  cases result : run state with
  | ok value after => exact shown state after value kept result
  | error error after => exact False.elim

theorem reaches_both {ω' : Type} [Preorder ω'] {inv' : ω' → σ → Prop} {world' : ω'}
    {post' : ω' → α → Prop}
    (first : Reaches inv world post run) (second : Reaches inv' world' post' run) :
    Reaches (fun (both : ω × ω') state => inv both.1 state ∧ inv' both.2 state) (world, world')
      (fun both value => post both.1 value ∧ post' both.2 value) run := by
  refine reaches_of_ok fun state after value kept ended => ?_
  have arrived := first state kept.1
  have arrived' := second state kept.2
  rw [ended] at arrived arrived'
  obtain ⟨later, grown, there, holds⟩ := arrived
  obtain ⟨later', grown', there', holds'⟩ := arrived'
  exact ⟨(later, later'), ⟨grown, grown'⟩, ⟨there, there'⟩, holds, holds'⟩

namespace Arrives

theorem ok (arrives : Arrives failures inv world post run) {state after : σ} {value : α}
    (kept : inv world state) (ended : run state = .ok value after) :
    ∃ later, world ≤ later ∧ inv later after ∧ post later value := by
  have arrived := arrives state kept
  rwa [ended] at arrived

theorem error (arrives : Arrives failures inv world post run) (count : failures)
    {state after : σ} {error : ε}
    (kept : inv world state) (ended : run state = .error error after) :
    ∃ later, world ≤ later ∧ inv later after := by
  have arrived := arrives state kept
  rw [ended] at arrived
  exact arrived count

theorem pure {value : α} (holds : post world value) :
    Arrives failures inv world post (Pure.pure value : EStateM ε σ α) :=
  fun _ kept => ⟨world, le_rfl, kept, holds⟩

theorem throw (error : ε) : Arrives failures inv world post (throw error : EStateM ε σ α) :=
  fun _ kept _ => ⟨world, le_rfl, kept⟩

theorem bind (first : Arrives failures inv world post run)
    (then_ : ∀ {later value}, world ≤ later → post later value →
      Arrives failures inv later post' (next value)) :
    Arrives failures inv world post' (run >>= next) := by
  intro state kept
  have arrived := first state kept
  rw [bind_apply]
  cases result : run state with
  | error error middle =>
    rw [result] at arrived
    exact arrived
  | ok value middle =>
    rw [result] at arrived
    obtain ⟨later, grown, kept', holds⟩ := arrived
    have arrived' := then_ grown holds middle kept'
    dsimp only
    cases result' : next value middle with
    | ok value' after =>
      rw [result'] at arrived'
      obtain ⟨last, grown', rest⟩ := arrived'
      exact ⟨last, grown.trans grown', rest⟩
    | error error after =>
      rw [result'] at arrived'
      intro count
      obtain ⟨last, grown', kept''⟩ := arrived' count
      exact ⟨last, grown.trans grown', kept''⟩

theorem imp {weaker : ω → α → Prop} (arrives : Arrives failures inv world post run)
    (implies : ∀ {later value}, world ≤ later → post later value → weaker later value) :
    Arrives failures inv world weaker run := by
  intro state kept
  have arrived := arrives state kept
  cases result : run state with
  | error error after =>
    rw [result] at arrived
    exact arrived
  | ok value after =>
    rw [result] at arrived
    obtain ⟨later, grown, kept', holds⟩ := arrived
    exact ⟨later, grown, kept', implies grown holds⟩

theorem ahead {later : ω} (grown : world ≤ later)
    (moves : ∀ {state}, inv world state → inv later state)
    (arrives : Arrives failures inv later post run) : Arrives failures inv world post run := by
  intro state kept
  have arrived := arrives state (moves kept)
  cases result : run state with
  | ok value after =>
    rw [result] at arrived
    obtain ⟨last, grown', rest⟩ := arrived
    exact ⟨last, grown.trans grown', rest⟩
  | error error after =>
    rw [result] at arrived
    intro count
    obtain ⟨last, grown', kept'⟩ := arrived count
    exact ⟨last, grown.trans grown', kept'⟩

theorem ensure {test : σ → Bool} {error : ε} {next : Unit → EStateM ε σ β}
    (rest : Arrives failures inv world post' (next ())) :
    Arrives failures inv world post'
      ((do if test (← MonadState.get) then Pure.pure () else MonadExcept.throw error) >>=
        next) := by
  intro state kept
  rw [bind_apply, bind_apply, get_apply]
  dsimp only
  cases test state with
  | true => exact rest state kept
  | false => exact fun _ => ⟨world, le_rfl, kept⟩

theorem get {next : σ → EStateM ε σ β}
    (then_ : ∀ state, inv world state → Arrives failures inv world post' (next state)) :
    Arrives failures inv world post' ((get : EStateM ε σ σ) >>= next) :=
  fun state kept => then_ state kept state kept

theorem set {state : σ} {later : ω} (grown : world ≤ later) (holds : inv later state) :
    Arrives failures inv world unsaid (set state : EStateM ε σ PUnit) :=
  fun _ _ => ⟨later, grown, holds, trivial⟩

theorem modifyGet {change : σ → α × σ}
    (changed : ∀ {state}, inv world state →
      ∃ later, world ≤ later ∧ inv later (change state).2 ∧ post later (change state).1) :
    Arrives failures inv world post (modifyGet change : EStateM ε σ α) :=
  fun _ kept => changed kept

theorem map {change : α → β} (arrives : Arrives failures inv world post run)
    (described : ∀ {later value}, world ≤ later → post later value → post' later (change value)) :
    Arrives failures inv world post' (change <$> run) := by
  rw [map_eq_pure_bind]
  exact arrives.bind fun grown holds => .pure (described grown holds)

theorem forM {items : List α} {visit : α → EStateM ε σ PUnit} (said : ω → α → Prop)
    (lasts : Lasts said) (each : ∀ item ∈ items, said world item)
    (visits : ∀ {later item}, world ≤ later → said later item →
      Arrives failures inv later unsaid (visit item)) :
    Arrives failures inv world unsaid (forM items visit) := by
  induction items generalizing world with
  | nil => exact .pure trivial
  | cons item items ih =>
    rw [List.forM_cons]
    refine (visits le_rfl (each item List.mem_cons_self)).bind fun grown _ => ?_
    exact ih (fun other member => lasts grown (each other (List.mem_cons_of_mem item member)))
      fun grown' => visits (grown.trans grown')

theorem mapM {items : List α} {visit : α → EStateM ε σ β} (said : ω → α → Prop) (lasts : Lasts said)
    (lasts' : Lasts post') (each : ∀ item ∈ items, said world item)
    (visits : ∀ {later item}, world ≤ later → said later item →
      Arrives failures inv later post' (visit item)) :
    Arrives failures inv world (fun later results => ∀ result ∈ results, post' later result)
      (items.mapM visit) := by
  induction items generalizing world with
  | nil => exact .pure nofun
  | cons item items ih =>
    rw [List.mapM_cons]
    refine (visits le_rfl (each item List.mem_cons_self)).bind fun grown first => ?_
    refine (ih (fun other member => lasts grown (each other (List.mem_cons_of_mem item member)))
      fun grown' => visits (grown.trans grown')).bind fun grown' rest => .pure ?_
    exact List.forall_mem_cons.mpr ⟨lasts' grown' first, rest⟩

theorem walk {stop : EStateM ε σ Unit} {visit : Nat → α → EStateM ε σ (List α)}
    {said : ω → α → Prop}
    (lasts : Lasts said) (stopped : ∀ {later}, Arrives failures inv later unsaid stop)
    (visits : ∀ {later} level {item}, said later item →
      Arrives failures inv later (fun last below => ∀ other ∈ below, said last other)
      (visit level item))
    {agenda : Agenda α} (each : ∀ entry ∈ agenda, said world entry.2) :
    Arrives failures inv world unsaid (Agenda.walk stop visit agenda) := by
  have descends : ∀ level {later item}, said later item →
      Arrives failures inv later unsaid (Agenda.descend stop visit level item) := by
    intro level
    induction level with
    | zero => exact fun _ => stopped
    | succ level ih =>
      intro later item holds
      exact (visits _ holds).bind fun _ below => forM said lasts below fun _ => ih
  rw [Agenda.walk_eq_forM]
  exact forM (fun later entry => said later entry.2) (fun grown holds => lasts grown holds) each
    fun _ holds => descends _ holds

theorem forM_each {items : List α} {visit : α → EStateM ε σ PUnit} (said goal : ω → α → Prop)
    (lasts : Lasts said) (lasts' : Lasts goal) (each : ∀ item ∈ items, said world item)
    (visits : ∀ {later item}, said later item →
      Arrives failures inv later (fun last _ => goal last item) (visit item)) :
    Arrives failures inv world (fun last _ => ∀ item ∈ items, goal last item)
    (ForM.forM items visit) := by
  induction items generalizing world with
  | nil => exact .pure nofun
  | cons item items ih =>
    rw [List.forM_cons]
    refine (visits (each item List.mem_cons_self)).bind fun grown first => ?_
    refine (ih fun other member => lasts grown (each other (List.mem_cons_of_mem item member))).imp
      fun grown' rest => ?_
    exact List.forall_mem_cons.mpr ⟨lasts' grown' first, rest⟩

theorem descend {stop : EStateM ε σ Unit} {visit : Nat → α → EStateM ε σ (List α)}
    {said goal : ω → α → Prop} (lasts : Lasts said) (lasts' : Lasts goal)
    (stopped : ∀ {later item}, Arrives failures inv later (fun last _ => goal last item) stop)
    (visits : ∀ {later} level {item}, said later item →
      Arrives failures inv later (fun last below => (∀ other ∈ below, said last other) ∧
        ∀ {final}, last ≤ final → (∀ other ∈ below, goal final other) → goal final item)
        (visit level item)) :
    ∀ level {later item}, said later item →
      Arrives failures inv later (fun last _ => goal last item)
      (Agenda.descend stop visit level item) := by
  intro level
  induction level with
  | zero => exact fun _ => stopped
  | succ level ih =>
    intro later item holds
    refine (visits _ holds).bind fun _ ⟨each, conclude⟩ => ?_
    exact (forM_each said goal lasts lasts' each ih).imp conclude

section State

variable {check : StateT τ (EStateM ε σ) α} {next : α → StateT τ (EStateM ε σ) β} {own : τ}

theorem state_bind {post : ω → α × τ → Prop} {post' : ω → β × τ → Prop}
    (first : Arrives failures inv world post (check own))
    (then_ : ∀ {later value own'}, world ≤ later → post later (value, own') →
      Arrives failures inv later post' (next value own')) :
    Arrives failures inv world post' ((check >>= next) own) :=
  first.bind fun grown holds => then_ grown holds

theorem state_pure {post : ω → α × τ → Prop} {value : α} (holds : post world (value, own)) :
    Arrives failures inv world post ((Pure.pure value : StateT τ (EStateM ε σ) α) own) :=
  .pure holds

theorem state_lift {post' : ω → β × τ → Prop} (first : Arrives failures inv world post run)
    {next : α → StateT τ (EStateM ε σ) β}
    (then_ : ∀ {later value}, world ≤ later → post later value →
      Arrives failures inv later post' (next value own)) :
    Arrives failures inv world post' (((liftM run : StateT τ (EStateM ε σ) α) >>= next) own) := by
  have flat : ((liftM run : StateT τ (EStateM ε σ) α) >>= next) own = run >>= fun value =>
      next value own := by
    funext state
    change ((run >>= fun value => Pure.pure (value, own)) >>= fun (value, own') => next value own')
      state = _
    rw [bind_apply, bind_apply, bind_apply]
    cases run state <;> rfl
  rw [flat]
  exact first.bind then_

theorem state_lifted {post' : ω → α × τ → Prop} (arrives : Arrives failures inv world post run)
    (described : ∀ {later value}, world ≤ later → post later value → post' later (value, own)) :
    Arrives failures inv world post' ((liftM run : StateT τ (EStateM ε σ) α) own) :=
  arrives.bind fun grown holds => .pure (described grown holds)

theorem state_throw {post : ω → α × τ → Prop} (error : ε) :
    Arrives failures inv world post
      ((liftM (MonadExcept.throw error : EStateM ε σ α) : StateT τ (EStateM ε σ) α) own) :=
  fun _ kept _ => ⟨world, le_rfl, kept⟩

theorem state_get {post' : ω → β × τ → Prop} {next : σ → StateT τ (EStateM ε σ) β}
    (then_ : ∀ state, inv world state → Arrives failures inv world post' (next state own)) :
    Arrives failures inv world post'
      (((liftM (MonadState.get : EStateM ε σ σ) : StateT τ (EStateM ε σ) σ) >>= next) own) :=
  fun state kept => then_ state kept state kept

theorem state_own {post' : ω → β × τ → Prop} {next : τ → StateT τ (EStateM ε σ) β}
    (then_ : Arrives failures inv world post' (next own own)) :
    Arrives failures inv world post' (((MonadState.get : StateT τ (EStateM ε σ) τ) >>= next) own) :=
  fun state kept => then_ state kept

theorem state_modify {post' : ω → β × τ → Prop} {change : τ → τ}
    {next : PUnit → StateT τ (EStateM ε σ) β}
    (then_ : Arrives failures inv world post' (next ⟨⟩ (change own))) :
    Arrives failures inv world post'
    (((modify change : StateT τ (EStateM ε σ) PUnit) >>= next) own) :=
  fun state kept => then_ state kept

theorem state_forM {items : List α} {visit : α → StateT τ (EStateM ε σ) PUnit} (said : ω → α → Prop)
    (held : ω → τ → Prop) (lasts : Lasts said) (each : ∀ item ∈ items, said world item)
    (holds : held world own)
    (visits : ∀ {later item own'}, world ≤ later → said later item → held later own' →
      Arrives failures inv later (fun last result => held last result.2) (visit item own')) :
    Arrives failures inv world (fun later result => held later result.2)
    (List.forM items visit own) := by
  induction items generalizing world own with
  | nil => exact .pure holds
  | cons item items ih =>
    refine .state_bind (visits le_rfl (each item List.mem_cons_self) holds) fun grown holds => ?_
    exact ih (fun other member => lasts grown (each other (List.mem_cons_of_mem item member))) holds
      fun grown' => visits (grown.trans grown')

theorem state_mapM {items : List α} {visit : α → StateT τ (EStateM ε σ) β} (said : ω → α → Prop)
    (post' : ω → β → Prop) (held : ω → τ → Prop) (lasts : Lasts said) (lasts' : Lasts post')
    (each : ∀ item ∈ items, said world item)
    (holds : held world own)
    (visits : ∀ {later item own'}, world ≤ later → said later item → held later own' →
      Arrives failures inv later (fun last result => post' last result.1 ∧ held last result.2)
      (visit item own')) :
    Arrives failures inv world
    (fun later results => (∀ result ∈ results.1, post' later result) ∧ held later results.2)
      (items.mapM visit own) := by
  induction items generalizing world own with
  | nil => exact .pure ⟨nofun, holds⟩
  | cons item items ih =>
    rw [List.mapM_cons]
    refine .state_bind (visits le_rfl (each item List.mem_cons_self) holds) fun grown first => ?_
    refine .state_bind
      (ih (fun other member => lasts grown (each other (List.mem_cons_of_mem item member)))
      first.2 fun grown' => visits (grown.trans grown')) fun grown' rest => .state_pure ?_
    exact ⟨List.forall_mem_cons.mpr ⟨lasts' grown' first.1, rest.1⟩, rest.2⟩

end State

end Arrives

end PolyCheck.Run
