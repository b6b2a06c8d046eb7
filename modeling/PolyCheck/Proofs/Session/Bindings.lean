import PolyCheck.Proofs.Run
import PolyCheck.Proofs.Session.Scope
import PolyCheck.Session.Toplevel

/-! The steps of a group of bindings. Its values are checked against placeholders, in a recursive
group with the names in scope at these types; afterwards each placeholder is generalized over what
is not held fixed around the group. An accepted group is read apart once here, whether it is
recursive or not. -/
namespace PolyCheck.Session

open Run

variable {before middle inside after : Session} {bindings : List Surface.Binding}
  {fixed : List TyVar}
  {entries : List (Surface.Binding × (Ty × List TyVar) × Term)} {definitions : List Definition}

theorem noEscape_eq_ok {rigid : List TyVar} {span : Span} {value : Unit} :
    Check.noEscape rigid fixed span before = .ok value after ↔ after = before ∧ ∀ v ∈ rigid,
      v ∉ fixed := by
  rw [Check.noEscape]
  cases found : rigid.find? (fixed.contains ·) with
  | some v =>
    have member := List.mem_of_find?_eq_some found
    have held := List.find?_some found
    constructor
    · intro run
      cases run
    · rintro ⟨-, spared⟩
      exact absurd (by simpa using held) (spared v member)
  | none =>
    have absent := List.find?_eq_none.mp found
    refine ⟨fun run => ⟨(pure_eq_ok.mp run).2.symm, fun v member => by simpa using absent v member⟩,
      ?_⟩
    rintro ⟨rfl, -⟩
    rfl

theorem distinct_of_distinctBindings {seen : List Name} {value : Unit}
    (run : Check.distinctBindings seen bindings before = .ok value after) :
    after = before ∧ (bindings.map (·.name)).Nodup ∧ ∀ binding ∈ bindings, binding.name ∉ seen := by
  induction bindings generalizing seen with
  | nil =>
    obtain ⟨-, rfl⟩ := pure_eq_ok.mp run
    exact ⟨rfl, List.nodup_nil, nofun⟩
  | cons binding bindings ih =>
    rw [Check.distinctBindings] at run
    split at run
    · simp [Check.fail, throw_apply] at run
    · rename_i new
      obtain ⟨rfl, distinct, unseen⟩ := ih run
      refine ⟨rfl, List.nodup_cons.mpr ⟨fun member => ?_, distinct⟩, ?_⟩
      · obtain ⟨other, inside, same⟩ := List.mem_map.mp member
        exact unseen other inside (same ▸ List.mem_cons_self)
      · refine List.forall_mem_cons.mpr ⟨fun member => new (by simpa using member), ?_⟩
        exact fun other inside member => unseen other inside (List.mem_cons_of_mem _ member)

section Generalized

def generalized (subst : Subst) (fixed : List TyVar)
    (entries : List (Surface.Binding × (Ty × List TyVar) × Term)) : List Definition :=
  entries.map fun entry =>
    ⟨entry.1.name, Scheme.generalize subst fixed entry.2.1.1, entry.2.2⟩

theorem generalizeGroup_of_plain (plain : ∀ entry ∈ entries, entry.2.1.2 = []) (session : Session)
    (ends : ∀ entry ∈ entries, Scheme.generalizes session.subst entry.2.1.1 = true) :
    Check.generalizeGroup fixed entries session =
      .ok (generalized session.subst fixed entries) session := by
  induction entries with
  | nil => rfl
  | cons entry entries ih =>
    obtain ⟨binding, ⟨ty, rigid⟩, value⟩ := entry
    obtain ⟨none, others⟩ := List.forall_mem_cons.mp plain
    obtain ⟨here, rest⟩ := List.forall_mem_cons.mp ends
    obtain rfl : rigid = [] := none
    refine bind_eq_ok.mpr ⟨(), session, rfl, Check.ending_bind_eq_ok.mpr ⟨here, ?_⟩⟩
    exact bind_eq_ok.mpr ⟨session, session, rfl, bind_eq_ok.mpr ⟨_, session, ih others rest, rfl⟩⟩

theorem generalizeGroup_eq_ok
    (run : Check.generalizeGroup fixed entries before = .ok definitions after) :
    after = before ∧ definitions = generalized before.subst fixed entries ∧
      ∀ entry ∈ entries, (∀ v ∈ entry.2.1.2, v ∉ fixed) ∧
        Scheme.generalizes before.subst entry.2.1.1 = true := by
  induction entries generalizing definitions with
  | nil =>
    obtain ⟨rfl, rfl⟩ := pure_eq_ok.mp run
    exact ⟨rfl, rfl, List.forall_mem_nil _⟩
  | cons entry entries ih =>
    obtain ⟨binding, ⟨ty, rigid⟩, value⟩ := entry
    obtain ⟨_, _, spared, rest⟩ := bind_eq_ok.mp run
    obtain ⟨rfl, inside⟩ := noEscape_eq_ok.mp spared
    obtain ⟨ends, rest⟩ := Check.ending_bind_eq_ok.mp rest
    obtain ⟨_, _, same, rest⟩ := bind_eq_ok.mp rest
    obtain ⟨rfl, rfl⟩ := EStateM.Result.ok.inj same
    obtain ⟨others, _, below, finish⟩ := bind_eq_ok.mp rest
    obtain ⟨rfl, rfl⟩ := pure_eq_ok.mp finish
    obtain ⟨rfl, rfl, each⟩ := ih below
    exact ⟨rfl, rfl, List.forall_mem_cons.mpr ⟨⟨inside, ends⟩, each⟩⟩

end Generalized

section Steps

variable {recursive : Bool} {values : List Ty → Check (List Term)}
  {placeholders : List (Ty × List TyVar)} {terms : List Term}

/-- The scope of the values of a group: the names of a recursive group are in it at the types of
their placeholders. -/
def entering (session : Session) (recursive : Bool) (names : List Name)
    (types : List Ty) : Session :=
  if recursive then { session with env := session.env.enter (names.zip (types.map .mono)) }
    else session

def leaving (session : Session) (recursive : Bool) : Session :=
  if recursive then { session with env := session.env.pop.2 } else session

@[simp] theorem subst_entering (session : Session) (recursive : Bool) (names : List Name)
    (types : List Ty) : (session.entering recursive names types).subst = session.subst := by
  cases recursive <;> rfl

@[simp] theorem subst_leaving (session : Session) (recursive : Bool) :
    (session.leaving recursive).subst = session.subst := by
  cases recursive <;> rfl

/-- An accepted group: the placeholders, the values that were checked against them, and the
variables that are held fixed when the group is generalized, as they are free in the scopes around
it. -/
structure GroupSteps (recursive : Bool) (bindings : List Surface.Binding)
    (values : List Ty → Check (List Term))
    (before : Session) (placeholders : List (Ty × List TyVar)) (middle : Session)
    (terms : List Term)
    (inside : Session) (fixed : List TyVar) (definitions : List Definition)
    (after : Session) : Prop where
  distinct : (bindings.map (·.name)).Nodup
  placed : bindings.mapM Check.placeholder before = .ok placeholders middle
  checked : values (placeholders.map (·.1))
    (middle.entering recursive (bindings.map (·.name)) (placeholders.map (·.1))) = .ok terms inside
  walkable : inside.env.walkableBelow middle.env.depth inside.subst = true
  held : fixed = inside.env.freeVarsBelow middle.env.depth inside.subst
  defined : definitions = generalized inside.subst fixed (bindings.zip (placeholders.zip terms))
  spared : ∀ entry ∈ bindings.zip (placeholders.zip terms), ∀ v ∈ entry.2.1.2, v ∉ fixed
  ends : ∀ entry ∈ bindings.zip (placeholders.zip terms),
    Scheme.generalizes inside.subst entry.2.1.1 = true
  valid : recursive = true → Term.validateGroup definitions (bindings.map (·.span)) = .ok ()
  left : after = inside.leaving recursive

theorem groupWith_eq_ok
    (run : Check.groupWith recursive bindings values before = .ok definitions after) :
    ∃ placeholders middle terms inside fixed,
      GroupSteps recursive bindings values before placeholders middle terms inside fixed
        definitions after := by
  unfold Check.groupWith at run
  obtain ⟨_, _, distinct, rest⟩ := bind_eq_ok.mp run
  obtain ⟨rfl, distinct, -⟩ := distinct_of_distinctBindings distinct
  obtain ⟨placeholders, middle, placed, rest⟩ := bind_eq_ok.mp rest
  obtain ⟨_, _, same, rest⟩ := bind_eq_ok.mp rest
  obtain ⟨rfl, rfl⟩ := EStateM.Result.ok.inj same
  -- The values are checked alike in both kinds of groups, up to the scope.
  have values_eq_ok : ∀ {span : Span} {start last : Session} {found : List Term × List TyVar},
      (do
        let terms ← values (placeholders.map (·.1))
        Check.ending .endless (fun session => session.env.walkableBelow middle.env.depth
          session.subst) span
        let session ← get
        pure (terms, session.env.freeVarsBelow middle.env.depth session.subst) : Check _) start =
          .ok found last →
      values (placeholders.map (·.1)) start = .ok found.1 last ∧
        last.env.walkableBelow middle.env.depth last.subst = true ∧
        found.2 = last.env.freeVarsBelow middle.env.depth last.subst := by
    intro span start last found inferred
    obtain ⟨terms, inside, checked, ended⟩ := bind_eq_ok.mp inferred
    obtain ⟨walkable, ended⟩ := Check.ending_bind_eq_ok.mp ended
    obtain ⟨_, _, same, ended⟩ := bind_eq_ok.mp ended
    obtain ⟨rfl, rfl⟩ := EStateM.Result.ok.inj same
    obtain ⟨rfl, rfl⟩ := pure_eq_ok.mp ended
    exact ⟨checked, walkable, rfl⟩
  cases recursive with
  | false =>
    obtain ⟨⟨terms, fixed⟩, inside, inferred, finish⟩ := bind_eq_ok.mp rest
    obtain ⟨checked, walkable, held⟩ := values_eq_ok inferred
    obtain ⟨general, _, generalized, ended⟩ := bind_eq_ok.mp finish
    obtain ⟨rfl, rfl⟩ := pure_eq_ok.mp ended
    obtain ⟨rfl, defined, each⟩ := generalizeGroup_eq_ok generalized
    have spared := fun entry member => (each entry member).1
    have ends := fun entry member => (each entry member).2
    exact ⟨placeholders, middle, terms, _, fixed, distinct, placed, checked, walkable, held,
      defined, spared, ends, nofun, rfl⟩
  | true =>
    obtain ⟨⟨terms, fixed⟩, _, entered, finish⟩ := bind_eq_ok.mp rest
    obtain ⟨inside, inferred, rfl⟩ := inScope_eq_ok.mp entered
    obtain ⟨checked, walkable, held⟩ := values_eq_ok inferred
    obtain ⟨general, _, generalized, ended⟩ := bind_eq_ok.mp finish
    obtain ⟨rfl, defined, each⟩ := generalizeGroup_eq_ok generalized
    have spared := fun entry member => (each entry member).1
    have ends := fun entry member => (each entry member).2
    simp only [if_true] at ended
    cases validated : Term.validateGroup general (bindings.map (·.span)) with
    | error error => simp [validated, throw_apply] at ended
    | ok _ =>
      rw [validated] at ended
      obtain ⟨rfl, rfl⟩ := pure_eq_ok.mp ended
      exact ⟨placeholders, middle, terms, inside, fixed, distinct, placed, checked, walkable, held,
        defined, spared, ends, fun _ => validated, rfl⟩

end Steps

end PolyCheck.Session
