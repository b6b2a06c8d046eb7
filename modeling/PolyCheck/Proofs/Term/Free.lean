import PolyCheck.Proofs.Term.Shallow

/-! Free names of terms, and the search for them. A match binds the names that some alternative of a
pattern captures, and where all alternatives of a choice capture the same names these are the names
of the first ones. The search keeps the names that are bound around the place it has come to on one
stack. Whatever it visits, and wherever it ends early, it takes off what it put there, so that the
places behind see the names around them and no others. -/
namespace PolyCheck

namespace Pat

inductive Binds (name : Name) : Pat → Prop where
  | wild : Binds name (.wild (some name))
  | tuple {elems : List Pat} {p : Pat} (member : p ∈ elems) (inside : Binds name p) :
      Binds name (.tuple elems)
  | ctor {ctor : Name} {template : TemplateId} {index : Nat} {args : List Pat} {p : Pat}
      (member : p ∈ args) (inside : Binds name p) : Binds name (.ctor ctor template index args)
  | oneOf {alternatives : List Pat} {p : Pat} (member : p ∈ alternatives) (inside : Binds name p) :
    Binds name (.oneOf alternatives)

/-- All alternatives of every choice capture the same names. -/
def SameNames (p : Pat) : Prop :=
  p.Every fun q => ∀ alternatives, q = oneOf alternatives →
    ∀ first ∈ alternatives, ∀ second ∈ alternatives, ∀ name, Binds name first → Binds name second

variable {name : Name} {p : Pat} {ps : List Pat}

theorem binds_wild {capture : Option Name} : Binds name (.wild capture) ↔ capture = some name := by
  constructor
  · rintro ⟨⟩
    rfl
  · rintro rfl
    exact .wild

theorem binds_tuple : Binds name (.tuple ps) ↔ ∃ p ∈ ps, Binds name p := by
  constructor
  · rintro ⟨⟩
    exact ⟨_, ‹_›, ‹_›⟩
  · rintro ⟨p, member, inside⟩
    exact .tuple member inside

mutual

theorem binds_of_mem_captures : ∀ p : Pat, name ∈ p.captures → Binds name p
  | .wild none, captured => by cases captured
  | .wild (some other), captured => by
    rw [List.mem_singleton.mp captured]
    exact .wild
  | .bool _, captured => by cases captured
  | .int _ _, captured => by cases captured
  | .str _, captured => by cases captured
  | .tuple elems, captured => by
    obtain ⟨p, member, inside⟩ := exists_binds_of_mem_capturesAll elems captured
    exact .tuple member inside
  | .ctor _ _ _ args, captured => by
    obtain ⟨p, member, inside⟩ := exists_binds_of_mem_capturesAll args captured
    exact .ctor member inside
  | .oneOf [], captured => by cases captured
  | .oneOf (first :: _), captured =>
    .oneOf List.mem_cons_self (binds_of_mem_captures first captured)

theorem exists_binds_of_mem_capturesAll : ∀ ps : List Pat, name ∈ capturesAll ps → ∃ p ∈ ps,
    Binds name p
  | [], captured => by cases captured
  | p :: ps, captured => by
    rcases List.mem_append.mp captured with here | later
    · exact ⟨p, List.mem_cons_self, binds_of_mem_captures p here⟩
    · obtain ⟨q, member, inside⟩ := exists_binds_of_mem_capturesAll ps later
      exact ⟨q, List.mem_cons_of_mem p member, inside⟩

end

mutual

theorem mem_captures_of_binds : ∀ p : Pat, p.SameNames → Binds name p → name ∈ p.captures
  | .wild _, _, binds => by
    rw [binds_wild.mp binds]
    exact List.mem_singleton_self name
  | .bool _, _, binds => by cases binds
  | .int _ _, _, binds => by cases binds
  | .str _, _, binds => by cases binds
  | .tuple elems, same, binds => by
    cases binds with
    | tuple member inside =>
      exact mem_capturesAll_of_binds elems (fun q inElems => same.fields inElems) member inside
  | .ctor _ _ _ args, same, binds => by
    cases binds with
    | ctor member inside =>
      exact mem_capturesAll_of_binds args (fun q inArgs => same.fields inArgs) member inside
  | .oneOf [], _, binds => by
    cases binds with
    | oneOf member _ => cases member
  | .oneOf (first :: rest), same, binds => by
    cases binds with
    | oneOf member inside =>
      have binds := same.self _ rfl _ member first List.mem_cons_self name inside
      exact mem_captures_of_binds first (same.choice List.mem_cons_self) binds

theorem mem_capturesAll_of_binds : ∀ (ps : List Pat) {p : Pat}, (∀ q ∈ ps, q.SameNames) → p ∈ ps →
    Binds name p → name ∈ capturesAll ps
  | [], _, _, member, _ => by cases member
  | q :: ps, p, same, member, binds => by
    obtain ⟨here, others⟩ := List.forall_mem_cons.mp same
    rcases List.mem_cons.mp member with same | later
    · exact List.mem_append_left _ (mem_captures_of_binds q here (same ▸ binds))
    · exact List.mem_append_right _ (mem_capturesAll_of_binds ps others later binds)

end

theorem SameNames.mem_captures (same : p.SameNames) : name ∈ p.captures ↔ Binds name p :=
  ⟨binds_of_mem_captures p, mem_captures_of_binds p same⟩

end Pat

namespace Term

section Free

/-- The name occurs in the term at a place around which nothing binds it. -/
inductive Free (name : Name) : Term → Prop where
  | var {ty : Ty} : Free name (.var name ty)
  | tuple {elems : List Term} {ty : Ty} {term : Term} (member : term ∈ elems)
      (inside : Free name term) : Free name (.tuple elems ty)
  | ctor {ctor : Name} {template : TemplateId} {index : Nat} {arg : Term} {ty : Ty}
      (inside : Free name arg) : Free name (.ctor ctor template index (some arg) ty)
  | func {func arg : Term} {ty : Ty} (inside : Free name func) : Free name (.app func arg ty)
  | arg {func arg : Term} {ty : Ty} (inside : Free name arg) : Free name (.app func arg ty)
  | lambda {param : Name} {paramTy : Ty} {body : Term} {ty : Ty} (other : name ≠ param)
      (inside : Free name body) : Free name (.lambda param paramTy body ty)
  | value {recursive : Bool} {definitions : List Definition} {body : Term} {ty : Ty}
      {definition : Definition}
    (member : definition ∈ definitions) (unbound : recursive = true →
      name ∉ definitions.map (·.name))
    (inside : Free name definition.value) : Free name (.letIn recursive definitions body ty)
  | body {recursive : Bool} {definitions : List Definition} {body : Term} {ty : Ty}
    (unbound : name ∉ definitions.map (·.name)) (inside : Free name body) :
    Free name (.letIn recursive definitions body ty)
  | scrutinee {scrutinee : Term} {arms : List Arm} {ty : Ty} (inside : Free name scrutinee) :
    Free name (.matchOn scrutinee arms ty)
  | arm {scrutinee : Term} {arms : List Arm} {ty : Ty} {arm : Arm} (member : arm ∈ arms)
    (unbound : ¬ arm.pat.Binds name) (inside : Free name arm.body) :
      Free name (.matchOn scrutinee arms ty)

variable {name : Name} {term : Term}

/-- The cases of every match choose between alternatives that capture the same names. -/
def SameNames (term : Term) : Prop := term.EachMatch fun _ pats => ∀ p ∈ pats, p.SameNames

theorem Free.reads (free : term.Free name) : term.Reads name := by
  induction free with
  | var => rfl
  | tuple member _ ih => exact readsAny_iff.mpr ⟨_, member, ih⟩
  | ctor _ ih => exact ih
  | func _ ih => exact .inl ih
  | arg _ ih => exact .inr ih
  | lambda other _ ih => exact ⟨other, ih⟩
  | value member unbound _ ih => exact .inl ⟨unbound, readsDefinitions_iff.mpr ⟨_, member, ih⟩⟩
  | body unbound _ ih => exact .inr ⟨unbound, ih⟩
  | scrutinee _ ih => exact .inl ih
  | arm member unbound _ ih =>
    exact .inr (readsArms_iff.mpr ⟨_, member,
        fun captured => unbound (Pat.binds_of_mem_captures _ captured), ih⟩)

mutual

theorem free_of_reads : ∀ term : Term, term.SameNames → term.Reads name → term.Free name
  | .var _ _, _, reads => by
    rw [Reads] at reads
    subst reads
    exact .var
  | .lit _ _, _, reads => reads.elim
  | .failure _, _, reads => reads.elim
  | .tuple elems _, same, reads => by
    obtain ⟨term, member, inside⟩ := exists_free_of_readsAny elems same reads
    exact .tuple member inside
  | .ctor _ _ _ none _, _, reads => reads.elim
  | .ctor _ _ _ (some arg) _, same, reads => .ctor (free_of_reads arg same reads)
  | .app func arg _, same, reads => by
    rcases reads with inFunc | inArg
    · exact .func (free_of_reads func same.1 inFunc)
    · exact .arg (free_of_reads arg same.2 inArg)
  | .lambda _ _ body _, same, reads => .lambda reads.1 (free_of_reads body same reads.2)
  | .letIn _ definitions body _, same, reads => by
    rcases reads with ⟨unbound, inValues⟩ | ⟨unbound, inBody⟩
    · obtain ⟨definition, member, inside⟩ :=
        exists_free_of_readsDefinitions definitions same.1 inValues
      exact .value member unbound inside
    · exact .body unbound (free_of_reads body same.2 inBody)
  | .matchOn scrutinee arms _, same, reads => by
    obtain ⟨first, pats, bodies⟩ := same
    rcases reads with inScrutinee | inArms
    · exact .scrutinee (free_of_reads scrutinee first inScrutinee)
    · obtain ⟨arm, member, uncaptured, inside⟩ := exists_free_of_readsArms arms bodies inArms
      have same := pats arm.pat (List.mem_map_of_mem member)
      exact .arm member (fun binds => uncaptured (same.mem_captures.mpr binds)) inside

theorem exists_free_of_readsAny : ∀ terms : List Term,
    EachMatchAll (fun _ pats => ∀ p ∈ pats, p.SameNames) terms →
    ReadsAny name terms → ∃ term ∈ terms, term.Free name
  | [], _, reads => reads.elim
  | term :: terms, same, reads => by
    rcases reads with here | later
    · exact ⟨term, List.mem_cons_self, free_of_reads term same.1 here⟩
    · obtain ⟨other, member, inside⟩ := exists_free_of_readsAny terms same.2 later
      exact ⟨other, List.mem_cons_of_mem term member, inside⟩

theorem exists_free_of_readsDefinitions : ∀ definitions : List Definition,
    EachMatchDefinitions (fun _ pats => ∀ p ∈ pats, p.SameNames) definitions →
    ReadsDefinitions name definitions → ∃ definition ∈ definitions, definition.value.Free name
  | [], _, reads => reads.elim
  | ⟨other, scheme, value⟩ :: definitions, same, reads => by
    rcases reads with here | later
    · exact ⟨_, List.mem_cons_self, free_of_reads value same.1 here⟩
    · obtain ⟨definition, member, inside⟩ :=
        exists_free_of_readsDefinitions definitions same.2 later
      exact ⟨definition, List.mem_cons_of_mem _ member, inside⟩

theorem exists_free_of_readsArms : ∀ arms : List Arm,
    EachMatchArms (fun _ pats => ∀ p ∈ pats, p.SameNames) arms →
    ReadsArms name arms → ∃ arm ∈ arms, name ∉ arm.pat.captures ∧ arm.body.Free name
  | [], _, reads => reads.elim
  | ⟨pat, body⟩ :: arms, same, reads => by
    rcases reads with ⟨uncaptured, here⟩ | later
    · exact ⟨_, List.mem_cons_self, uncaptured, free_of_reads body same.1 here⟩
    · obtain ⟨arm, member, inside⟩ := exists_free_of_readsArms arms same.2 later
      exact ⟨arm, List.mem_cons_of_mem _ member, inside⟩

end

theorem SameNames.free_iff_reads (same : term.SameNames) : term.Free name ↔ term.Reads name :=
  ⟨Free.reads, free_of_reads term same⟩

end Free

section Search

/-- A search that works on the stack of the names that are bound around it. -/
abbrev Search := StateM (Array Name) Bool

/-- The second search, unless the first one has found something. -/
def Search.orElse (first second : Search) : Search := do
  if ← first then pure true else second

/-- The search below more names, which are taken off the stack behind it. -/
def Search.under (names : List Name) (search : Search) : Search := do
  let depth := (← get).size
  modify (· ++ names.toArray)
  let found ← search
  modify (·.take depth)
  pure found

mutual

/-- Looks for a name of the group at a place where it is not on the stack. -/
def search (group : List Name) : Term → Search
  | var name _ => do pure (group.contains name && !(← get).contains name)
  | lit _ _ => pure false
  | failure _ => pure false
  | tuple elems _ => searchAny group elems
  | ctor _ _ _ arg _ => searchOption group arg
  | app func arg _ => (search group func).orElse (search group arg)
  | lambda param _ body _ => do
    modify (·.push param)
    let found ← search group body
    modify (·.pop)
    pure found
  | letIn recursive definitions body _ => do
    let depth := (← get).size
    let names := (definitions.map (·.name)).toArray
    if recursive then modify (· ++ names)
    let inValues ← searchDefinitions group definitions
    if !recursive then modify (· ++ names)
    let found ← Search.orElse (pure inValues) (search group body)
    modify (·.take depth)
    pure found
  | matchOn scrutinee arms _ => (search group scrutinee).orElse (searchArms group arms)

def searchAny (group : List Name) : List Term → Search
  | [] => pure false
  | term :: terms => (search group term).orElse (searchAny group terms)

def searchOption (group : List Name) : Option Term → Search
  | none => pure false
  | some term => search group term

def searchDefinitions (group : List Name) : List Definition → Search
  | [] => pure false
  | ⟨_, _, value⟩ :: rest => (search group value).orElse (searchDefinitions group rest)

def searchArms (group : List Name) : List Arm → Search
  | [] => pure false
  | ⟨pat, body⟩ :: rest => ((search group body).under pat.captures).orElse (searchArms group rest)

end

def Search.Answers (search : Search) (answer : List Name → Bool) : Prop :=
  ∀ stack : Array Name, search.run stack = (answer stack.toList, stack)

variable {first second : Search} {answer answer' : List Name → Bool}

theorem Search.Answers.pure (found : Bool) : Answers (Pure.pure found) fun _ => found :=
  fun _ => rfl

theorem Search.Answers.orElse (fst : first.Answers answer) (snd : second.Answers answer') :
    (first.orElse second).Answers fun hidden => answer hidden || answer' hidden := by
  intro stack
  change (if (first.run stack).1 = true then (Pure.pure true : Search) else second).run
    (first.run stack).2 = (answer stack.toList || answer' stack.toList, stack)
  rw [fst stack]
  cases answer stack.toList with
  | true => rfl
  | false => exact snd stack

/-- What is below more names is done with the stack that holds them, and without them behind it. -/
theorem Search.Answers.under (names : List Name) (inside : first.Answers answer) :
    (first.under names).Answers fun hidden => answer (hidden ++ names) := by
  intro stack
  change ((first.run (stack ++ names.toArray)).1,
    (first.run (stack ++ names.toArray)).2.take stack.size) = _
  rw [inside]
  simp

theorem mentions_congr {hidden hidden' : List Name} (same : ∀ name, name ∈ hidden ↔ name ∈ hidden')
    (group : List Name)
    (term : Term) : term.mentions group hidden = term.mentions group hidden' := by
  rw [Bool.eq_iff_iff, mentions_iff, mentions_iff]
  exact exists_congr fun name => and_congr_right fun _ => and_congr_left' (not_congr (same name))

theorem mentions_append_comm (group names hidden : List Name) (term : Term) :
    term.mentions group (hidden ++ names) = term.mentions group (names ++ hidden) :=
  mentions_congr (fun _ => by rw [List.mem_append, List.mem_append, or_comm]) group term

theorem mentionsDefinitions_append_comm (group names hidden : List Name)
    (definitions : List Definition) :
    mentionsDefinitions group (hidden ++ names) definitions = mentionsDefinitions group
    (names ++ hidden) definitions := by
  induction definitions with
  | nil => rfl
  | cons definition definitions ih =>
    obtain ⟨name, scheme, value⟩ := definition
    rw [mentionsDefinitions, mentionsDefinitions, ih, mentions_append_comm]

mutual

theorem search_answers (group : List Name) : ∀ term : Term,
    (search group term).Answers fun hidden => term.mentions group hidden
  | .var name _ => fun stack => by
    change (group.contains name && !stack.contains name, stack) = _
    simp [mentions]
  | .lit _ _ => .pure false
  | .failure _ => .pure false
  | .tuple elems _ => searchAny_answers group elems
  | .ctor _ _ _ none _ => .pure false
  | .ctor _ _ _ (some arg) _ => search_answers group arg
  | .app func arg _ => (search_answers group func).orElse (search_answers group arg)
  | .lambda param _ body _ => fun stack => by
    change (((search group body).run (stack.push param)).1,
      ((search group body).run (stack.push param)).2.pop) = _
    rw [search_answers group body]
    simp [mentions, mentions_append_comm group [param]]
  | .letIn true definitions body _ => by
    have inside :=
      ((searchDefinitions_answers group definitions).orElse (search_answers group body)).under
      (definitions.map (·.name))
    intro stack
    refine (inside stack).trans ?_
    simp only [mentions, if_true, mentions_append_comm, mentionsDefinitions_append_comm]
  | .letIn false definitions body _ => fun stack => by
    have inValues := searchDefinitions_answers group definitions stack
    change
      (let values := (searchDefinitions group definitions).run stack
      let outcome := (Search.orElse (pure values.1) (search group body)).run
        (values.2 ++ (definitions.map (·.name)).toArray)
      (outcome.1, outcome.2.take stack.size)) = _
    rw [inValues]
    dsimp only
    rw [(Search.Answers.pure _).orElse (search_answers group body)]
    simp [mentions, mentions_append_comm]
  | .matchOn scrutinee arms _ =>
    (search_answers group scrutinee).orElse (searchArms_answers group arms)

theorem searchAny_answers (group : List Name) : ∀ terms : List Term,
    (searchAny group terms).Answers fun hidden => mentionsAny group hidden terms
  | [] => .pure false
  | term :: terms => (search_answers group term).orElse (searchAny_answers group terms)

theorem searchDefinitions_answers (group : List Name) : ∀ definitions : List Definition,
    (searchDefinitions group definitions).Answers fun hidden => mentionsDefinitions group
      hidden definitions
  | [] => .pure false
  | ⟨_, _, value⟩ :: rest =>
    (search_answers group value).orElse (searchDefinitions_answers group rest)

theorem searchArms_answers (group : List Name) : ∀ arms : List Arm,
    (searchArms group arms).Answers fun hidden => mentionsArms group hidden arms
  | [] => .pure false
  | ⟨pat, body⟩ :: rest => by
    have here := (search_answers group body).under pat.captures
    have same : (fun hidden => body.mentions group (hidden ++ pat.captures)) =
        fun hidden => body.mentions group (pat.captures ++ hidden) :=
      funext fun hidden => mentions_append_comm group pat.captures hidden body
    exact (same ▸ here).orElse (searchArms_answers group rest)

end

end Search

/-- A term mentions a group when a name of the group is free in it, and the search for it leaves its
stack as it was. -/
theorem mentions_exact {term : Term} (same : term.SameNames) (group : List Name) :
    (term.mentions group [] = true ↔ ∃ name ∈ group, term.Free name) ∧
      ∀ stack : Array Name,
      (search group term).run stack = (term.mentions group stack.toList, stack) := by
  refine ⟨?_, search_answers group term⟩
  rw [mentions_iff]
  exact exists_congr fun name => and_congr_right fun _ => by simp [same.free_iff_reads]

/-- A case that binds two names in either order, behind a scrutinee that is one of them. -/
def swapped : Term :=
  .matchOn (.var "y" .unit)
    [⟨.oneOf [.tuple [.capturing "x", .capturing "y"], .tuple [.capturing "y", .capturing "x"]],
      .app (.var "x" .unit) (.var "y" .unit) .unit⟩] .unit

theorem sameNames_swapped : swapped.SameNames := by
  have binds : ∀ {first second name : Name},
    Pat.Binds name (.tuple [.capturing first, .capturing second]) ↔
      first = name ∨ second = name := by
    simp [Pat.binds_tuple, Pat.capturing, Pat.binds_wild]
  refine ⟨trivial,
    List.forall_mem_singleton.mpr ⟨?_, by simp [Pat.EveryAll, Pat.Every, Pat.capturing]⟩,
    ⟨trivial, trivial⟩, trivial⟩
  rintro alternatives ⟨⟩ first inFirst second inSecond name
  simp only [List.mem_cons, List.not_mem_nil, or_false] at inFirst inSecond
  rcases inFirst with rfl | rfl <;> rcases inSecond with rfl | rfl <;> simp [binds, or_comm]

theorem mentions_exact_swapped : swapped.SameNames ∧ ¬ swapped.Free "x" ∧ swapped.Free "y" := by
  have absent := (mentions_exact sameNames_swapped ["x"]).1.not.mp (by decide)
  have found := (mentions_exact sameNames_swapped ["y"]).1.mp (by decide)
  simp only [List.mem_singleton, exists_eq_left] at absent found
  exact ⟨sameNames_swapped, absent, found⟩

end Term

end PolyCheck
