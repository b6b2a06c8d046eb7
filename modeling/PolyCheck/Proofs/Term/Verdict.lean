import PolyCheck.Proofs.Term.Alike

/-! The verdict on a recursive group under other local names. The names that lets bind on the way to
what an initializer evaluates to are looked up without regard to scopes: a definition counts
wherever its name is read later on. So the verdict is the same for initializers that differ in local
names only as long as these lets bind each name once, and no name of the group or one that is free.
It may change when a let binds a name again. -/
namespace PolyCheck

/-- The two sides bind each name once, so the pairs give a name on one side for a name on the
other. -/
structure Binders.Paired (pairs : Binders) : Prop where
  left : (pairs.map (·.1)).Nodup
  right : (pairs.map (·.2)).Nodup

/-- Names that the pairs bind together, or a name that they do not bind on either side. -/
def Binders.Stands (pairs : Binders) (x y : Name) : Prop :=
  (x, y) ∈ pairs ∨ x = y ∧ x ∉ pairs.map (·.1) ∧ y ∉ pairs.map (·.2)

theorem Binders.Paired.iff_of_mem {pairs : Binders} (paired : pairs.Paired) {x y a b : Name}
    (stands : pairs.Stands x y) (member : (a, b) ∈ pairs) : a = x ↔ b = y := by
  rcases stands with here | ⟨-, unbound, unbound'⟩
  · constructor
    · rintro rfl
      exact congrArg Prod.snd (List.inj_on_of_nodup_map paired.left member here rfl)
    · rintro rfl
      exact congrArg Prod.fst (List.inj_on_of_nodup_map paired.right member here rfl)
  · constructor
    · rintro rfl
      exact absurd (List.mem_map_of_mem member) unbound
    · rintro rfl
      exact absurd (List.mem_map_of_mem member) unbound'

namespace Term

mutual

/-- Names that the lets of a term bind where they are evaluated with it: not in functions, calls or
matches. -/
def letNames : Term → List Name
  | var _ _ => []
  | lit _ _ => []
  | failure _ => []
  | tuple elems _ => letNamesAll elems
  | ctor _ _ _ arg _ => letNamesOption arg
  | lambda _ _ _ _ => []
  | app _ _ _ => []
  | letIn _ definitions body _ =>
    definitions.map (·.name) ++ (letNamesIn definitions ++ letNames body)
  | matchOn _ _ _ => []

def letNamesAll : List Term → List Name
  | [] => []
  | term :: terms => letNames term ++ letNamesAll terms

def letNamesOption : Option Term → List Name
  | none => []
  | some term => letNames term

def letNamesIn : List Definition → List Name
  | [] => []
  | ⟨_, _, value⟩ :: rest => letNames value ++ letNamesIn rest

end

/-- The lets that are looked through bind each name once, and no name of the group or one that is
free in the term. -/
structure Tidy (group : List Name) (term : Term) : Prop where
  once : term.letNames.Nodup
  apart : ∀ name ∈ term.letNames, name ∉ group
  bound : ∀ name ∈ term.letNames, ¬term.Reads name

variable {binders pairs : Binders} {group : List Name} {term term' : Term}

section Alike

mutual

theorem Alike.length_letNames : ∀ {binders : Binders} {term term' : Term},
    Alike binders term term' → term.letNames.length = term'.letNames.length
  | _, _, _, .var _ | _, _, _, .lit | _, _, _, .failure | _, _, _, .bare | _, _, _, .lambda _ | _,
      _, _, .app _ _
  | _, _, _, .matchOn _ _ => rfl
  | _, _, _, .tuple alike => alike.length_letNames
  | _, _, _, .ctor alike => alike.length_letNames
  | _, _, _, .letIn definitions body => by
    rw [letNames, letNames, List.length_append, List.length_append, List.length_append,
      List.length_append, definitions.aligned, definitions.length_letNames, body.length_letNames]

theorem AlikeAll.length_letNames : ∀ {binders : Binders} {terms terms' : List Term},
    AlikeAll binders terms terms' → (letNamesAll terms).length = (letNamesAll terms').length
  | _, _, _, .nil => rfl
  | _, _, _, .cons alike rest => by
    rw [letNamesAll, letNamesAll, List.length_append, List.length_append, alike.length_letNames,
      rest.length_letNames]

theorem AlikeDefinitions.length_letNames :
    ∀ {binders : Binders} {definitions definitions' : List Definition},
    AlikeDefinitions binders definitions definitions' →
    (letNamesIn definitions).length = (letNamesIn definitions').length
  | _, _, _, .nil => rfl
  | _, _, _, .cons alike rest => by
    rw [letNamesIn, letNamesIn, List.length_append, List.length_append, alike.length_letNames,
      rest.length_letNames]

end

mutual

theorem Alike.definitionCount : ∀ {binders : Binders} {term term' : Term},
    Alike binders term term' → term.definitionCount = term'.definitionCount
  | _, _, _, .var _ | _, _, _, .lit | _, _, _, .failure | _, _, _, .bare => rfl
  | _, _, _, .tuple alike => alike.definitionCount
  | _, _, _, .ctor alike => alike.definitionCount
  | _, _, _, .lambda alike => alike.definitionCount
  | _, _, _, .app func arg => congrArg₂ (· + ·) func.definitionCount arg.definitionCount
  | _, _, _, .letIn definitions body =>
    congrArg₂ (· + ·) definitions.definitionCount body.definitionCount
  | _, _, _, .matchOn scrutinee arms =>
    congrArg₂ (· + ·) scrutinee.definitionCount arms.definitionCount

theorem AlikeAll.definitionCount : ∀ {binders : Binders} {terms terms' : List Term},
    AlikeAll binders terms terms' → definitionCountAll terms = definitionCountAll terms'
  | _, _, _, .nil => rfl
  | _, _, _, .cons alike rest => congrArg₂ (· + ·) alike.definitionCount rest.definitionCount

theorem AlikeDefinitions.definitionCount :
    ∀ {binders : Binders} {definitions definitions' : List Definition},
    AlikeDefinitions binders definitions definitions' →
    definitionCountIn definitions = definitionCountIn definitions'
  | _, _, _, .nil => rfl
  | _, _, _, .cons alike rest =>
    congrArg₂ (fun first others => first + others + 1) alike.definitionCount rest.definitionCount

theorem AlikeArms.definitionCount : ∀ {binders : Binders} {arms arms' : List Arm},
    AlikeArms binders arms arms' → definitionCountArms arms = definitionCountArms arms'
  | _, _, _, .nil => rfl
  | _, _, _, .cons _ _ alike rest => congrArg₂ (· + ·) alike.definitionCount rest.definitionCount

end

theorem apart_together {names names' : List Name} (apart : ∀ name ∈ names, name ∉ group)
    (apart' : ∀ name ∈ names', name ∉ group) : ∀ pair ∈ Binders.together names names',
    pair.1 ∉ group ∧ pair.2 ∉ group := by
  rintro ⟨x, y⟩ member
  have member := List.of_mem_zip (List.mem_reverse.mp member)
  exact ⟨apart x member.1, apart' y member.2⟩

mutual

/-- Whether a term can be built does not depend on local names, when no let binds a name of the
group. -/
theorem Alike.constructive : ∀ {binders : Binders} {term term' : Term}, Alike binders term term' →
    (∀ pair ∈ binders, pair.1 ∉ group ∧ pair.2 ∉ group) → (∀ name ∈ term.letNames, name ∉ group) →
    (∀ name ∈ term'.letNames, name ∉ group) → term.constructive group = term'.constructive group
  | _, _, _, .var _, _, _, _ | _, _, _, .lit, _, _, _ | _, _, _, .failure, _, _, _ | _, _, _,
      .bare, _, _, _
  | _, _, _, .lambda _, _, _, _ | _, _, _, .app _ _, _, _, _ | _, _, _, .matchOn _ _, _, _, _ => rfl
  | _, _, _, .tuple alike, outer, apart, apart' => alike.constructive outer apart apart'
  | _, _, _, .ctor alike, outer, apart, apart' => alike.constructive outer apart apart'
  | _, _, _, @Alike.letIn binders recursive ds ds' _ _ _ definitions body, outer, apart,
      apart' => by
    unfold letNames at apart apart'
    obtain ⟨own, apart⟩ := List.forall_mem_append.mp apart
    obtain ⟨own', apart'⟩ := List.forall_mem_append.mp apart'
    obtain ⟨inside, behind⟩ := List.forall_mem_append.mp apart
    obtain ⟨inside', behind'⟩ := List.forall_mem_append.mp apart'
    have inner : ∀ pair ∈ paired ds ds' ++ binders, pair.1 ∉ group ∧ pair.2 ∉ group :=
      List.forall_mem_append.mpr ⟨apart_together own own', outer⟩
    have here : ∀ pair ∈ (if recursive then paired ds ds' ++ binders else binders),
        pair.1 ∉ group ∧ pair.2 ∉ group := by
      cases recursive with
      | true => exact inner
      | false => exact outer
    exact congrArg₂ (· && ·) (definitions.constructive here inside inside')
      (body.constructive inner behind behind')

theorem AlikeAll.constructive : ∀ {binders : Binders} {terms terms' : List Term},
    AlikeAll binders terms terms' →
    (∀ pair ∈ binders, pair.1 ∉ group ∧ pair.2 ∉ group) →
      (∀ name ∈ letNamesAll terms, name ∉ group) →
    (∀ name ∈ letNamesAll terms', name ∉ group) → constructiveAll group terms =
      constructiveAll group terms'
  | _, _, _, .nil, _, _, _ => rfl
  | _, _, _, .cons alike rest, outer, apart, apart' => by
    obtain ⟨here, behind⟩ := List.forall_mem_append.mp apart
    obtain ⟨here', behind'⟩ := List.forall_mem_append.mp apart'
    exact congrArg₂ (· && ·) (alike.constructive outer here here')
      (rest.constructive outer behind behind')

theorem AlikeDefinitions.constructive :
    ∀ {binders : Binders} {definitions definitions' : List Definition},
    AlikeDefinitions binders definitions definitions' →
      (∀ pair ∈ binders, pair.1 ∉ group ∧ pair.2 ∉ group) →
    (∀ name ∈ letNamesIn definitions, name ∉ group) →
      (∀ name ∈ letNamesIn definitions', name ∉ group) →
    constructiveDefinitions group definitions = constructiveDefinitions group definitions'
  | _, _, _, .nil, _, _, _ => rfl
  | _, _, _, .cons alike rest, outer, apart, apart' => by
    obtain ⟨here, behind⟩ := List.forall_mem_append.mp apart
    obtain ⟨here', behind'⟩ := List.forall_mem_append.mp apart'
    have value := alike.constructive outer here here'
    have mentioned := alike.mentions outer
    rw [constructiveDefinitions, constructiveDefinitions, value, mentioned,
      rest.constructive outer behind behind']

end

end Alike

section Linked

/-- Terms at one place of two initializers. All names that their lets bind are among the pairs, and
a name of the pairs that is read has been bound on the way. -/
structure Placed (pairs binders : Binders) (term term' : Term) : Prop where
  alike : Alike binders term term'
  outer : binders ⊆ pairs
  lets : term.letNames.zip term'.letNames ⊆ pairs
  reads : ∀ x, term.Reads x → x ∈ pairs.map (·.1) → x ∈ binders.map (·.1)
  reads' : ∀ y, term'.Reads y → y ∈ pairs.map (·.2) → y ∈ binders.map (·.2)

structure Entry (pairs : Binders) (definition definition' : Definition) : Prop where
  names : (definition.name, definition'.name) ∈ pairs
  value : ∃ binders, Placed pairs binders definition.value definition'.value

theorem Placed.stands {x y : Name} {ty ty' : Ty}
    (placed : Placed pairs binders (.var x ty) (.var y ty')) : pairs.Stands x y := by
  cases placed.alike with
  | var matched =>
    rcases matched.cases with member | ⟨same, unbound, unbound'⟩
    · exact .inl (placed.outer member)
    · exact .inr ⟨same, fun bound => unbound (placed.reads x rfl bound),
        fun bound => unbound' (placed.reads' y rfl bound)⟩

theorem entries_of_placed {definitions definitions' : List Definition}
    (alike : AlikeDefinitions binders definitions definitions') (outer : binders ⊆ pairs)
    (own : (definitions.map (·.name)).zip (definitions'.map (·.name)) ⊆ pairs)
    (lets : (letNamesIn definitions).zip (letNamesIn definitions') ⊆ pairs)
    (reads : ∀ x, ReadsDefinitions x definitions → x ∈ pairs.map (·.1) → x ∈ binders.map (·.1))
    (reads' : ∀ y, ReadsDefinitions y definitions' → y ∈ pairs.map (·.2) → y ∈ binders.map (·.2)) :
    List.Forall₂ (Entry pairs) definitions definitions' := by
  induction definitions generalizing definitions' with
  | nil =>
    cases alike
    exact .nil
  | cons definition definitions ih =>
    cases alike with
    | cons value rest =>
      unfold letNamesIn at lets
      rw [List.zip_append value.length_letNames] at lets
      obtain ⟨inside, behind⟩ := List.append_subset.mp lets
      obtain ⟨name, own⟩ := List.cons_subset.mp own
      refine .cons ⟨name, binders, value, outer, inside, fun x read => reads x (.inl read),
        fun y read => reads' y (.inl read)⟩ ?_
      exact ih rest own behind (fun x read => reads x (.inr read)) fun y read =>
        reads' y (.inr read)

theorem Placed.peel : ∀ {term term' : Term} {binders : Binders}, Placed pairs binders term term' →
    List.Forall₂ (Entry pairs) term.peelLets.1 term'.peelLets.1 ∧
      ∃ binders, Placed pairs binders term.peelLets.2 term'.peelLets.2
  | .letIn recursive definitions body _, _, binders, placed => by
    obtain ⟨alike, outer, lets, reads, reads'⟩ := placed
    cases alike with
    | @letIn _ _ _ definitions' _ body' _ alike alikeBody =>
      have aligned := alike.aligned
      unfold letNames at lets
      rw [List.zip_append aligned, List.zip_append alike.length_letNames] at lets
      obtain ⟨own, lets⟩ := List.append_subset.mp lets
      obtain ⟨inside, behind⟩ := List.append_subset.mp lets
      have inner : paired definitions definitions' ++ binders ⊆ pairs :=
        List.append_subset.mpr ⟨fun pair member => own (List.mem_reverse.mp member), outer⟩
      -- A name that is read below these definitions is one of theirs or is read by the whole let.
      have under : ∀ x, (x ∉ definitions.map (·.name) → x ∈ binders.map (·.1)) →
          x ∈ (paired definitions definitions' ++ binders).map (·.1) := fun x others => by
        rw [List.map_append, List.mem_append]
        by_cases member : x ∈ definitions.map (·.name)
        · exact .inl ((Binders.mem_fst_together aligned).mpr member)
        · exact .inr (others member)
      have under' : ∀ y, (y ∉ definitions'.map (·.name) → y ∈ binders.map (·.2)) →
          y ∈ (paired definitions definitions' ++ binders).map (·.2) := fun y others => by
        rw [List.map_append, List.mem_append]
        by_cases member : y ∈ definitions'.map (·.name)
        · exact .inl ((Binders.mem_snd_together aligned).mpr member)
        · exact .inr (others member)
      have rest : Placed pairs (paired definitions definitions' ++ binders) body body' :=
        ⟨alikeBody, inner, behind,
          fun x read bound => under x fun unbound => reads x (.inr ⟨unbound, read⟩) bound,
          fun y read bound => under' y fun unbound => reads' y (.inr ⟨unbound, read⟩) bound⟩
      have entries : List.Forall₂ (Entry pairs) definitions definitions' := by
        cases recursive with
        | true =>
          exact entries_of_placed alike inner own inside
            (fun x read bound => under x fun unbound =>
              reads x (.inl ⟨fun _ => unbound, read⟩) bound)
            fun y read bound => under' y fun unbound =>
              reads' y (.inl ⟨fun _ => unbound, read⟩) bound
        | false =>
          exact entries_of_placed alike outer own inside
            (fun x read =>
            reads x (.inl ⟨fun impossible => absurd impossible Bool.false_ne_true, read⟩))
            fun y read =>
              reads' y (.inl ⟨fun impossible => absurd impossible Bool.false_ne_true, read⟩)
      obtain ⟨entries', core⟩ := rest.peel
      exact ⟨List.rel_append entries entries', core⟩
  | .var _ _, _, binders, placed | .lit _ _, _, binders, placed | .failure _, _, binders, placed
  | .tuple _ _, _, binders, placed | .ctor _ _ _ _ _, _, binders, placed | .lambda _ _ _ _, _,
      binders, placed
  | .app _ _ _, _, binders, placed | .matchOn _ _ _, _, binders, placed => by
    have alike := placed.alike
    cases alike <;> exact ⟨.nil, binders, placed⟩

theorem entries_before {definitions definitions' aliases aliases' : List Definition}
    (entries : List.Forall₂ (Entry pairs) definitions definitions')
    (known : List.Forall₂ (Entry pairs) aliases aliases') :
    List.Forall₂ (Entry pairs) (definitions.reverse ++ aliases)
    (definitions'.reverse ++ aliases') :=
  List.rel_append (List.rel_reverse entries) known

theorem find?_entries (paired : pairs.Paired) {x y : Name} (stands : pairs.Stands x y)
    {aliases aliases' : List Definition} (entries : List.Forall₂ (Entry pairs) aliases aliases') :
    aliases.find? (·.name = x) = none ∧ aliases'.find? (·.name = y) = none ∨
      ∃ next next', aliases.find? (·.name = x) = some next ∧
        aliases'.find? (·.name = y) = some next' ∧ (x, y) ∈ pairs ∧ Entry pairs next next' := by
  induction entries with
  | nil => exact .inl ⟨rfl, rfl⟩
  | @cons definition definition' aliases aliases' entry _ ih =>
    have same := paired.iff_of_mem stands entry.names
    rw [List.find?_cons, List.find?_cons]
    by_cases here : definition.name = x
    · have here' := same.mp here
      rw [decide_eq_true here, decide_eq_true here']
      exact .inr ⟨definition, definition', rfl, rfl, here ▸ here' ▸ entry.names, entry⟩
    · rw [decide_eq_false here, decide_eq_false (mt same.mpr here)]
      exact ih

theorem contains_visited (paired : pairs.Paired) {x y : Name} (member : (x, y) ∈ pairs)
    {visited visited' : List Name}
    (entries : List.Forall₂ (fun a b => (a, b) ∈ pairs) visited visited') :
    visited.contains x = visited'.contains y := by
  induction entries with
  | nil => rfl
  | @cons a b visited visited' entry _ ih =>
    have same := paired.iff_of_mem (.inl member) entry
    rw [List.contains_cons, List.contains_cons, ih]
    congr 1
    refine Bool.eq_iff_iff.mpr ?_
    rw [beq_iff_eq, beq_iff_eq, eq_comm, same, eq_comm]

theorem contains_stands (apart : ∀ pair ∈ pairs, pair.1 ∉ group ∧ pair.2 ∉ group) {x y : Name}
    (stands : pairs.Stands x y) :
    (if group.contains x then some x else none) = if group.contains y then some y else none := by
  rcases stands with member | ⟨rfl, -⟩
  · have outside := apart (x, y) member
    rw [if_neg (by simpa using outside.1), if_neg (by simpa using outside.2)]
  · rfl

theorem linkWithin_alike (paired : pairs.Paired)
    (apart : ∀ pair ∈ pairs, pair.1 ∉ group ∧ pair.2 ∉ group)
    (steps : Nat) : ∀ {aliases aliases' : List Definition} {visited visited' : List Name}
    {binders : Binders} {term term' : Term}, List.Forall₂ (Entry pairs) aliases aliases' →
      List.Forall₂ (fun a b => (a, b) ∈ pairs) visited visited' → Placed pairs binders term term' →
      linkWithin group steps aliases visited term =
        linkWithin group steps aliases' visited' term' := by
  induction steps with
  | zero =>
    intro aliases aliases' visited visited' binders term term' known seen placed
    obtain ⟨entries, core, placed⟩ := placed.peel
    have entries := entries_before entries known
    unfold linkWithin
    dsimp only
    generalize term.peelLets.1.reverse ++ aliases = aliases at entries
    generalize term'.peelLets.1.reverse ++ aliases' = aliases' at entries
    generalize term.peelLets.2 = last at placed
    generalize term'.peelLets.2 = last' at placed
    have alike := placed.alike
    cases alike with
    | var _ =>
      dsimp only
      rcases find?_entries paired placed.stands entries with ⟨none_, none'⟩ | ⟨next, next',
        found, found', -⟩
      · rw [none_, none']
        exact contains_stands apart placed.stands
      · rw [found, found']
    | _ => rfl
  | succ steps ih =>
    intro aliases aliases' visited visited' binders term term' known seen placed
    obtain ⟨entries, core, placed⟩ := placed.peel
    have entries := entries_before entries known
    unfold linkWithin
    dsimp only
    generalize term.peelLets.1.reverse ++ aliases = aliases at entries
    generalize term'.peelLets.1.reverse ++ aliases' = aliases' at entries
    generalize term.peelLets.2 = last at placed
    generalize term'.peelLets.2 = last' at placed
    have alike := placed.alike
    cases alike with
    | var _ =>
      dsimp only
      rcases find?_entries paired placed.stands entries with
        ⟨none_, none'⟩ | ⟨next, next', found, found', member, entry⟩
      · rw [none_, none']
        exact contains_stands apart placed.stands
      · obtain ⟨binders', placed'⟩ := entry.value
        rw [found, found']
        dsimp only
        rw [contains_visited paired member seen, ih entries (.cons member seen) placed']
    | _ => rfl

end Linked

/-- Initializers that differ in local names only have the same fault, when both are tidy. -/
theorem Alike.recursionFault? (alike : Alike [] term term') (tidy : term.Tidy group)
    (tidy' : term'.Tidy group) :
    Term.recursionFault? group term = Term.recursionFault? group term' := by
  have aligned := alike.length_letNames
  have paired : Binders.Paired (Binders.together term.letNames term'.letNames) := by
    refine ⟨?_, ?_⟩
    · rw [Binders.together, List.map_reverse, List.map_fst_zip (Nat.le_of_eq aligned)]
      exact List.nodup_reverse.mpr tidy.once
    · rw [Binders.together, List.map_reverse, List.map_snd_zip (Nat.le_of_eq aligned.symm)]
      exact List.nodup_reverse.mpr tidy'.once
  have placed : Placed (Binders.together term.letNames term'.letNames) [] term term' :=
    ⟨alike, List.nil_subset _, fun pair member => List.mem_reverse.mpr member,
      fun x read bound => absurd read (tidy.bound x ((Binders.mem_fst_together aligned).mp bound)),
      fun y read bound => absurd read (tidy'.bound y ((Binders.mem_snd_together aligned).mp bound))⟩
  have linked :=
    linkWithin_alike paired (apart_together tidy.apart tidy'.apart) (term.definitionCount + 1)
    .nil .nil placed
  rw [Term.recursionFault?, Term.recursionFault?, alike.mentions (List.forall_mem_nil _),
    alike.constructive (List.forall_mem_nil _) tidy.apart tidy'.apart, linkedMember?,
    linkedMember?, linked,
    alike.definitionCount]

/-- Groups with the same names and schemes whose values differ in local names only. -/
def AlikeGroup (definitions definitions' : List Definition) : Prop :=
  List.Forall₂ (fun definition definition' => definition.name = definition'.name ∧
    definition.scheme = definition'.scheme ∧ Alike [] definition.value definition'.value)
      definitions definitions'

theorem AlikeGroup.names {definitions definitions' : List Definition}
    (alike : AlikeGroup definitions definitions') :
    definitions.map (·.name) = definitions'.map (·.name) := by
  induction alike with
  | nil => rfl
  | cons entry _ ih => exact congrArg₂ List.cons entry.1 ih

/-- The verdict on a recursive group, an error and its place included, does not depend on local
names when the lets on the way to what the initializers evaluate to are tidy. -/
theorem validateGroup_alike {definitions definitions' : List Definition}
    (alike : AlikeGroup definitions definitions')
    (tidy : ∀ definition ∈ definitions, definition.value.Tidy (definitions.map (·.name)))
    (tidy' : ∀ definition ∈ definitions', definition.value.Tidy (definitions.map (·.name)))
    (spans : List Span) :
    validateGroup definitions spans = validateGroup definitions' spans := by
  rw [validateGroup, validateGroup, ← alike.names]
  generalize definitions.map (·.name) = group at tidy tidy'
  dsimp only
  generalize 0 = first
  induction alike generalizing first with
  | nil => rfl
  | @cons definition definition' _ _ entry _ ih =>
    obtain ⟨name, -, value⟩ := entry
    obtain ⟨here, tidy⟩ := List.forall_mem_cons.mp tidy
    obtain ⟨here', tidy'⟩ := List.forall_mem_cons.mp tidy'
    rw [List.zipIdx_cons, List.zipIdx_cons, List.forM_eq_forM, List.forM_cons, List.forM_cons,
      value.recursionFault? here here', name]
    exact congrArg _ (funext fun _ => ih tidy tidy' (first + 1))

/-- The definition of `f` as itself, by way of two local names. -/
def aliased (first second : Name) : Definition :=
  ⟨"f", .mono .unit, .letIn false [⟨first, .mono .unit, .var "f" .unit⟩]
    (.letIn false [⟨second, .mono .unit, .var first .unit⟩] (.var second .unit) .unit) .unit⟩

theorem alikeGroup_aliased (first second first' second' : Name) :
    AlikeGroup [aliased first second] [aliased first' second'] := by
  refine .cons ⟨rfl, rfl, ?_⟩ .nil
  refine .letIn (.cons (.var rfl) .nil)
    (.letIn (.cons (.var (.inl ⟨rfl, rfl⟩)) .nil) (.var (.inl ⟨rfl, rfl⟩)))

theorem reads_aliased {first second name : Name} (reads : (aliased first second).value.Reads name) :
    name = "f" := by
  simp only [aliased, Reads, ReadsDefinitions, List.map_cons, List.map_nil, List.mem_singleton,
    or_false] at reads
  rcases reads with ⟨-, here⟩ | ⟨other, ⟨-, here⟩ | ⟨other', here⟩⟩
  · exact here
  · exact absurd here other
  · exact absurd here other'

theorem tidy_aliased {first second : Name} (once : first ≠ second) (apart : first ≠ "f")
    (apart' : second ≠ "f") : (aliased first second).value.Tidy ["f"] := by
  have names : ∀ name ∈ (aliased first second).value.letNames, name ≠ "f" := by
    simp [aliased, letNames, letNamesIn, apart, apart']
  refine ⟨by simpa [aliased, letNames, letNamesIn] using once, fun name member => ?_,
    fun name member reads => ?_⟩
  · simpa using names name member
  · exact names name member (reads_aliased reads)

theorem validateGroup_aliased_alike : AlikeGroup [aliased "a" "b"] [aliased "c" "d"] ∧
    (aliased "a" "b").value.Tidy ["f"] ∧ (aliased "c" "d").value.Tidy ["f"] ∧
    validateGroup [aliased "a" "b"] [] = validateGroup [aliased "c" "d"] [] := by
  have tidy : (aliased "a" "b").value.Tidy ["f"] := tidy_aliased (by decide) (by decide) (by decide)
  have tidy' : (aliased "c" "d").value.Tidy ["f"] :=
    tidy_aliased (by decide) (by decide) (by decide)
  exact ⟨alikeGroup_aliased "a" "b" "c" "d", tidy, tidy',
    validateGroup_alike (alikeGroup_aliased "a" "b" "c" "d")
    (List.forall_mem_singleton.mpr tidy) (List.forall_mem_singleton.mpr tidy') []⟩

/-- When the second name is that of the first, the definition of the first is lost and `f` is
accepted as itself. -/
theorem verdict_depends_on_local_names : ¬ ∀ (definitions definitions' : List Definition)
    (spans : List Span),
    AlikeGroup definitions definitions' → validateGroup definitions spans =
      validateGroup definitions' spans := by
  intro same
  have verdicts := same [aliased "a" "b"] [aliased "a" "a"] [] (alikeGroup_aliased "a" "b" "a" "a")
  have refused : validateGroup [aliased "a" "b"] [] =
      .error ⟨.illegalRecursion "f" .immediatelyLinked, .synthetic⟩ := by cbv
  have accepted : validateGroup [aliased "a" "a"] [] = .ok () := by cbv
  rw [refused, accepted] at verdicts
  cases verdicts

end Term

end PolyCheck
