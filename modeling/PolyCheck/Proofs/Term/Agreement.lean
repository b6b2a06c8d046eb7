import PolyCheck.Proofs.Pat.Refinement
import PolyCheck.Proofs.Session.Lowering
import PolyCheck.Proofs.Term.Leaves

/-! Coverage and decision trees agree. Both are exact about the values of the type that a match
looks at, so they say the same about every case and about what is missing, also when the tree is
built after more has become known of the type, as long as values and patterns keep their types when
variables are replaced. A quantifier that catches a variable sets the two apart. -/
namespace PolyCheck.Decision

section Agreement

variable {subst subst' : Subst} {registry : Registry} {pats : List Pat} {pat : Pat} {ty : Ty}
  {scrutinee : Term} {value : Value}

def caseLines (pats : List Pat) : List Line :=
  pats.zipIdx.map fun (p, index) => ⟨[p], [], index⟩

theorem taken?_cases (value : Value) (pats : List Pat) (start : Nat) :
    taken? [value] ((pats.zipIdx start).map fun (p, index) => ⟨[p], [], index⟩) =
      (pats.findIdx? fun p => (p.match? value).isSome).map (start + ·) := by
  induction pats generalizing start with
  | nil => rfl
  | cons p pats ih =>
    have one : Row.Matches [p] [value] ↔ p.Matches value :=
      Row.matches_cons.trans (and_iff_left rfl)
    rw [List.zipIdx_cons, List.map_cons, List.findIdx?_cons]
    by_cases found : p.Matches value
    · have shown : (p.match? value).isSome = true := found
      rw [taken?_cons_of_matches (one.mpr found), if_pos shown]
      rfl
    · have shown : ¬ (p.match? value).isSome = true := found
      rw [taken?_cons_of_not_matches (fun matched => found (one.mp matched)), if_neg shown, ih]
      cases pats.findIdx? fun p => (p.match? value).isSome with
      | none => rfl
      | some index => exact congrArg some (Nat.add_right_comm start 1 index)

theorem taken?_caseLines_eq_none : taken? [value] (caseLines pats) = none ↔
    ∀ p ∈ pats, ¬ p.Matches value := by
  rw [caseLines, taken?_cases]
  simp [List.findIdx?_eq_none_iff, Pat.Matches]

theorem taken?_caseLines_eq_some {index : Nat} : taken? [value] (caseLines pats) = some index ↔
    ∃ p, pats[index]? = some p ∧ p.Matches value ∧ ∀ q ∈ pats.take index, ¬ q.Matches value := by
  rw [caseLines, taken?_cases]
  simp only [Nat.zero_add, Option.map_id', List.findIdx?_eq_some_iff_getElem]
  constructor
  · rintro ⟨inside, found, earlier⟩
    refine ⟨pats[index], List.getElem?_eq_getElem inside, found, fun q member matched => ?_⟩
    obtain ⟨other, before, rfl⟩ := List.mem_take_iff_getElem.mp member
    exact earlier other (by omega) matched
  · rintro ⟨p, here, found, earlier⟩
    obtain ⟨inside, rfl⟩ := List.getElem?_eq_some_iff.mp here
    refine ⟨inside, found, fun other before => ?_⟩
    exact earlier _ (List.mem_take_iff_getElem.mpr ⟨other, by omega, rfl⟩)

theorem useful_iff_missed (populated : Populated subst registry ty)
    (typed : ∀ p ∈ pats, p.HasType subst registry ty) (typedPat : pat.HasType subst registry ty)
    (proper : pat.Proper) (few : (pats.flatMap Pat.ints).length < 2 ^ maxIntWidth) :
    Coverage.useful subst registry pats pat ty = true ↔
      ∃ value, (Coverage.single pats pat ty).Missed subst registry [value] := by
  have found := Coverage.uncovered?_single populated typed typedPat proper few
  rw [Coverage.useful, ← Coverage.single]
  cases result : (Coverage.single pats pat ty).uncovered? subst registry with
  | none =>
    rw [result] at found
    refine iff_of_false (by simp) ?_
    rintro ⟨value, missed⟩
    exact found value missed
  | some row =>
    rw [result] at found
    obtain ⟨_, -, -, missed⟩ := found
    exact iff_of_true rfl missed

theorem witness?_iff_missed (populated : Populated subst registry ty)
    (typed : ∀ p ∈ pats, p.HasType subst registry ty)
    (few : (pats.flatMap Pat.ints).length < 2 ^ maxIntWidth) :
    (Coverage.witness? subst registry pats ty).isSome = true ↔
      ∃ value, (Coverage.single pats .any ty).Missed subst registry [value] := by
  have found := @Coverage.uncovered?_single subst registry pats .any ty populated typed
    (.wild none ty) nofun few
  rw [Coverage.witness?, ← Coverage.single]
  cases result : (Coverage.single pats .any ty).uncovered? subst registry with
  | none =>
    rw [result] at found
    refine iff_of_false (by simp) ?_
    rintro ⟨value, missed⟩
    exact found value missed
  | some row =>
    rw [result] at found
    obtain ⟨p, rfl, -, missed⟩ := found
    exact iff_of_true rfl missed

/-- What coverage says about cases is what can be reached in a tree. -/
structure Foretells (subst : Subst) (registry : Registry) (pats : List Pat) (ty : Ty)
    (tree : Tree) : Prop where
  failure : tree.Leaf none ↔ (Coverage.witness? subst registry pats ty).isSome = true
  action : ∀ index, tree.Leaf (some index) ↔
    ∃ p, pats[index]? = some p ∧ Coverage.useful subst registry (pats.take index) p ty = true

/-- The tree that a match becomes under later cells, whatever its actions are. -/
theorem exists_compiled {later : Ty} (populated : Populated subst registry ty)
    (typed : ∀ p ∈ pats, p.HasType subst registry ty)
    (typed' : ∀ p ∈ pats, p.HasType subst' registry later) (proper : ∀ p ∈ pats, p.Proper)
    (few : (pats.flatMap Pat.ints).length < 2 ^ maxIntWidth) (name : Name) (result : Ty)
    (supply : NameSupply) :
    ∃ tree supply',
      Outlines subst' registry result ⟨[.var name later], caseLines pats⟩ supply supply'
      tree ∧ Foretells subst registry pats ty tree := by
  obtain ⟨tree, supply', outlines, leaves⟩ := @exists_tree subst subst' registry result
    (pats.flatMap Pat.ints) few ⟨[.var name later], caseLines pats⟩ supply
  have posed : Problem.Posed subst subst' registry (pats.flatMap Pat.ints)
      ⟨[.var name later], caseLines pats⟩ [(ty, later)] := by
    refine ⟨rfl, fun line member => ?_, fun column member => ?_⟩
    · obtain ⟨⟨p, index⟩, inside, rfl⟩ := List.mem_map.mp member
      have inPats := List.fst_mem_of_mem_zipIdx inside
      have names := Pat.names_of_ints fun value member => List.mem_flatMap.mpr ⟨p, inPats, member⟩
      exact .cons ⟨⟨typed p inPats, names⟩, typed' p inPats⟩ .nil
    · obtain rfl := List.mem_singleton.mp member
      exact populated
  have one : ∀ {leaf}, tree.Leaf leaf ↔
      ∃ value : Value, value.HasType subst registry ty ∧
      taken? [value] (caseLines pats) = leaf := by
    intro leaf
    rw [leaves _ posed]
    constructor
    · rintro ⟨values, fill, shown⟩
      cases fill with
      | cons here rest =>
        cases rest
        exact ⟨_, here, shown⟩
    · rintro ⟨value, here, shown⟩
      exact ⟨[value], .cons here .nil, shown⟩
  refine ⟨tree, supply', outlines, ?_, fun index => ?_⟩
  · rw [one, witness?_iff_missed populated typed few]
    refine exists_congr fun value => ?_
    rw [taken?_caseLines_eq_none, Coverage.missed_single]
    exact and_congr_right fun _ => (and_iff_right (Pat.matches_wild none value)).symm
  · rw [one]
    simp only [taken?_caseLines_eq_some]
    have front : ∀ p ∈ pats.take index, p.HasType subst registry ty := fun p member =>
      typed p (List.mem_of_mem_take member)
    have fewer : ((pats.take index).flatMap Pat.ints).length < 2 ^ maxIntWidth := by
      have whole := congrArg (fun ps => (List.flatMap Pat.ints ps).length)
        (List.take_append_drop index pats)
      simp only [List.flatMap_append, List.length_append] at whole
      omega
    constructor
    · rintro ⟨value, here, p, found, matched, earlier⟩
      have member := List.mem_of_getElem? found
      refine ⟨p, found, (useful_iff_missed populated front (typed p member) (proper p member)
        fewer).mpr ⟨value, ?_⟩⟩
      exact Coverage.missed_single.mpr ⟨here, matched, earlier⟩
    · rintro ⟨p, found, useful⟩
      have member := List.mem_of_getElem? found
      obtain ⟨value, missed⟩ :=
        (useful_iff_missed populated front (typed p member) (proper p member) fewer).mp useful
      obtain ⟨here, matched, earlier⟩ := Coverage.missed_single.mp missed
      exact ⟨value, here, p, found, matched, earlier⟩

end Agreement

section Compiled

variable {subst subst' : Subst} {registry : Registry} {pats : List Pat} {scrutinee : Term}

/-- What coverage says when a match is checked is what can be reached in the tree that the match
becomes, then or under any later cells: the tree fails somewhere exactly when some value is missing,
and has the action of a case at some leaf exactly when the case is useful. The cases are typed again
when the tree is built; with first-order fields they need not be asked to. -/
theorem tree_agrees_with_coverage (result : Ty) (supply : NameSupply)
    (populated : Populated subst registry scrutinee.ty)
    (typed : ∀ p ∈ pats, p.HasType subst registry scrutinee.ty) (proper : ∀ p ∈ pats, p.Proper)
    (few : (pats.flatMap Pat.ints).length < 2 ^ maxIntWidth)
    (later : registry.Plain ∧ subst.Retains subst' ∨
      ∀ p ∈ pats, p.HasType subst' registry (subst'.zonk scrutinee.ty)) :
    ∃ definitions tree, Foretells subst registry pats scrutinee.ty tree ∧
      ∀ arms : List Arm, arms.map Arm.pat = pats →
        (compile subst' registry scrutinee arms result supply).1 =
          .letIn false definitions (tree.fill (numbered (arms.map Arm.body) result) result)
            result := by
  have typed' : ∀ p ∈ pats, p.HasType subst' registry (subst'.zonk scrutinee.ty) := by
    rcases later with ⟨plain, retains⟩ | typed'
    · exact fun p member => (typed p member).resolved plain retains
    · exact typed'
  obtain ⟨tree, supply', outlines, foretells⟩ := exists_compiled populated typed typed' proper few
    (supply.mint "m").1 result (supply.mint "m").2
  refine ⟨[⟨(supply.mint "m").1, .mono (subst'.zonk scrutinee.ty), scrutinee⟩], tree, foretells,
    fun arms same => ?_⟩
  have lines : (arms.zipIdx.map fun entry => Line.mk [entry.1.pat] [] entry.2) =
      caseLines pats := by
    rw [← same, caseLines, List.zipIdx_map, List.map_map]
    rfl
  have built := outlines (arms.map Arm.body)
  rw [← lines] at built
  exact congrArg (fun outcome : Term × NameSupply => Term.letIn false _ outcome.1 result) built

/-- A pair of which the first part is not known yet. -/
def halfKnown : Ty := .tuple [.var ⟨0⟩, Registry.boolTy]

/-- The last of these cases is of no use, and nothing is missing. -/
def halfKnownCases : List Pat :=
  [.tuple [.any, .bool true], .tuple [.capturing "x", .any], .tuple [.any, .bool false]]

theorem family_halfKnown : Family.of halfKnown Subst.empty.fresh.2 .initial =
    .tuple [.var ⟨0⟩, Registry.boolTy] := Pat.family_tuple _ _ _

theorem family_part : Family.of (.var ⟨0⟩) Subst.empty.fresh.2 .initial = .unknown := rfl

theorem family_flag : Family.of Registry.boolTy Subst.empty.fresh.2 .initial = .bool :=
  Pat.family_provided Session.coherent_initial.bool

theorem component_halfKnown {part : Ty}
    (component : Component Subst.empty.fresh.2 .initial halfKnown part) :
    part = halfKnown ∨ part = .var ⟨0⟩ ∨ part = Registry.boolTy := by
  induction component with
  | self => exact .inl rfl
  | field _ has member ih =>
    rcases ih with rfl | rfl | rfl
    · rw [family_halfKnown] at member
      exact .inr (by simpa [Family.fieldTypes] using member)
    · rw [family_part] at has
      exact has.elim
    · rw [family_flag] at member
      simp [Family.fieldTypes] at member

theorem populated_halfKnown : Populated Subst.empty.fresh.2 .initial halfKnown := by
  have part : Value.HasType Subst.empty.fresh.2 .initial (.bool true) (.var ⟨0⟩) :=
    .unknown family_part _
  have flag : Value.HasType Subst.empty.fresh.2 .initial (.bool true) Registry.boolTy :=
    .bool family_flag true
  intro inner component
  rcases component_halfKnown component with rfl | rfl | rfl
  · exact ⟨_, .tuple family_halfKnown (.cons part (.cons flag .nil))⟩
  · exact ⟨_, part⟩
  · exact ⟨_, flag⟩

theorem typed_halfKnown : ∀ p ∈ halfKnownCases,
    p.HasType Subst.empty.fresh.2 .initial halfKnown := by
  have any : ∀ capture ty, Pat.HasType Subst.empty.fresh.2 .initial (.wild capture) ty := .wild
  have flag : ∀ value, Pat.HasType Subst.empty.fresh.2 .initial (.bool value) Registry.boolTy :=
    fun value => .bool family_flag value
  intro p member
  simp only [halfKnownCases, List.mem_cons, List.not_mem_nil, or_false] at member
  rcases member with rfl | rfl | rfl
  · exact .tuple family_halfKnown (.cons (any _ _) (.cons (flag true) .nil))
  · exact .tuple family_halfKnown (.cons (any _ _) (.cons (any _ _) .nil))
  · exact .tuple family_halfKnown (.cons (any _ _) (.cons (flag false) .nil))

/-- The first part turns out to be a truth value before the match is compiled. -/
theorem tree_agrees_on_halfKnown :
    ∃ after, Subst.unify (.var ⟨0⟩) Registry.boolTy Subst.empty.fresh.2 = .ok () after ∧
      ∃ definitions tree, ¬ Tree.Leaf tree none ∧ Tree.Leaf tree (some 1) ∧
        ¬ Tree.Leaf tree (some 2) ∧ ∀ arms : List Arm, arms.map Arm.pat = halfKnownCases →
          (compile after .initial (.var "pair" halfKnown) arms Registry.boolTy .empty).1 =
            .letIn false definitions (tree.fill (numbered (arms.map Arm.body) Registry.boolTy)
              Registry.boolTy) Registry.boolTy := by
  have tame : Subst.empty.fresh.2.Tame := Subst.tame_empty.push (.inl rfl)
  have plain : (Ty.var ⟨0⟩).FirstOrder Subst.empty.fresh.2.size := .var (by decide)
  have plain' : Registry.boolTy.FirstOrder Subst.empty.fresh.2.size :=
    .nominal (List.forall_mem_nil _)
  have solver : Subst.empty.fresh.2.Solver [(.var ⟨0⟩, Registry.boolTy)]
      (Ty.single ⟨0⟩ Registry.boolTy) := by
    refine ⟨fun {v name} cell => ?_, fun pair member => ?_⟩
    · refine Ty.single_of_ne (fun same => ?_) _
      have unbound : Subst.empty.fresh.2.cell ⟨0⟩ = .unbound := by decide
      simp [same, unbound] at cell
    · rw [List.mem_singleton.mp member]
      decide
  obtain ⟨after, solved⟩ := (tame.unify_ok_iff plain plain').mpr ⟨_, solver⟩
  have proper : ∀ p ∈ halfKnownCases, p.Proper := by
    simp [halfKnownCases, Pat.Proper, Pat.Every, Pat.EveryAll, Pat.any, Pat.capturing]
  have few : (halfKnownCases.flatMap Pat.ints).length < 2 ^ maxIntWidth := by
    simp [halfKnownCases, Pat.ints, Pat.intsAll, Pat.any, Pat.capturing, maxIntWidth]
  obtain ⟨definitions, tree, foretells, shown⟩ := @tree_agrees_with_coverage _ after _ _
    (.var "pair" halfKnown) Registry.boolTy .empty populated_halfKnown typed_halfKnown proper few
    (.inl ⟨Session.coherent_initial.plain, tame.retains_unify plain plain' solved⟩)
  refine ⟨after, solved, definitions, tree, ?_, ?_, ?_, shown⟩
  · rw [foretells.failure]
    cbv
    decide
  · rw [foretells.action]
    exact ⟨_, rfl, by cbv⟩
  · rw [foretells.action]
    rintro ⟨p, found, useful⟩
    obtain rfl := Option.some.inj found
    cbv at useful
    simp at useful

end Compiled

section Caught

mutual

def fails : Term → Bool
  | .failure _ => true
  | .matchOn _ arms _ => failsArms arms
  | _ => false

def failsArms : List Arm → Bool
  | [] => false
  | ⟨_, body⟩ :: arms => fails body || failsArms arms

end

mutual

theorem Tree.leaf_of_fails {actions : Nat → Term} {ty : Ty} : ∀ {tree : Tree},
    fails (tree.fill actions ty) = true →
      tree.Leaf none ∨ ∃ index, tree.Leaf (some index) ∧ fails (actions index) = true
  | .failure, _ => .inl .failure
  | .action index, found => .inr ⟨index, .action index, found⟩
  | .switch source cases, found => by
    obtain ⟨entry, member, below⟩ := Tree.leaf_of_failsArms found
    rcases below with below | ⟨index, below, inAction⟩
    · exact .inl (.switch member below)
    · exact .inr ⟨index, .switch member below, inAction⟩

theorem Tree.leaf_of_failsArms {actions : Nat → Term} {ty : Ty} : ∀ {cases : List (Pat × Tree)},
    failsArms (fillCases actions ty cases) = true → ∃ entry ∈ cases,
      entry.2.Leaf none ∨ ∃ index, entry.2.Leaf (some index) ∧ fails (actions index) = true
  | (pat, tree) :: cases, found => by
    rcases Bool.or_eq_true_iff.mp found with here | there
    · exact ⟨(pat, tree), List.mem_cons_self, Tree.leaf_of_fails here⟩
    · obtain ⟨entry, member, below⟩ := Tree.leaf_of_failsArms there
      exact ⟨entry, List.mem_cons_of_mem _ member, below⟩

end

open Session

variable {session : Session} {part : Ty}

theorem component_wrapped (wrapped : session.Wrapped)
    (component : Component session.subst session.registry wrapTy part) :
    part = wrapTy ∨ part = .nominal ⟨3⟩ [.var ⟨10⟩] ∨ part = boxField ∨ part = lockField ∨
      part = .var ⟨12⟩ ∨ part = Registry.boolTy := by
  induction component with
  | self => exact .inl rfl
  | @field inner head part _ has member ih =>
    rcases ih with rfl | rfl | rfl | rfl | rfl | rfl
    · rw [wrapped.whole] at has member
      obtain ⟨index, inside, rfl⟩ := has
      rw [wrapped.wrapCount] at inside
      obtain rfl : index = 0 := by omega
      rw [Family.fieldTypes, wrapped.wrapParts] at member
      simp at member
      tauto
    · rw [wrapped.key] at has member
      obtain ⟨index, inside, rfl⟩ := has
      rw [wrapped.keyCount] at inside
      rw [Family.fieldTypes] at member
      obtain rfl | rfl : index = 0 ∨ index = 1 := by omega
      · simp [wrapped.keyParts] at member
      · simp [wrapped.lockParts] at member
        tauto
    · rw [wrapped.box] at has member
      obtain ⟨index, inside, rfl⟩ := has
      rw [wrapped.boxCount] at inside
      obtain rfl : index = 0 := by omega
      rw [Family.fieldTypes, wrapped.boxParts] at member
      simp at member
      tauto
    · rw [wrapped.lock] at member
      cases member
    · rw [wrapped.text] at member
      cases member
    · rw [wrapped.flag] at member
      cases member

theorem populated_wrapped (wrapped : session.Wrapped) :
    Populated session.subst session.registry wrapTy := by
  intro part component
  rcases component_wrapped wrapped component with rfl | rfl | rfl | rfl | rfl | rfl
  · exact ⟨_, wrapped.hasType⟩
  · exact ⟨_, wrapped.hasType_key⟩
  · exact ⟨_, wrapped.hasType_box⟩
  · exact ⟨_, .bool wrapped.lock true⟩
  · exact ⟨_, .str wrapped.text []⟩
  · exact ⟨_, .bool wrapped.flag true⟩

theorem matches_only_case {subst : Subst} {registry : Registry} {p : Pat} {ty : Ty} {value : Value}
    {template : TemplateId} {args : List Ty} (typed : p.HasType subst registry ty)
    (typedValue : value.HasType subst registry ty) (own : p.head? = some (.variant 0))
    (family : Family.of ty subst registry = .enum template args)
    (count : registry.caseCount template = 1)
    (fields : ∀ values, List.Forall₂ (Value.HasType subst registry) values
      (registry.fieldsAt template 0 args) → Row.Matches p.fields values) : p.Matches value := by
  obtain ⟨-, each⟩ := typed.hasHead own
  rcases typedValue.hasHead with unknown | ⟨head, values, rfl, has, eachValue⟩
  · rw [family] at unknown
    cases unknown
  · rw [family] at has each eachValue
    obtain ⟨index, inside, rfl⟩ := has
    obtain rfl : index = 0 := by omega
    exact (Row.matches_build own (each.length_eq.trans eachValue.length_eq.symm)).mpr
      (fields values eachValue)

theorem matches_wrapped (wrapped : session.Wrapped) {value : Value}
    (typed : value.HasType session.subst session.registry wrapTy) : wrapPat.Matches value := by
  refine matches_only_case wrapped.hasType_pat typed rfl wrapped.whole wrapped.wrapCount
    fun values each => ?_
  rw [wrapped.wrapParts] at each
  rcases each with _ | ⟨_, _ | ⟨box, _ | ⟨_, _ | _⟩⟩⟩
  refine Row.matches_cons.mpr ⟨Pat.matches_wild _ _, Row.matches_cons.mpr ⟨?_,
    Row.matches_cons.mpr ⟨Pat.matches_wild _ _, rfl⟩⟩⟩
  refine matches_only_case wrapped.hasType_boxPat box rfl wrapped.box wrapped.boxCount
    fun values each => ?_
  rw [wrapped.boxParts] at each
  rcases each with _ | ⟨_, _ | _⟩
  exact Row.matches_cons.mpr ⟨Pat.matches_wild _ _, rfl⟩

/-- Coverage looks into the box and finds that nothing is missing; the tree, for which the type of
the box is caught, does not and keeps a failure. -/
theorem caught_box_disagrees : ¬ ∀ {options : Options} {session : Session} {scrutinee : Term}
    {pats : List Pat} (result : Ty) (supply : NameSupply), session.Reachable options →
    Populated session.subst session.registry scrutinee.ty →
    (∀ p ∈ pats, p.HasType session.subst session.registry scrutinee.ty) → (∀ p ∈ pats, p.Proper) →
    (pats.flatMap Pat.ints).length < 2 ^ maxIntWidth →
    ∃ definitions tree, Foretells session.subst session.registry pats scrutinee.ty tree ∧
      ∀ arms : List Arm, arms.map Arm.pat = pats →
        (compile session.subst session.registry scrutinee arms result supply).1 =
          .letIn false definitions (tree.fill (numbered (arms.map Arm.body) result) result)
            result := by
  intro agrees
  obtain ⟨session, reachable, wrapped, caught⟩ := exists_wrapped
  have proper : ∀ p ∈ [wrapPat], p.Proper := by
    simp [wrapPat, boxPat, Pat.Proper, Pat.Every, Pat.EveryAll, Pat.any, Pat.capturing]
  have few : ([wrapPat].flatMap Pat.ints).length < 2 ^ maxIntWidth := by
    simp [wrapPat, boxPat, Pat.ints, Pat.intsAll, Pat.any, Pat.capturing, maxIntWidth]
  have typed : ∀ p ∈ [wrapPat], p.HasType session.subst session.registry wrapTy :=
    List.forall_mem_singleton.mpr wrapped.hasType_pat
  obtain ⟨definitions, tree, foretells, shown⟩ :=
    @agrees .standard session (.var "v" wrapTy) [wrapPat]
    Registry.boolTy .empty reachable (populated_wrapped wrapped) typed proper few
  have built := shown [wrapArm] rfl
  rw [wrapped.compile_eq caught] at built
  obtain ⟨-, -, same, -⟩ := Term.letIn.inj built
  have failing :
    fails (tree.fill (numbered ([wrapArm].map Arm.body) Registry.boolTy) Registry.boolTy) =
      true := by
    rw [← same]
    rfl
  rcases Tree.leaf_of_fails failing with missing | ⟨index, reached, inAction⟩
  · have witness := foretells.failure.mp missing
    obtain ⟨value, missed⟩ := (witness?_iff_missed (populated_wrapped wrapped) typed few).mp witness
    obtain ⟨typedValue, -, missed⟩ := Coverage.missed_single.mp missed
    exact missed wrapPat (List.mem_singleton_self _) (matches_wrapped wrapped typedValue)
  · obtain ⟨p, found, -⟩ := (foretells.action index).mp reached
    cases index with
    | zero => cases inAction
    | succ index => cases found

end Caught

end PolyCheck.Decision
