import PolyCheck.Proofs.Pat.Capture
import PolyCheck.Proofs.Term.Mentions
import PolyCheck.Proofs.Term.Selection

/-! Decision trees test one level of a pattern at a time, whatever the patterns and the types are.
What holds of a tree is shown along its construction: of failures, of leaves, and of switches over
the trees below them. -/
namespace PolyCheck

namespace Pat

/-- A pattern that tests at most its own head. Its fields are captured or left alone. -/
def IsShallow (p : Pat) : Prop :=
  p.isOneOf = false ∧ ∀ q ∈ p.fields, q.isWild = true

/-- Patterns of the cases of a switch: different heads, and no case after one without a test. -/
structure IsSwitch (pats : List Pat) : Prop where
  heads : (pats.filterMap head?).Nodup
  tests : ∀ p ∈ pats.dropLast, p.isWild = false

section Shapes

variable {p q : Pat} {ps : List Pat} {name : Name} {head : Head}

theorem isShallow_wild (capture : Option Name) : (wild capture).IsShallow := ⟨rfl, nofun⟩

theorem isShallow_tuple (each : ∀ p ∈ ps, p.isWild = true) : (tuple ps).IsShallow := ⟨rfl, each⟩

theorem isShallow_pattern (registry : Registry) (family : Family) (head : Head) :
    (family.pattern registry head).IsShallow := by
  have anys : ∀ count, ∀ q ∈ anys count, q.isWild = true := fun count q member => by
    rw [List.eq_of_mem_replicate member]
    rfl
  unfold Family.pattern
  dsimp only
  split
  · exact ⟨rfl, List.forall_mem_nil _⟩
  · exact ⟨rfl, List.forall_mem_nil _⟩
  · exact ⟨rfl, List.forall_mem_nil _⟩
  · exact isShallow_tuple (anys _)
  · split
    · exact ⟨rfl, anys _⟩
    · exact isShallow_wild none
  · exact isShallow_wild none

theorem IsShallow.withFields (shallow : p.IsShallow) (each : ∀ p ∈ ps, p.isWild = true) :
    (p.withFields ps).IsShallow := by
  cases p with
  | tuple _ | ctor _ _ _ _ => exact ⟨rfl, each⟩
  | wild _ | bool _ | int _ _ | str _ | oneOf _ => exact shallow

theorem eq_of_mem_captures (isWild : p.isWild = true) (captured : name ∈ p.captures) :
    p = .wild (some name) := by
  cases p with
  | wild capture =>
    cases capture with
    | none => cases captured
    | some other => rw [List.mem_singleton.mp captured]
  | bool _ | int _ _ | str _ | tuple _ | ctor _ _ _ _ | oneOf _ => simp [Pat.isWild] at isWild

theorem mem_capturesAll : name ∈ capturesAll ps ↔ ∃ p ∈ ps, name ∈ p.captures := by
  induction ps with
  | nil => simp [capturesAll]
  | cons p ps ih => simp [capturesAll, ih]

theorem mem_captures (own : p.head? = some head) : name ∈ p.captures ↔ ∃ q ∈ p.fields,
    name ∈ q.captures := by
  cases p with
  | tuple _ | ctor _ _ _ _ => exact mem_capturesAll
  | bool _ | int _ _ | str _ => simp [captures, Pat.fields]
  | wild _ | oneOf _ => simp [Pat.head?] at own

theorem Uniform.mem_captures (uniform : p.Uniform) (member : q ∈ p.alternatives) :
    name ∈ q.captures ↔ name ∈ p.captures := by
  have goesDown : ∀ {ps : List Pat} {p : Pat},
      (oneOf ps).Uniform ∧ (name ∈ (oneOf ps).captures ↔ name ∈ p.captures) → ∀ q ∈ ps,
        q.Uniform ∧ (name ∈ q.captures ↔ name ∈ p.captures) := by
    rintro (_ | ⟨first, rest⟩) p ⟨uniform, same⟩ q inside
    · cases inside
    · refine ⟨uniform.choice inside, Iff.trans ?_ same⟩
      rw [captures, capturesFirst]
      rcases List.mem_cons.mp inside with rfl | later
      · exact Iff.rfl
      · exact (uniform.self first rest rfl q later).mem_iff
  exact (@forall_alternatives (fun q => q.Uniform ∧ (name ∈ q.captures ↔ name ∈ p.captures))
    goesDown p q ⟨uniform, Iff.rfl⟩ member).2

end Shapes

end Pat

namespace Term

mutual

def EachMatch (holds : Ty → List Pat → Prop) : Term → Prop
  | var _ _ | lit _ _ | failure _ => True
  | tuple elems _ => EachMatchAll holds elems
  | ctor _ _ _ arg _ => EachMatchOption holds arg
  | lambda _ _ body _ => EachMatch holds body
  | app func arg _ => EachMatch holds func ∧ EachMatch holds arg
  | letIn _ definitions body _ => EachMatchDefinitions holds definitions ∧ EachMatch holds body
  | matchOn scrutinee arms _ =>
    EachMatch holds scrutinee ∧ holds scrutinee.ty (arms.map Arm.pat) ∧ EachMatchArms holds arms

def EachMatchAll (holds : Ty → List Pat → Prop) : List Term → Prop
  | [] => True
  | term :: terms => EachMatch holds term ∧ EachMatchAll holds terms

def EachMatchOption (holds : Ty → List Pat → Prop) : Option Term → Prop
  | none => True
  | some term => EachMatch holds term

def EachMatchDefinitions (holds : Ty → List Pat → Prop) : List Definition → Prop
  | [] => True
  | ⟨_, _, value⟩ :: rest => EachMatch holds value ∧ EachMatchDefinitions holds rest

def EachMatchArms (holds : Ty → List Pat → Prop) : List Arm → Prop
  | [] => True
  | ⟨_, body⟩ :: rest => EachMatch holds body ∧ EachMatchArms holds rest

end

variable {holds holds' : Ty → List Pat → Prop}

theorem eachMatchAll_iff {terms : List Term} :
    EachMatchAll holds terms ↔ ∀ term ∈ terms, term.EachMatch holds := by
  induction terms with
  | nil => simp [EachMatchAll]
  | cons term terms ih => simp [EachMatchAll, ih]

theorem eachMatchDefinitions_iff {definitions : List Definition} :
    EachMatchDefinitions holds definitions ↔ ∀ definition ∈ definitions,
      definition.value.EachMatch holds := by
  induction definitions with
  | nil => simp [EachMatchDefinitions]
  | cons definition definitions ih =>
    obtain ⟨name, scheme, value⟩ := definition
    simp [EachMatchDefinitions, ih]

theorem eachMatchArms_iff {arms : List Arm} :
    EachMatchArms holds arms ↔ ∀ arm ∈ arms, arm.body.EachMatch holds := by
  induction arms with
  | nil => simp [EachMatchArms]
  | cons arm arms ih =>
    obtain ⟨pat, body⟩ := arm
    simp [EachMatchArms, ih]

/-- Every match tests one level of its scrutinee. -/
def IsShallow (term : Term) : Prop := term.EachMatch fun _ pats => ∀ p ∈ pats, p.IsShallow

/-- The cases of every match have different heads, and there is none after one without a test. -/
def IsSwitching (term : Term) : Prop := term.EachMatch fun _ pats => Pat.IsSwitch pats

end Term

namespace Decision

variable {subst : Subst} {registry : Registry} {actions : List Term} {ty : Ty} {arms : List Arm}

section Induction

/-- A case for one part of a switch, with what holds of the tree below it. -/
def Below (motive : Problem → Term → Prop) (part : Pat × Problem) (arm : Arm) : Prop :=
  arm.pat = part.1 ∧ motive part.2 arm.body

/-- What holds of failures and leaves, and of switches if it holds of the trees below them, holds of
every tree. -/
theorem build_induction {motive : Problem → Term → Prop}
    (fail : ∀ problem, motive problem (.failure ty))
    (leaf : ∀ {problem line}, line ∈ problem.lines → Problem.column? line = none →
      motive problem (leafTerm actions ty problem.sources line))
    (again : ∀ {problem line col tree}, line ∈ problem.lines → Problem.column? line = some col →
      motive (problem.expand col) tree → motive problem tree)
    (switch : ∀ {problem line col supply supply' tested arms}, line ∈ problem.lines →
      Problem.column? line = some col →
      List.Forall₂
      (IsBranch registry (.of (problem.sourceAt col).ty subst registry) problem col supply supply')
        (problem.heads col) tested →
      List.Forall₂ (Below motive)
        (tested ++ fallback registry (.of (problem.sourceAt col).ty subst registry)
          problem col) arms →
      motive problem (.matchOn (problem.sourceAt col) arms ty))
    (problem : Problem) (supply : NameSupply) :
    motive problem (build subst registry actions ty problem supply).1 := by
  induction weight : problem.weight using Nat.strongRecOn generalizing problem supply with
  | ind bound ih =>
    subst weight
    have below := step_below subst registry problem supply
    rw [build_eq]
    unfold Problem.step at below ⊢
    split at below
    · exact fail problem
    · rename_i line lines found
      have first : line ∈ problem.lines := found ▸ List.mem_cons_self
      split at below
      · next column => exact leaf first column
      · next col column =>
        by_cases some : problem.lines.any fun line => (line.at col).isOneOf
        · rw [if_pos some] at below ⊢
          exact again first column (ih _ below _ _ rfl)
        · rw [if_neg some] at below ⊢
          obtain ⟨tested, supply', run, each, -⟩ :=
            split_spec registry (.of (problem.sourceAt col).ty subst registry) problem col supply
          rw [run] at below
          rw [run]
          refine switch first column each ?_
          have built := fun parts => (@built_parts subst registry actions ty parts
            (fun part _ start => le_build part.2 start) supply').1
          refine ((List.forall₂_and_left _ _).mpr ⟨below, built _⟩).imp fun part arm holds => ?_
          obtain ⟨lighter, pat, start, -, body⟩ := holds
          exact ⟨pat, body ▸ ih _ lighter part.2 start rfl⟩

theorem mapM_congr {α β : Type} {m : Type → Type} [Monad m] [LawfulMonad m] {f g : α → m β}
    {items : List α} (each : ∀ item ∈ items, f item = g item) : items.mapM f = items.mapM g := by
  induction items with
  | nil => simp only [List.mapM_nil]
  | cons item items ih =>
    obtain ⟨first, rest⟩ := List.forall_mem_cons.mp each
    rw [List.mapM_cons, List.mapM_cons, first, ih rest]

/-- The construction up to a depth, by recursion on the depth. -/
def buildWithin (subst : Subst) (registry : Registry) (actions : List Term) (ty : Ty) :
    Nat → Problem → StateM NameSupply Term
  | 0, _ => fun supply => (.failure ty, supply)
  | depth + 1, problem => fun supply =>
    match (problem.step subst registry).run supply with
    | (.fail, supply) => (.failure ty, supply)
    | (.leaf line, supply) => (leafTerm actions ty problem.sources line, supply)
    | (.again rest, supply) => buildWithin subst registry actions ty depth rest supply
    | (.switch source parts, supply) =>
      let (arms, supply) := (parts.mapM fun part => do
        let body ← buildWithin subst registry actions ty depth part.2
        pure (Arm.mk part.1 body) : StateM NameSupply (List Arm)).run supply
      (.matchOn source arms ty, supply)

theorem buildWithin_eq {depth : Nat} {problem : Problem} (deep : problem.weight < depth)
    (supply : NameSupply) :
    buildWithin subst registry actions ty depth problem supply =
      build subst registry actions ty problem supply := by
  induction depth generalizing problem supply with
  | zero => exact absurd deep (Nat.not_lt_zero _)
  | succ depth ih =>
    have below := step_below subst registry problem supply
    rw [build_eq, buildWithin]
    dsimp only
    generalize (problem.step subst registry).run supply = stepped at below ⊢
    obtain ⟨step, supply'⟩ := stepped
    cases step with
    | fail => rfl
    | leaf line => rfl
    | again rest => exact ih (Nat.lt_of_lt_of_le below (Nat.le_of_lt_succ deep)) supply'
    | switch source parts =>
      have same : parts.mapM (fun part => do
            let body ← buildWithin subst registry actions ty depth part.2
            pure (Arm.mk part.1 body) : _ → StateM NameSupply Arm) =
          parts.mapM (fun part => do
            let body ← build subst registry actions ty part.2
            pure (Arm.mk part.1 body) : _ → StateM NameSupply Arm) :=
        mapM_congr fun part inParts => by
          rw [funext fun supply =>
            ih (Nat.lt_of_lt_of_le (below part inParts) (Nat.le_of_lt_succ deep)) supply]
      exact congrArg (fun found : StateM NameSupply (List Arm) =>
        (Term.matchOn source (found supply').1 ty, (found supply').2)) same

end Induction

section Sources

variable {holds : Term → Prop} {problem : Problem} {line result : Line} {col : Nat} {name : Name}

structure Problem.Takes (holds : Term → Prop) (problem : Problem) : Prop where
  sources : ∀ source ∈ problem.sources, holds source
  captured : ∀ line ∈ problem.lines, ∀ entry ∈ line.captured, holds entry.2

theorem mem_captured_replace {source : Term} {inserted : Row} {entry : Name × Term}
    (member : entry ∈ (line.replace col source inserted).captured) : entry ∈ line.captured ∨
      entry.2 = source := by
  rw [Line.replace] at member
  dsimp only at member
  split at member
  · refine (List.mem_append.mp member).imp_right fun last => ?_
    rw [List.mem_singleton.mp last]
  · exact .inl member

theorem mem_captured_of_mem {source : Term} (inserted : Row) {entry : Name × Term}
    (member : entry ∈ line.captured) : entry ∈ (line.replace col source inserted).captured := by
  rw [Line.replace]
  dsimp only
  split
  · exact List.mem_append_left _ member
  · exact member

theorem mem_captured_of_at {source : Term} (inserted : Row)
    (here : line.at col = .wild (some name)) :
    (name, source) ∈ (line.replace col source inserted).captured := by
  rw [Line.replace, here]
  exact List.mem_append_right _ List.mem_cons_self

theorem exists_replace_of_specialize? {source : Term} {head : Head} {arity : Nat}
    (found : line.specialize? col source head arity = some result) :
    ∃ inserted, result = line.replace col source inserted := by
  rw [Line.specialize?] at found
  split at found
  · exact ⟨_, (Option.some.inj found).symm⟩
  · split at found
    · exact ⟨_, (Option.some.inj found).symm⟩
    · simp at found

theorem exists_replace_of_default? {source : Term}
    (found : line.default? col source = some result) :
    ∃ inserted, result = line.replace col source inserted := by
  rw [Line.default?] at found
  split at found
  · exact ⟨_, (Option.some.inj found).symm⟩
  · simp at found

namespace Problem.Takes

theorem sourceAt (takes : problem.Takes holds) (none : holds (.failure .unit)) (col : Nat) :
    holds (problem.sourceAt col) := by
  rw [Problem.sourceAt]
  cases found : problem.sources[col]? with
  | none => exact none
  | some source => exact takes.sources source (List.mem_of_getElem? found)

theorem expand (takes : problem.Takes holds) (col : Nat) : (problem.expand col).Takes holds where
  sources := takes.sources
  captured line member := by
    obtain ⟨line', inside, expanded⟩ := List.mem_flatMap.mp member
    obtain ⟨q, -, rfl⟩ := List.mem_map.mp expanded
    exact takes.captured line' inside

theorem splice {inserted : List Term} {change : Line → Option Line} (takes : problem.Takes holds)
    (none : holds (.failure .unit)) (new : ∀ source ∈ inserted, holds source)
    (replaces : ∀ {line result}, change line = some result →
      ∃ row, result = line.replace col (problem.sourceAt col) row) :
    Problem.Takes holds ⟨Decision.splice problem.sources col inserted,
      problem.lines.filterMap change⟩ where
  sources source member := (mem_splice member).elim (takes.sources source) (new source)
  captured line member entry inside := by
    obtain ⟨line', inLines, found⟩ := List.mem_filterMap.mp member
    obtain ⟨row, rfl⟩ := replaces found
    rcases mem_captured_replace inside with old | same
    · exact takes.captured line' inLines entry old
    · rw [same]
      exact takes.sourceAt none col

theorem specialize {fields : List Term} (takes : problem.Takes holds)
    (none : holds (.failure .unit))
    (new : ∀ field ∈ fields, holds field) (head : Head) :
    (problem.specialize col head fields).Takes holds :=
  takes.splice none new exists_replace_of_specialize?

theorem default (takes : problem.Takes holds) (none : holds (.failure .unit)) :
    (problem.default col).Takes holds :=
  takes.splice none nofun exists_replace_of_default?

theorem allCaptured (takes : problem.Takes holds) (member : line ∈ problem.lines) :
    ∀ entry ∈ line.allCaptured problem.sources, holds entry.2 := by
  intro entry inside
  rcases List.mem_append.mp inside with old | new
  · exact takes.captured line member entry old
  · obtain ⟨⟨p, source⟩, inZip, found⟩ := List.mem_filterMap.mp new
    split at found
    · obtain rfl := Option.some.inj found
      rename_i same
      obtain ⟨-, rfl⟩ := Prod.mk.inj same
      exact takes.sources _ (List.of_mem_zip inZip).2
    · simp at found

end Problem.Takes

theorem reads_leafTerm {sources : List Term}
    (reads : (leafTerm actions ty sources line).Reads name) :
    (∃ entry ∈ line.allCaptured sources, entry.2.Reads name) ∨
      name ∉ (line.allCaptured sources).map (·.1) ∧
        ∃ action, actions[line.action]? = some action ∧ action.Reads name := by
  have inAction : (actions[line.action]?.getD (.failure ty)).Reads name →
      ∃ action, actions[line.action]? = some action ∧ action.Reads name := by
    cases actions[line.action]? with
    | none => exact False.elim
    | some action => exact fun reads => ⟨action, rfl, reads⟩
  rw [leafTerm] at reads
  generalize line.allCaptured sources = entries at reads ⊢
  rcases entries with _ | ⟨⟨captured, source⟩, _ | ⟨other, rest⟩⟩
  · exact .inr ⟨List.not_mem_nil, inAction reads⟩
  · rcases reads with reads | ⟨outside, reads⟩ | none
    · exact .inl ⟨_, List.mem_cons_self, reads⟩
    · exact .inr ⟨outside, inAction reads⟩
    · exact none.elim
  · rcases reads with reads | ⟨outside, reads⟩ | none
    · obtain ⟨value, member, reads⟩ := Term.readsAny_iff.mp reads
      obtain ⟨entry, inside, rfl⟩ := List.mem_map.mp member
      exact .inl ⟨entry, inside, reads⟩
    · refine .inr ⟨fun member => outside ?_, inAction reads⟩
      obtain ⟨entry, inside, rfl⟩ := List.mem_map.mp member
      exact Pat.mem_capturesAll.mpr ⟨_, List.mem_map_of_mem inside, List.mem_singleton.mpr rfl⟩
    · exact none.elim

variable {emits : Ty → List Pat → Prop}

theorem eachMatch_leafTerm (one : ∀ {ty p}, p.IsShallow → emits ty [p])
    (each : ∀ action ∈ actions, action.EachMatch emits) (takes : problem.Takes (·.EachMatch emits))
    (member : line ∈ problem.lines) :
    (leafTerm actions ty problem.sources line).EachMatch emits := by
  have inAction : (actions[line.action]?.getD (.failure ty)).EachMatch emits := by
    cases found : actions[line.action]? with
    | none => exact trivial
    | some action => exact each action (List.mem_of_getElem? found)
  have inSources := takes.allCaptured member
  rw [leafTerm]
  generalize line.allCaptured problem.sources = entries at inSources
  rcases entries with _ | ⟨⟨captured, source⟩, _ | ⟨other, rest⟩⟩
  · exact inAction
  · exact ⟨inSources _ List.mem_cons_self, one (Pat.isShallow_wild _), inAction, trivial⟩
  · refine ⟨Term.eachMatchAll_iff.mpr fun value inside => ?_,
      one (Pat.isShallow_tuple fun p inside => ?_), inAction, trivial⟩
    · obtain ⟨entry, inEntries, rfl⟩ := List.mem_map.mp inside
      exact inSources entry inEntries
    · obtain ⟨entry, -, rfl⟩ := List.mem_map.mp inside
      rfl

end Sources

section Shape

variable {family : Family} {problem : Problem} {col : Nat} {supply supply' : NameSupply}
  {head : Head} {part : Pat × Problem} {name : Name}

theorem mem_fields {names : List Name} {types : List Ty} {field : Term}
    (member : field ∈ names.zipWith Term.var types) : ∃ name ∈ names, ∃ ty,
      field = .var name ty := by
  rw [← List.map_uncurry_zip_eq_zipWith] at member
  obtain ⟨⟨name, ty⟩, inZip, rfl⟩ := List.mem_map.mp member
  exact ⟨name, (List.of_mem_zip inZip).1, ty, rfl⟩

theorem IsBranch.isShallow
    (branch : IsBranch registry family problem col supply supply' head part) :
    part.1.IsShallow := by
  obtain ⟨names, -, -, rfl⟩ := branch
  refine (Pat.isShallow_pattern registry family head).withFields fun p member => ?_
  obtain ⟨name, -, rfl⟩ := List.mem_map.mp member
  rfl

theorem IsBranch.shape (branch : IsBranch registry family problem col supply supply' head part)
    (has : family.Has registry head) :
    part.1.head? = some head ∧ ∃ names : List Name,
      names.length = (family.fieldTypes registry head).length ∧
      (∀ name, name ∈ part.1.captures ↔ name ∈ names) ∧
      part.2 = problem.specialize col head
      (names.zipWith Term.var (family.fieldTypes registry head)) := by
  obtain ⟨names, length, -, rfl⟩ := branch
  have arity : (names.map Pat.capturing).length = family.arity registry head := by
    rw [List.length_map, length, Family.length_fieldTypes]
  obtain ⟨own, fields⟩ := Pat.withFields_pattern has arity
  refine ⟨own, names, length, fun name => ?_, rfl⟩
  rw [Pat.mem_captures own, fields]
  simp [Pat.capturing, Pat.captures]

theorem exists_branch {tested : List (Pat × Problem)} {heads : List Head}
    (each : List.Forall₂ (IsBranch registry family problem col supply supply') heads tested)
    (member : part ∈ tested ++ fallback registry family problem col) :
    (∃ head ∈ heads, IsBranch registry family problem col supply supply' head part) ∨
      part = (.any, problem.default col) := by
  rcases List.mem_append.mp member with member | member
  · exact .inl (forall₂_of_mem each.flip member)
  · rw [fallback] at member
    split at member
    · exact .inr (List.mem_singleton.mp member)
    · cases member

theorem map_pat_of_below {motive : Problem → Term → Prop} {parts : List (Pat × Problem)}
    (each : List.Forall₂ (Below motive) parts arms) : arms.map Arm.pat = parts.map Prod.fst := by
  induction each with
  | nil => rfl
  | cons first _ ih => rw [List.map_cons, List.map_cons, first.1, ih]

theorem shallow_build (each : ∀ action ∈ actions, action.IsShallow)
    (takes : problem.Takes Term.IsShallow) (supply : NameSupply) :
    (build subst registry actions ty problem supply).1.IsShallow := by
  refine @build_induction subst registry actions ty
    (fun problem tree => problem.Takes Term.IsShallow →
      tree.IsShallow)
    (fun _ _ => trivial) ?_ ?_ ?_ problem supply takes
  · exact fun member _ takes =>
      eachMatch_leafTerm (fun shallow => List.forall_mem_singleton.mpr shallow) each takes member
  · exact fun _ _ holds takes => holds (takes.expand _)
  · intro problem line col supply supply' tested arms _ _ branches built takes
    have none : (Term.failure .unit).IsShallow := trivial
    refine ⟨takes.sourceAt none col, ?_, Term.eachMatchArms_iff.mpr fun arm member => ?_⟩
    · rw [map_pat_of_below built]
      intro p member
      obtain ⟨part, inParts, rfl⟩ := List.mem_map.mp member
      rcases exists_branch branches inParts with ⟨head, -, branch⟩ | rfl
      · exact branch.isShallow
      · exact Pat.isShallow_wild _
    · obtain ⟨part, inParts, -, holds⟩ := forall₂_of_mem built.flip member
      refine holds ?_
      rcases exists_branch branches inParts with ⟨head, -, names, -, -, rfl⟩ | rfl
      · refine takes.specialize none (fun field inFields => ?_) head
        obtain ⟨_, -, _, rfl⟩ := mem_fields inFields
        trivial
      · exact takes.default none

variable {scrutinee : Term} {holds : Term → Prop}

theorem takes_start {name : Name} {sourceTy : Ty} (new : holds (.var name sourceTy))
    (arms : List Arm) :
    Problem.Takes holds ⟨[.var name sourceTy],
      arms.zipIdx.map fun (arm, action) => ⟨[arm.pat], [], action⟩⟩ where
  sources := List.forall_mem_singleton.mpr new
  captured line member := by
    obtain ⟨entry, -, rfl⟩ := List.mem_map.mp member
    exact List.forall_mem_nil _

theorem shallow_compile (inScrutinee : scrutinee.IsShallow)
    (inArms : ∀ arm ∈ arms, arm.body.IsShallow) (supply : NameSupply) :
    (compile subst registry scrutinee arms ty supply).1.IsShallow :=
  ⟨⟨inScrutinee, trivial⟩,
    shallow_build (List.forall_mem_map.mpr inArms) (takes_start trivial arms) _⟩

end Shape

end Decision

end PolyCheck
