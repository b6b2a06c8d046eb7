import PolyCheck.Proofs.Pat.Worklist
import PolyCheck.Proofs.Session.Soundness
import PolyCheck.Proofs.Term.Selection

/-! Decision trees with a list of open tasks instead of the recursion. A problem that is split gives
way to the problems of its branches, with a task behind them that takes as many trees as there are
branches from those that are through. Each problem of a branch is lighter than the one it comes
from, so every problem leaves one tree. -/
namespace PolyCheck.Decision

section Columns

variable {col : Nat} {line : Line}

end Columns

section Heads

variable {subst : Subst} {registry : Registry} {problem : Problem}

/-- The heads of all types that a decision may look at can be found. -/
def Problem.Headed (subst : Subst) (registry : Registry) (problem : Problem) : Prop :=
  ∀ source ∈ problem.sources, PolyCheck.Headed subst registry source.ty

/-- Whether the head of the column that is split next is never found. -/
def Problem.stands (subst : Subst) (registry : Registry) (problem : Problem) : Bool :=
  match problem.lines.head?.bind Problem.column? with
  | some col =>
    !(problem.lines.any fun line => (line.at col).isOneOf) &&
      problem.sources[col]?.any fun source => (Family.of? source.ty subst registry).isNone
  | none => false

theorem Problem.Headed.moves (headed : problem.Headed subst registry) :
    problem.stands subst registry = false := by
  unfold Problem.stands
  split
  next col _ =>
    rw [Bool.and_eq_false_iff]
    right
    cases inside : problem.sources[col]? with
    | none => rfl
    | some source =>
      rw [Option.any_some, Option.isNone_eq_false_iff]
      exact (headed source (List.mem_of_getElem? inside)).isSome_of?
  · rfl

theorem ty_of_mintFields {types : List Ty} {supply : NameSupply} {field : Term}
    (member : field ∈ ((mintFields types).run supply).1) : field.ty ∈ types := by
  induction types generalizing supply with
  | nil => cases member
  | cons ty types ih =>
    rcases List.mem_cons.mp member with rfl | behind
    · exact List.mem_cons_self
    · exact List.mem_cons_of_mem _ (ih behind)

theorem sources_of_branches {family : Family} {col : Nat} {heads : List Head} {supply : NameSupply}
    {branch : Pat × Problem}
    (member : branch ∈ ((branches registry family problem col heads).run supply).1)
    {source : Term} (inside : source ∈ branch.2.sources) :
    source ∈ problem.sources ∨ ∃ head, source.ty ∈ family.fieldTypes registry head := by
  induction heads generalizing supply with
  | nil => cases member
  | cons head heads ih =>
    rcases List.mem_cons.mp member with rfl | behind
    · exact (mem_splice inside).imp_right fun inFields => ⟨head, ty_of_mintFields inFields⟩
    · exact ih behind

def Step.Headed (subst : Subst) (registry : Registry) : Step → Prop
  | .fail | .leaf _ => True
  | .again rest => rest.Headed subst registry
  | .switch _ parts => ∀ part ∈ parts, part.2.Headed subst registry

theorem Problem.Headed.step (headed : problem.Headed subst registry) (supply : NameSupply) :
    ((problem.step subst registry).run supply).1.Headed subst registry := by
  have known : ∀ col, PolyCheck.Headed subst registry (problem.sourceAt col).ty := fun col => by
    rw [Problem.sourceAt]
    cases found : problem.sources[col]? with
    | none => exact headed_unit subst registry
    | some source => exact headed source (List.mem_of_getElem? found)
  have tested : ∀ col,
    ∀ branch ∈ ((branches registry (.of (problem.sourceAt col).ty subst registry) problem col
      (problem.heads col)).run supply).1, branch.2.Headed subst registry := by
    intro col branch member source inside
    rcases sources_of_branches member inside with other | ⟨head, field⟩
    · exact headed source other
    · exact (known col).field field
  unfold Problem.step
  split
  · trivial
  split
  · trivial
  next col _ =>
    split
    · exact headed
    · unfold Problem.split
      simp only [StateT.run_bind]
      split
      · intro part member
        rcases List.mem_append.mp member with member | member
        · exact tested col part member
        · rw [List.mem_singleton.mp member]
          exact fun source inside =>
            headed source ((mem_splice inside).resolve_right List.not_mem_nil)
      · exact fun part member => tested col part member

end Heads

/-- A problem that is to be decided, or branches whose trees come before it. -/
inductive Task where
  | decide (problem : Problem)
  | switch (source : Term) (pats : List Pat)

/-- The open tasks, and the trees that are through, the last one first. -/
structure Construction where
  tasks : List Task
  done : List Term
  supply : NameSupply

namespace Construction

variable {subst : Subst} {registry : Registry} {actions : List Term} {ty : Ty}

/-- One turn of the construction. A problem on a column whose head is never found stays open. -/
def turn (subst : Subst) (registry : Registry) (actions : List Term) (ty : Ty) : Construction →
    Construction
  | ⟨.switch source pats :: tasks, done, supply⟩ =>
    ⟨tasks, .matchOn source (pats.zipWith Arm.mk (done.take pats.length).reverse) ty ::
      done.drop pats.length, supply⟩
  | ⟨.decide problem :: tasks, done, supply⟩ =>
    if problem.stands subst registry then ⟨.decide problem :: tasks, done, supply⟩
    else
      match (problem.step subst registry).run supply with
      | (.fail, supply) => ⟨tasks, .failure ty :: done, supply⟩
      | (.leaf line, supply) => ⟨tasks, leafTerm actions ty problem.sources line :: done, supply⟩
      | (.again rest, supply) => ⟨.decide rest :: tasks, done, supply⟩
      | (.switch source parts, supply) =>
        ⟨parts.map (fun part => .decide part.2) ++ .switch source (parts.map Prod.fst) :: tasks,
          done, supply⟩
  | ⟨[], done, supply⟩ => ⟨[], done, supply⟩

/-- The construction behind a problem: one more tree is through. -/
def decided (tasks : List Task) (done : List Term) (built : Term × NameSupply) : Construction :=
  ⟨tasks, built.1 :: done, built.2⟩

def arms (subst : Subst) (registry : Registry) (actions : List Term) (ty : Ty)
    (parts : List (Pat × Problem)) : StateM NameSupply (List Arm) :=
  parts.mapM fun part => do
    let body ← build subst registry actions ty part.2
    pure (Arm.mk part.1 body)

end Construction

/-- Lists of elements of any type: the end, or an element in front of another list. -/
def listTemplate : Template :=
  ⟨"list", [(⟨0⟩, .star)], [⟨"Nil", []⟩, ⟨"Cons", [.var ⟨0⟩, .nominal ⟨2⟩ [.var ⟨0⟩]]⟩], true, none⟩

def lists : Registry :=
  { Registry.initial with templates := Registry.initial.templates.alloc listTemplate }

end PolyCheck.Decision
