import PolyCheck.Proofs.Subst.Zonks
import PolyCheck.Proofs.Ty.Alike

/-! Resolution of a type by recursion on what it comes upon, without a bound on depth. The head of a
type is reduced step by step; where that ends at every type come upon, the parts of heads are
resolved and put together again. The walks with a bound on their depth give the same once the bound
is large enough, and nothing else before. -/
namespace PolyCheck

namespace Ty

/-- A head with other parts; an application is applied anew. -/
def rebuild : Ty → List Ty → Ty
  | arrow _ _, [param, result] => arrow param result
  | tuple _, parts => tuple parts
  | nominal template _, parts => nominal template parts
  | quantified params _, [body] => quantified params body
  | app _ _, function :: args => function.apply args
  | head, _ => head

end Ty

namespace Subst

variable {subst : Subst} {ty head inner result : Ty} {types parts args : List Ty} {depth : Nat}
  {v w r : TyVar}

inductive Chains (subst : Subst) : TyVar → TyVar → Prop where
  | last {v : TyVar} (notLink : ∀ w, subst.cell v ≠ .link w) : Chains subst v v
  | next {v w r : TyVar} (cell : subst.cell v = .link w) (rest : Chains subst w r) :
      Chains subst v r

/-- What a type has become when no step of reduction at its head is left. -/
inductive Reduces (subst : Subst) : Ty → Ty → Prop where
  | unsolved {v r : TyVar} (chains : subst.Chains v r) (isNew : (subst.cell r).IsNew) :
      Reduces subst (.var v) (.var r)
  | solved {v r : TyVar} {solution head : Ty} (chains : subst.Chains v r)
      (cell : subst.cell r = .bound solution)
    (rest : Reduces subst solution head) : Reduces subst (.var v) head
  | arrow (param result : Ty) : Reduces subst (.arrow param result) (.arrow param result)
  | tuple (elems : List Ty) : Reduces subst (.tuple elems) (.tuple elems)
  | nominal (template : TemplateId) (args : List Ty) : Reduces subst (.nominal template args)
      (.nominal template args)
  | quantified (params : List TyVar) (body : Ty) : Reduces subst (.quantified params body)
      (.quantified params body)
  | applied {function body head : Ty} {params : List TyVar} {args : List Ty}
    (first : Reduces subst function (.quantified params body))
    (rest : Reduces subst ((Ty.quantified params body).apply args) head) :
      Reduces subst (.app function args) head
  | collected {function inner : Ty} {firsts args : List Ty}
      (first : Reduces subst function (.app inner firsts)) :
    Reduces subst (.app function args) (.app inner (firsts ++ args))
  | stuck {function other : Ty} {args : List Ty} (first : Reduces subst function other)
      (stuck : other.IsStuck) : Reduces subst (.app function args) (.app other args)

/-- Reduction ends at a type and at all that is come upon below it. -/
inductive Settles (subst : Subst) : Ty → Prop where
  | intro {ty head : Ty} (reduces : subst.Reduces ty head) (each : ∀ part ∈ head.children,
      Settles subst part) : Settles subst ty

/-- The head of a type, put together from what its parts are rebuilt to. -/
inductive Rebuilds (subst : Subst) : Ty → Ty → Prop where
  | intro {ty head : Ty} {parts : List Ty} (reduces : subst.Reduces ty head)
      (length : head.children.length = parts.length)
    (each : ∀ pair ∈ head.children.zip parts, Rebuilds subst pair.1 pair.2) :
      Rebuilds subst ty (head.rebuild parts)

section Links

theorem rootWithin_add (first more : Nat) (v : TyVar) :
    subst.rootWithin (first + more) v = subst.rootWithin more (subst.rootWithin first v) := by
  induction first generalizing v with
  | zero => rw [Nat.zero_add, rootWithin]
  | succ first ih =>
    by_cases link : ∃ w, subst.cell v = .link w
    · obtain ⟨w, cell⟩ := link
      rw [Nat.succ_add, rootWithin_of_link cell, rootWithin_of_link cell, ih]
    · have notLink : ∀ w, subst.cell v ≠ .link w := fun w cell => link ⟨w, cell⟩
      rw [rootWithin_of_not_link notLink, rootWithin_of_not_link notLink,
        rootWithin_of_not_link notLink]

theorem Chains.notLink (chains : subst.Chains v r) (w : TyVar) : subst.cell r ≠ .link w := by
  induction chains with
  | last notLink => exact notLink w
  | next _ _ ih => exact ih

theorem Chains.steps (chains : subst.Chains v r) :
    ∃ count, subst.rootWithin count v = r ∧ ∀ step < count, ∃ w,
      subst.cell (subst.rootWithin step v) = .link w := by
  induction chains with
  | last _ => exact ⟨0, rfl, by omega⟩
  | @next v w r cell _ ih =>
    obtain ⟨count, ends, linked⟩ := ih
    refine ⟨count + 1, by rw [rootWithin_of_link cell, ends], fun step less => ?_⟩
    cases step with
    | zero => exact ⟨w, cell⟩
    | succ step =>
      rw [rootWithin_of_link cell]
      exact linked step (by omega)

theorem Chains.root (chains : subst.Chains v r) : subst.root v = r := by
  obtain ⟨count, ends, linked⟩ := chains.steps
  have apart : ∀ {first second : Nat}, first < second → second < count →
      subst.rootWithin first v ≠ subst.rootWithin second v := by
    intro first second less inside same
    obtain ⟨w, cell⟩ := linked (first + (count - second)) (by omega)
    rw [rootWithin_add, same, ← rootWithin_add, show second + (count - second) = count by omega,
      ends] at cell
    exact chains.notLink w cell
  have few : count ≤ subst.size := by
    have injective : Set.InjOn (fun step => (subst.rootWithin step v).index)
        (Finset.range count) := by
      intro first inFirst second inSecond same
      have same' : subst.rootWithin first v = subst.rootWithin second v := congrArg TyVar.mk same
      have inFirst := Finset.mem_range.mp inFirst
      have inSecond := Finset.mem_range.mp inSecond
      rcases Nat.lt_trichotomy first second with less | equal | less
      · exact absurd same' (apart less inSecond)
      · exact equal
      · exact absurd same'.symm (apart less inFirst)
    have inside : ∀ step ∈ Finset.range count, (subst.rootWithin step v).index ∈
        Finset.range subst.size := by
      intro step member
      obtain ⟨w, cell⟩ := linked step (Finset.mem_range.mp member)
      exact Finset.mem_range.mpr (inside_of_cell cell (by simp))
    simpa using Finset.card_le_card_of_injOn _ inside injective
  rw [Subst.root, show subst.size = count + (subst.size - count) by omega, rootWithin_add, ends,
    rootWithin_of_not_link chains.notLink]

end Links

section Heads

theorem Reduces.heads (reduces : subst.Reduces ty head) : subst.Heads ty head := by
  induction reduces with
  | @unsolved v r chains isNew =>
    rw [← chains.root] at isNew ⊢
    refine .unsolved fun solution cell => ?_
    rw [rootCell] at cell
    exact (cell ▸ isNew : Cell.IsNew (.bound solution)).elim
  | solved chains cell _ ih => exact .solved (by rw [rootCell, chains.root, cell]) ih
  | arrow _ _ => exact .arrow
  | tuple _ => exact .tuple
  | nominal _ _ => exact .nominal
  | quantified _ _ => exact .quantified
  | applied _ _ ihFirst ihRest => exact .applied ihFirst ihRest
  | collected _ ih => exact .collected ih
  | stuck _ stuck ih => exact .stuck ih stuck

theorem Reduces.shallows (reduces : subst.Reduces ty head) : subst.Shallows ty head :=
  reduces.heads.shallows

theorem Reduces.unique {other : Ty} (reduces : subst.Reduces ty head)
    (reduces' : subst.Reduces ty other) : head = other :=
  reduces.shallows.unique reduces'.shallows

theorem Reduces.stalled (reduces : subst.Reduces ty head) :
    (∀ x, head = .var x → (subst.cell x).IsNew) ∧
    ∀ inner args, head = .app inner args → subst.Stalled inner := by
  induction reduces with
  | unsolved _ isNew =>
    refine ⟨fun x same => ?_, nofun⟩
    obtain rfl := Ty.var.inj same
    exact isNew
  | solved _ _ _ ih => exact ih
  | arrow _ _ | tuple _ | nominal _ _ | quantified _ _ => exact ⟨nofun, nofun⟩
  | applied _ _ _ ih => exact ih
  | collected _ ih =>
    refine ⟨nofun, fun inner args same => ?_⟩
    obtain ⟨rfl, -⟩ := Ty.app.inj same
    exact ih.2 _ _ rfl
  | stuck _ stuck ih =>
    refine ⟨nofun, fun inner args same => ?_⟩
    obtain ⟨rfl, -⟩ := Ty.app.inj same
    exact ⟨stuck, ih.1⟩

end Heads

section Parts

theorem rebuilt_rebuild {part : Ty → Ty → Prop} (each : List.Forall₂ part head.children parts) :
    Rebuilt part head (head.rebuild parts) := by
  cases head with
  | var v => exact .var v
  | arrow param result =>
    obtain ⟨p, rest, fst, last, rfl⟩ := List.forall₂_cons_left_iff.mp each
    obtain ⟨r, rest, snd, none_, rfl⟩ := List.forall₂_cons_left_iff.mp last
    obtain rfl := List.forall₂_nil_left_iff.mp none_
    exact .arrow fst snd
  | tuple elems => exact .tuple each
  | nominal template args => exact .nominal each
  | quantified params body =>
    obtain ⟨b, rest, inside, none_, rfl⟩ := List.forall₂_cons_left_iff.mp each
    obtain rfl := List.forall₂_nil_left_iff.mp none_
    exact .quantified inside
  | app function args =>
    obtain ⟨f, rest, fst, others, rfl⟩ := List.forall₂_cons_left_iff.mp each
    exact .app fst others

theorem Rebuilt.forall₂ {part : Ty → Ty → Prop} (rebuilt : Rebuilt part head result) :
    ∃ parts, List.Forall₂ part head.children parts ∧ result = head.rebuild parts := by
  cases rebuilt with
  | var v => exact ⟨[], .nil, rfl⟩
  | arrow fst snd => exact ⟨[_, _], .cons fst (.cons snd .nil), rfl⟩
  | tuple each => exact ⟨_, each, rfl⟩
  | nominal each => exact ⟨_, each, rfl⟩
  | quantified inside => exact ⟨[_], .cons inside .nil, rfl⟩
  | app fst each => exact ⟨_ :: _, .cons fst each, rfl⟩

theorem forall₂_of_zip {holds : Ty → Ty → Prop} (length : types.length = parts.length)
    (each : ∀ pair ∈ types.zip parts, holds pair.1 pair.2) : List.Forall₂ holds types parts :=
  List.forall₂_iff_zip.mpr ⟨length, fun member => each _ member⟩

theorem exists_zip_of_mem (length : types.length = parts.length) (member : result ∈ parts) :
    ∃ part, (part, result) ∈ types.zip parts := by
  obtain ⟨index, inside, rfl⟩ := List.getElem_of_mem member
  refine ⟨types[index], List.mem_iff_getElem.mpr ⟨index, ?_, List.getElem_zip⟩⟩
  rw [List.length_zip]
  omega

theorem exists_forall₂ {holds : Ty → Ty → Prop} (each : ∀ t ∈ types, ∃ result, holds t result) :
    ∃ parts, List.Forall₂ holds types parts := by
  induction types with
  | nil => exact ⟨[], .nil⟩
  | cons t types ih =>
    obtain ⟨⟨result, first⟩, others⟩ := List.forall_mem_cons.mp each
    obtain ⟨parts, rest⟩ := ih others
    exact ⟨result :: parts, .cons first rest⟩

end Parts

theorem Settles.rebuilds (settles : subst.Settles ty) : ∃ result, subst.Rebuilds ty result := by
  induction settles with
  | @intro ty head reduces _ ih =>
    obtain ⟨parts, each⟩ := exists_forall₂ ih
    exact ⟨_, .intro reduces each.length_eq fun _ member => (List.forall₂_zip each member)⟩

theorem Rebuilds.settles (rebuilds : subst.Rebuilds ty result) : subst.Settles ty := by
  induction rebuilds with
  | @intro ty head parts reduces length _ ih =>
    refine .intro reduces fun part member => ?_
    obtain ⟨built, inZip⟩ := exists_zip_of_mem length.symm member
    exact ih (part, built) (Ty.mem_zip_swap inZip)

theorem Rebuilds.zonks (rebuilds : subst.Rebuilds ty result) : subst.Zonks ty result := by
  induction rebuilds with
  | intro reduces length _ ih =>
    exact zonks_iff.mpr ⟨_, reduces.shallows, rebuilt_rebuild (forall₂_of_zip length ih)⟩

theorem Rebuilds.unique {other : Ty} (rebuilds : subst.Rebuilds ty result)
    (rebuilds' : subst.Rebuilds ty other) : result = other :=
  rebuilds.zonks.unique rebuilds'.zonks

theorem Rebuilds.zonkWithin (rebuilds : subst.Rebuilds ty result)
    (ended : (subst.zonkWithin depth ty).isSome) : subst.zonkWithin depth ty = some result := by
  obtain ⟨found, walk⟩ := Option.isSome_iff_exists.mp ended
  rw [walk, Zonks.unique ⟨depth, walk⟩ rebuilds.zonks]

theorem Reduces.ended (reduces : subst.Reduces ty head)
    (ended : (subst.zonkWithin depth ty).isSome) :
    ∃ lower, depth = lower + 1 ∧ subst.shallowWithin depth ty = some head ∧
      ∀ part ∈ head.children, (subst.zonkWithin lower part).isSome := by
  obtain ⟨found, walk⟩ := Option.isSome_iff_exists.mp ended
  cases depth with
  | zero => cases walk
  | succ lower =>
    obtain ⟨other, shallow, rebuilt⟩ := zonkWithin_eq_some_iff.mp walk
    obtain rfl := reduces.shallows.unique ⟨_, shallow⟩
    obtain ⟨parts, each, -⟩ := rebuilt.forall₂
    refine ⟨lower, rfl, shallow, forall_of_forall₂ each.flip (fun _ _ => trivial) fun result part
      _ walk => ?_⟩
    exact Option.isSome_iff_exists.mpr ⟨result, walk⟩

section Result

theorem Stalled.reduces (stalled : subst.Stalled inner) (reduces : subst.Reduces inner head) :
    head = inner :=
  reduces.shallows.unique ⟨1, stalled.shallowWithin 0⟩

theorem isStuck_rebuild (stuck : head.IsStuck) (parts : List Ty) :
    (head.rebuild parts).IsStuck := by
  unfold Ty.rebuild
  split <;> trivial

theorem Rebuilds.isStuck (rebuilds : subst.Rebuilds inner result) (stalled : subst.Stalled inner) :
    result.IsStuck := by
  cases rebuilds with
  | intro reduces _ _ =>
    obtain rfl := stalled.reduces reduces
    exact isStuck_rebuild stalled.1 _

theorem Rebuilds.normal (rebuilds : subst.Rebuilds ty result) : subst.Normal result := by
  induction rebuilds with
  | @intro ty head parts reduces length each ih =>
    have normal : ∀ part ∈ parts, subst.Normal part := fun part member =>
      (exists_zip_of_mem length member).elim fun source member => ih _ member
    obtain ⟨vars, apps⟩ := reduces.stalled
    cases head with
    | var x => exact .var (vars x rfl)
    | arrow param result =>
      obtain ⟨p, r, rfl⟩ := List.length_eq_two.mp length.symm
      exact .arrow (normal p (by simp)) (normal r (by simp))
    | tuple elems => exact .tuple normal
    | nominal template args => exact .nominal normal
    | quantified params body =>
      obtain ⟨b, rfl⟩ := List.length_eq_one_iff.mp length.symm
      exact .quantified (normal b (by simp))
    | app inner args =>
      obtain ⟨function, others, rfl⟩ := List.exists_cons_of_length_pos (l := parts) (by
        rw [← length]
        exact Nat.succ_pos _)
      obtain ⟨first, rest⟩ := List.forall_mem_cons.mp normal
      have stuck := (each (inner, function) (by simp [Ty.children])).isStuck (apps _ _ rfl)
      change subst.Normal (function.apply others)
      rcases eq_or_ne others [] with rfl | given
      · rwa [Ty.apply_nil]
      · rw [apply_stuck stuck given]
        exact .app stuck first given rest

theorem Normal.reduces (normal : subst.Normal head) (stuck : head.IsStuck) :
    subst.Reduces head head := by
  cases normal with
  | var isNew =>
    refine .unsolved (.last fun w cell => ?_) isNew
    rw [cell] at isNew
    exact isNew
  | arrow _ _ => exact .arrow _ _
  | tuple _ => exact .tuple _
  | nominal _ => exact .nominal _ _
  | quantified _ | app _ _ _ _ => exact stuck.elim

theorem Reduces.rebuilds (reduces : subst.Reduces ty head)
    (each : ∀ part ∈ head.children, subst.Rebuilds part part) :
    subst.Rebuilds ty (head.rebuild head.children) := by
  refine .intro reduces rfl fun pair member => ?_
  obtain ⟨index, inside, rfl⟩ := List.getElem_of_mem member
  rw [List.getElem_zip]
  exact each _ (List.getElem_mem _)

theorem Normal.rebuilds (normal : subst.Normal ty) : subst.Rebuilds ty ty := by
  induction normal with
  | var isNew =>
    exact Reduces.rebuilds (Normal.reduces (.var isNew) trivial) (List.forall_mem_nil _)
  | @arrow param result _ _ ihParam ihResult =>
    exact Reduces.rebuilds (.arrow param result)
      (List.forall_mem_cons.mpr ⟨ihParam, List.forall_mem_singleton.mpr ihResult⟩)
  | @tuple elems _ ih => exact Reduces.rebuilds (.tuple elems) ih
  | @nominal template args _ ih => exact Reduces.rebuilds (.nominal template args) ih
  | @quantified params body _ ih =>
    exact Reduces.rebuilds (.quantified params body) (List.forall_mem_singleton.mpr ih)
  | @app head args stuck fst given _ ihHead ih =>
    have built : subst.Rebuilds (.app head args) (head.apply args) :=
      Reduces.rebuilds (.stuck (fst.reduces stuck) stuck) (List.forall_mem_cons.mpr ⟨ihHead, ih⟩)
    rwa [apply_stuck stuck given] at built

end Result

end Subst

end PolyCheck
