import Mathlib.Data.List.Forall2
import PolyCheck.Subst.Resolve

/-! The two walks through a type, read as relations. A walk has a bound on its depth; what a
property needs of it is only which steps it took. So the walk for the head of a type becomes an
inductive with one case for each step, and what resolution makes of a head a relation between the
parts before and the parts after. -/
namespace PolyCheck

/-- A head that takes no arguments and has collected none. -/
def Ty.IsStuck : Ty → Prop
  | .quantified _ _ | .app _ _ => False
  | _ => True

namespace Subst

inductive Heads (subst : Subst) : Ty → Ty → Prop where
  | unsolved {v : TyVar} (free : ∀ solution, subst.rootCell v ≠ .bound solution) :
    Heads subst (.var v) (.var (subst.root v))
  | solved {v : TyVar} {solution head : Ty} (cell : subst.rootCell v = .bound solution)
    (rest : Heads subst solution head) : Heads subst (.var v) head
  | arrow {param result : Ty} : Heads subst (.arrow param result) (.arrow param result)
  | tuple {elems : List Ty} : Heads subst (.tuple elems) (.tuple elems)
  | nominal {template : TemplateId} {args : List Ty} : Heads subst (.nominal template args)
      (.nominal template args)
  | quantified {params : List TyVar} {body : Ty} : Heads subst (.quantified params body)
      (.quantified params body)
  | applied {function body head : Ty} {params : List TyVar} {args : List Ty}
    (first : Heads subst function (.quantified params body))
    (rest : Heads subst ((Ty.quantified params body).apply args) head) :
      Heads subst (.app function args) head
  | collected {function inner : Ty} {firsts args : List Ty}
      (first : Heads subst function (.app inner firsts)) :
    Heads subst (.app function args) (.app inner (firsts ++ args))
  | stuck {function other : Ty} {args : List Ty} (first : Heads subst function other)
      (stuck : other.IsStuck) : Heads subst (.app function args) (.app other args)

/-- A head whose parts are resolved. -/
inductive Rebuilt (part : Ty → Ty → Prop) : Ty → Ty → Prop where
  | var (v : TyVar) : Rebuilt part (.var v) (.var v)
  | arrow {p r p' r' : Ty} (fst : part p p') (snd : part r r') : Rebuilt part (.arrow p r)
      (.arrow p' r')
  | tuple {elems elems' : List Ty} (each : List.Forall₂ part elems elems') :
      Rebuilt part (.tuple elems) (.tuple elems')
  | nominal {template : TemplateId} {args args' : List Ty} (each : List.Forall₂ part args args') :
    Rebuilt part (.nominal template args) (.nominal template args')
  | quantified {params : List TyVar} {body body' : Ty} (inside : part body body') :
    Rebuilt part (.quantified params body) (.quantified params body')
  | app {head head' : Ty} {args args' : List Ty} (fst : part head head')
      (each : List.Forall₂ part args args') : Rebuilt part (.app head args) (head'.apply args')

variable {subst after : Subst} {ty head result : Ty} {part part' : Ty → Ty → Prop} {depth : Nat}

theorem heads_of_walk (walk : subst.shallowWithin depth ty = some head) : subst.Heads ty head := by
  induction depth generalizing ty head with
  | zero => cases walk
  | succ depth ih =>
    cases ty with
    | var v =>
      rw [shallowWithin] at walk
      split at walk
      · rename_i solution cell
        exact .solved cell (ih walk)
      · obtain rfl := Option.some.inj walk
        exact .unsolved ‹_›
    | app function args =>
      rw [shallowWithin] at walk
      cases inner : subst.shallowWithin depth function with
      | none => simp [inner] at walk
      | some found =>
        have first := ih inner
        rw [inner] at walk
        cases found with
        | quantified params body => exact .applied first (ih walk)
        | app core firsts =>
          obtain rfl := Option.some.inj walk
          exact .collected first
        | var _ | arrow _ _ | tuple _ | nominal _ _ =>
          obtain rfl := Option.some.inj walk
          exact .stuck first trivial
    | arrow _ _ | tuple _ | nominal _ _ | quantified _ _ =>
      obtain rfl := Option.some.inj walk
      constructor

section Same

variable (roots : ∀ v, after.root v = subst.root v)
  (solved : ∀ v solution, after.rootCell v = .bound solution ↔ subst.rootCell v = .bound solution)
include roots solved

theorem shallowWithin_congr (depth : Nat) (ty : Ty) :
    after.shallowWithin depth ty = subst.shallowWithin depth ty := by
  induction depth generalizing ty with
  | zero => rfl
  | succ depth ih =>
    cases ty with
    | var v =>
      rw [shallowWithin, shallowWithin, roots]
      split
      · rename_i solution cell
        simp only [(solved v solution).mp cell]
        exact ih solution
      · rename_i free
        split
        · rename_i solution cell
          exact absurd ((solved v solution).mpr cell) (free solution)
        · rfl
    | app head args =>
      rw [shallowWithin, shallowWithin, ih]
      cases subst.shallowWithin depth head with
      | none => rfl
      | some function =>
        cases function with
        | quantified params body => exact ih _
        | var _ | arrow _ _ | tuple _ | nominal _ _ | app _ _ => rfl
    | arrow _ _ | tuple _ | nominal _ _ | quantified _ _ => rfl

theorem zonkWithin_congr (depth : Nat) (ty : Ty) :
    after.zonkWithin depth ty = subst.zonkWithin depth ty := by
  induction depth generalizing ty with
  | zero => rfl
  | succ depth ih =>
    have each : after.zonkWithin depth = subst.zonkWithin depth := funext ih
    rw [zonkWithin, zonkWithin, shallowWithin_congr roots solved, each]

end Same

theorem mapM_eq_some_iff {α β : Type} {visit : α → Option β} {items : List α} {results : List β} :
    items.mapM visit = some results ↔
      List.Forall₂ (fun item result => visit item = some result) items results := by
  induction items generalizing results with
  | nil => simp [eq_comm]
  | cons item items ih =>
    simp only [List.mapM_cons, Option.bind_eq_bind, Option.bind_eq_some_iff,
      List.forall₂_cons_left_iff, ← ih]
    constructor
    · rintro ⟨first, here, rest, others, same⟩
      obtain rfl := Option.some.inj same
      exact ⟨first, rest, here, others, rfl⟩
    · rintro ⟨first, rest, here, others, rfl⟩
      exact ⟨first, here, rest, others, rfl⟩

theorem forall_of_forall₂ {α β : Type} {holds : α → β → Prop} {first : α → Prop} {second : β → Prop}
    {xs : List α} {ys : List β} (all : List.Forall₂ holds xs ys) (each : ∀ x ∈ xs, first x)
    (shown : ∀ x y, first x → holds x y → second y) : ∀ y ∈ ys, second y := by
  induction all with
  | nil => exact nofun
  | cons here _ ih =>
    obtain ⟨head, tail⟩ := List.forall_mem_cons.mp each
    exact List.forall_mem_cons.mpr ⟨shown _ _ head here, ih tail⟩

theorem Rebuilt.mono (rebuilt : Rebuilt part head result) (wider : ∀ t r, part t r → part' t r) :
    Rebuilt part' head result := by
  cases rebuilt with
  | var v => exact .var v
  | arrow fst snd => exact .arrow (wider _ _ fst) (wider _ _ snd)
  | tuple each => exact .tuple (each.imp wider)
  | nominal each => exact .nominal (each.imp wider)
  | quantified inside => exact .quantified (wider _ _ inside)
  | app fst each => exact .app (wider _ _ fst) (each.imp wider)

theorem zonkWithin_eq_some_iff : subst.zonkWithin (depth + 1) ty = some result ↔
    ∃ head, subst.shallowWithin (depth + 1) ty = some head ∧
      Rebuilt (fun t r => subst.zonkWithin depth t = some r) head result := by
  rw [zonkWithin, Option.bind_eq_bind, Option.bind_eq_some_iff]
  refine exists_congr fun head => and_congr_right fun _ => ?_
  cases head with
  | var v =>
    rw [Option.some.injEq]
    constructor
    · rintro rfl
      exact .var v
    · rintro ⟨⟩
      rfl
  | arrow p r =>
    simp only [Option.bind_eq_some_iff, Option.some.injEq]
    constructor
    · rintro ⟨p', first, r', second, rfl⟩
      exact .arrow first second
    · rintro ⟨⟩
      exact ⟨_, ‹_›, _, ‹_›, rfl⟩
  | tuple elems =>
    simp only [Option.bind_eq_bind, Option.bind_eq_some_iff, Option.some.injEq, mapM_eq_some_iff]
    constructor
    · rintro ⟨results, each, rfl⟩
      exact .tuple each
    · rintro ⟨⟩
      exact ⟨_, ‹_›, rfl⟩
  | nominal template args =>
    simp only [Option.bind_eq_bind, Option.bind_eq_some_iff, Option.some.injEq, mapM_eq_some_iff]
    constructor
    · rintro ⟨results, each, rfl⟩
      exact .nominal each
    · rintro ⟨⟩
      exact ⟨_, ‹_›, rfl⟩
  | quantified params body =>
    simp only [Option.bind_eq_some_iff, Option.some.injEq]
    constructor
    · rintro ⟨body', inside, rfl⟩
      exact .quantified inside
    · rintro ⟨⟩
      exact ⟨_, ‹_›, rfl⟩
  | app head args =>
    simp only [Option.bind_eq_bind, Option.bind_eq_some_iff, Option.some.injEq, mapM_eq_some_iff]
    constructor
    · rintro ⟨head', first, results, each, rfl⟩
      exact .app first each
    · rintro ⟨⟩
      exact ⟨_, ‹_›, _, ‹_›, rfl⟩

end Subst

end PolyCheck
