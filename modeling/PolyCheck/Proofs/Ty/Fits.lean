import PolyCheck.Proofs.Ty.Confined

/-! Types that refer to nothing that is missing. A shape says how many variables there are and which
definitions, with how many parameters. Types fit a shape when their variables, those of quantifiers
included, and their definitions are there and every definition has as many arguments as
parameters. -/
namespace PolyCheck

/-- The number of variables, and the number of parameters of every definition that there is. -/
structure Shape where
  cells : Nat
  arity? : TemplateId → Option Nat

instance : Preorder Shape where
  le shape larger := shape.cells ≤ larger.cells ∧
    ∀ id count, shape.arity? id = some count → larger.arity? id = some count
  le_refl _ := ⟨Nat.le_refl _, fun _ _ => id⟩
  le_trans _ _ _ first second :=
    ⟨Nat.le_trans first.1 second.1,
      fun id count known => second.2 id count (first.2 id count known)⟩

def Shape.withCells (shape : Shape) (cells : Nat) : Shape := { shape with cells }

theorem Shape.le_withCells {shape : Shape} {cells : Nat} (more : shape.cells ≤ cells) :
    shape ≤ shape.withCells cells :=
  ⟨more, fun _ _ => id⟩

theorem Shape.isSome_arity? {shape larger : Shape} (grown : shape ≤ larger) {id : TemplateId}
    (known : (shape.arity? id).isSome) : (larger.arity? id).isSome := by
  obtain ⟨count, same⟩ := Option.isSome_iff_exists.mp known
  rw [grown.2 id count same]
  rfl

namespace Ty

inductive Fits (shape : Shape) : Ty → Prop where
  | var {v : TyVar} (inside : v.index < shape.cells) : Fits shape (.var v)
  | arrow {param result : Ty} (fst : Fits shape param) (snd : Fits shape result) :
    Fits shape (.arrow param result)
  | tuple {elems : List Ty} (each : ∀ t ∈ elems, Fits shape t) : Fits shape (.tuple elems)
  | nominal {id : TemplateId} {args : List Ty} (arity : shape.arity? id = some args.length)
    (each : ∀ t ∈ args, Fits shape t) : Fits shape (.nominal id args)
  | quantified {params : List TyVar} {body : Ty} (binders : ∀ p ∈ params, p.index < shape.cells)
    (inside : Fits shape body) : Fits shape (.quantified params body)
  | app {head : Ty} {args : List Ty} (fst : Fits shape head) (each : ∀ t ∈ args, Fits shape t) :
    Fits shape (.app head args)

variable {shape larger : Shape} {ty head : Ty} {args : List Ty}

theorem Fits.grow (fits : ty.Fits shape) (grown : shape ≤ larger) : ty.Fits larger := by
  induction fits with
  | var inside => exact .var (Nat.lt_of_lt_of_le inside grown.1)
  | arrow _ _ ihParam ihResult => exact .arrow ihParam ihResult
  | tuple _ ih => exact .tuple ih
  | nominal arity _ ih => exact .nominal (grown.2 _ _ arity) ih
  | quantified binders _ ih =>
    exact .quantified (fun p member => Nat.lt_of_lt_of_le (binders p member) grown.1) ih
  | app _ _ ihHead ih => exact .app ihHead ih

theorem Fits.index_lt {v : TyVar} (fits : Fits shape (.var v)) : v.index < shape.cells := by
  cases fits with
  | var inside => exact inside

theorem Fits.quantified_inv {params : List TyVar} {body : Ty}
    (fits : Fits shape (.quantified params body)) :
    (∀ p ∈ params, p.index < shape.cells) ∧ body.Fits shape := by
  cases fits with
  | quantified binders inside => exact ⟨binders, inside⟩

theorem Fits.app_inv (fits : Fits shape (.app head args)) : head.Fits shape ∧ ∀ t ∈ args,
    t.Fits shape := by
  cases fits with
  | app fst each => exact ⟨fst, each⟩

theorem Fits.children (fits : ty.Fits shape) : ∀ child ∈ ty.children, child.Fits shape := by
  cases fits with
  | var _ => exact List.forall_mem_nil _
  | arrow fst snd => exact List.forall_mem_cons.mpr ⟨fst, List.forall_mem_singleton.mpr snd⟩
  | tuple each => exact each
  | nominal _ each => exact each
  | quantified _ inside => exact List.forall_mem_singleton.mpr inside
  | app fst each => exact List.forall_mem_cons.mpr ⟨fst, each⟩

theorem Fits.tupled {types : List Ty} (each : ∀ t ∈ types, t.Fits shape) :
    (Ty.tupled types).Fits shape := by
  unfold Ty.tupled
  split
  · exact each _ (List.mem_singleton_self _)
  · exact .tuple each

theorem Fits.substitute (fits : ty.Fits shape) {assignment : Assignment}
    (images : ∀ v, v.index < shape.cells → (assignment.image v).Fits shape) :
    (ty.substitute assignment).Fits shape := by
  induction fits generalizing assignment with
  | var inside => exact images _ inside
  | arrow _ _ ihParam ihResult => exact .arrow (ihParam images) (ihResult images)
  | tuple _ ih =>
    rw [Ty.substitute, substituteAll_eq_map]
    exact .tuple (List.forall_mem_map.mpr fun t member => ih t member images)
  | nominal arity _ ih =>
    rw [Ty.substitute, substituteAll_eq_map]
    exact .nominal (by rw [arity, List.length_map]) (List.forall_mem_map.mpr fun t member =>
      ih t member images)
  | quantified binders _ ih =>
    refine .quantified binders (ih fun v inside => ?_)
    rw [Assignment.image_without]
    split
    · exact .var inside
    · exact images v inside
  | app _ _ ihHead ih =>
    rw [Ty.substitute, substituteAll_eq_map]
    exact .app (ihHead images) (List.forall_mem_map.mpr fun t member => ih t member images)

theorem Fits.substitute_ofLists (fits : ty.Fits shape) {vars : List TyVar} {types : List Ty}
    (each : ∀ t ∈ types, t.Fits shape) : (ty.substitute (.ofLists vars types)).Fits shape := by
  refine fits.substitute fun v inside => ?_
  rcases Assignment.image_cases vars types v with member | ⟨same, -⟩
  · exact each _ member
  · exact same ▸ .var inside

theorem Fits.apply (fits : head.Fits shape) (each : ∀ t ∈ args, t.Fits shape) :
    (head.apply args).Fits shape := by
  fun_induction Ty.apply head args with
  | case1 head => exact fits
  | case2 body args _ ih => exact ih fits.quantified_inv.2 each
  | case3 p ps body a as result fewer =>
    obtain ⟨binders, inside⟩ := fits.quantified_inv
    exact .quantified (fun q member => binders q (List.mem_of_mem_drop member))
      (inside.substitute_ofLists each)
  | case4 p ps body a as result enough ih =>
    exact ih (fits.quantified_inv.2.substitute_ofLists each) fun t member =>
      each t (List.mem_of_mem_drop member)
  | case5 inner first args _ =>
    obtain ⟨fst, others⟩ := fits.app_inv
    exact .app fst fun t member => (List.mem_append.mp member).elim (others t) (each t)
  | case6 => exact .app fits each

end Ty

end PolyCheck
