import PolyCheck.Proofs.Ty.Confined

/-! Properties of types that go down to the parts of a type and come up from them again. Variables
have such a property always; an application has it only with arguments, and any other application of
a function on types that has the property has it as well. Putting types with the property in place
of variables and applying functions on types then stays among the types with the property. -/
namespace PolyCheck.Ty

structure Hereditary (holds : Ty → Prop) : Prop where
  var (v : TyVar) : holds (.var v)
  arrow {param result : Ty} : holds (.arrow param result) ↔ holds param ∧ holds result
  tuple {elems : List Ty} : holds (.tuple elems) ↔ ∀ t ∈ elems, holds t
  nominal {template : TemplateId} {args : List Ty} : holds (.nominal template args) ↔
    ∀ t ∈ args, holds t
  quantified {params : List TyVar} {body : Ty} : holds (.quantified params body) ↔ holds body
  app {head : Ty} {args : List Ty} : holds (.app head args) → args ≠ [] ∧ holds head ∧
    ∀ t ∈ args, holds t
  reapply {head other : Ty} {args others : List Ty} : holds (.app head args) → others ≠ [] →
    holds other → (∀ t ∈ others, holds t) → holds (.app other others)

variable {holds : Ty → Prop}

mutual

theorem Hereditary.substitute (hereditary : Hereditary holds) :
    ∀ {ty : Ty} {assignment : Assignment}, holds ty → (∀ v, holds (assignment.image v)) →
      holds (ty.substitute assignment)
  | .var v, _, _, images => images v
  | .arrow _ _, _, held, images =>
    have ⟨fst, snd⟩ := hereditary.arrow.mp held
    hereditary.arrow.mpr ⟨hereditary.substitute fst images, hereditary.substitute snd images⟩
  | .tuple _, _, held, images =>
    hereditary.tuple.mpr (hereditary.substituteAll (hereditary.tuple.mp held) images)
  | .nominal _ _, _, held, images =>
    hereditary.nominal.mpr (hereditary.substituteAll (hereditary.nominal.mp held) images)
  | .quantified params body, assignment, held, images => by
    refine hereditary.quantified.mpr
      (hereditary.substitute (hereditary.quantified.mp held) fun v => ?_)
    rw [Assignment.image_without]
    split
    · exact hereditary.var v
    · exact images v
  | .app head args, assignment, held, images => by
    obtain ⟨some, fst, each⟩ := hereditary.app held
    refine hereditary.reapply held ?_ (hereditary.substitute fst images)
      (hereditary.substituteAll each images)
    simpa [substituteAll_eq_map] using some

theorem Hereditary.substituteAll (hereditary : Hereditary holds) :
    ∀ {types : List Ty} {assignment : Assignment}, (∀ t ∈ types, holds t) →
      (∀ v, holds (assignment.image v)) → ∀ t ∈ Ty.substituteAll assignment types, holds t
  | [], _, _, _ => List.forall_mem_nil _
  | _ :: _, _, each, images =>
    have ⟨first, rest⟩ := List.forall_mem_cons.mp each
    List.forall_mem_cons.mpr ⟨hereditary.substitute first images,
      hereditary.substituteAll rest images⟩

end

theorem Hereditary.substitute_ofLists (hereditary : Hereditary holds) {ty : Ty} (held : holds ty)
    {vars : List TyVar} {types : List Ty} (each : ∀ t ∈ types, holds t) :
    holds (ty.substitute (.ofLists vars types)) := by
  refine hereditary.substitute held fun v => ?_
  rcases Assignment.image_cases vars types v with member | ⟨same, -⟩
  · exact each _ member
  · exact same ▸ hereditary.var v

theorem Hereditary.apply (hereditary : Hereditary holds) {head : Ty} {args : List Ty}
    (held : holds head)
    (each : ∀ t ∈ args, holds t) (applied : ∃ other others, holds (.app other others)) :
    holds (head.apply args) := by
  obtain ⟨other, others, witness⟩ := applied
  fun_induction Ty.apply head args with
  | case1 head => exact held
  | case2 body args _ ih => exact ih (hereditary.quantified.mp held) each
  | case3 p ps body a as result fewer =>
    exact hereditary.quantified.mpr
      (hereditary.substitute_ofLists (hereditary.quantified.mp held) each)
  | case4 p ps body a as result enough ih =>
    exact ih (hereditary.substitute_ofLists (hereditary.quantified.mp held) each)
      fun t member => each t (List.mem_of_mem_drop member)
  | case5 inner first args _ =>
    obtain ⟨some, fst, firsts⟩ := hereditary.app held
    refine hereditary.reapply held (by simp [some]) fst fun t member => ?_
    exact (List.mem_append.mp member).elim (firsts t) (each t)
  | case6 head args some _ _ _ => exact hereditary.reapply witness some held each

theorem Hereditary.children (hereditary : Hereditary holds) {ty : Ty} (held : holds ty) :
    ∀ child ∈ ty.children, holds child := by
  cases ty with
  | var _ => exact List.forall_mem_nil _
  | arrow _ _ =>
    obtain ⟨fst, snd⟩ := hereditary.arrow.mp held
    exact List.forall_mem_cons.mpr ⟨fst, List.forall_mem_singleton.mpr snd⟩
  | tuple _ => exact hereditary.tuple.mp held
  | nominal _ _ => exact hereditary.nominal.mp held
  | quantified _ _ => exact List.forall_mem_singleton.mpr (hereditary.quantified.mp held)
  | app _ _ =>
    obtain ⟨-, fst, each⟩ := hereditary.app held
    exact List.forall_mem_cons.mpr ⟨fst, each⟩

/-- Applications have arguments, and there are some only if they are allowed. -/
inductive Applied (allowed : Prop) : Ty → Prop where
  | var (v : TyVar) : Applied allowed (.var v)
  | arrow {param result : Ty} (fst : Applied allowed param) (snd : Applied allowed result) :
    Applied allowed (.arrow param result)
  | tuple {elems : List Ty} (each : ∀ t ∈ elems, Applied allowed t) : Applied allowed (.tuple elems)
  | nominal {template : TemplateId} {args : List Ty} (each : ∀ t ∈ args, Applied allowed t) :
    Applied allowed (.nominal template args)
  | quantified {params : List TyVar} {body : Ty} (inside : Applied allowed body) :
    Applied allowed (.quantified params body)
  | app {head : Ty} {args : List Ty} (may : allowed) (some : args ≠ []) (fst : Applied allowed head)
    (each : ∀ t ∈ args, Applied allowed t) : Applied allowed (.app head args)

theorem hereditary_applied (allowed : Prop) : Hereditary (Applied allowed) where
  var := .var
  arrow := ⟨fun | .arrow fst snd => ⟨fst, snd⟩, fun ⟨fst, snd⟩ => .arrow fst snd⟩
  tuple := ⟨fun | .tuple each => each, .tuple⟩
  nominal := ⟨fun | .nominal each => each, .nominal⟩
  quantified := ⟨fun | .quantified inside => inside, .quantified⟩
  app := fun | .app _ given fst each => ⟨given, fst, each⟩
  reapply := fun | .app may _ _ _, given, fst, each => .app may given fst each

end PolyCheck.Ty
