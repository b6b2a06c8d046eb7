import PolyCheck.Proofs.Subst.MostGeneral
import PolyCheck.Proofs.Subst.Sparing
import PolyCheck.Proofs.Term.Typing
import PolyCheck.Proofs.Ty.Confined

/-! Typed patterns under later cells. A pattern with a test needs to know the head of its type, and
what is known of heads is not changed by solving more variables; where the fields of definitions are
first-order, it is not changed by replacing solved variables either. So cases that are typed when
they are checked are typed when they are compiled, at the resolved type of what they look at. -/
namespace PolyCheck

namespace Ty

/-- A head that is neither a variable nor an application. -/
def isSolid : Ty → Bool
  | var _ | app _ _ => false
  | _ => true

end Ty

namespace Subst

variable {subst after : Subst} {ty result : Ty} {depth depth' : Nat}

/-- What is solved stays solved in the same way, and walks over types may go as deep. -/
structure Retains (subst after : Subst) : Prop where
  size_le : subst.size ≤ after.size
  mass_le : subst.mass ≤ after.mass
  solved : ∀ {v : TyVar} {ty : Ty}, subst.rootCell v = .bound ty → after.rootCell v = .bound ty

theorem total_le_total {sizes sizes' : List Nat}
    (each : ∀ index : Nat, sizes[index]?.getD 0 ≤ sizes'[index]?.getD 0) :
    total sizes ≤ total sizes' := by
  induction sizes generalizing sizes' with
  | nil => exact Nat.zero_le _
  | cons size sizes ih =>
    have here := each 0
    have rest := @ih sizes'.tail fun index => by simpa using each (index + 1)
    cases sizes' with
    | nil =>
      simp only [List.getElem?_cons_zero, Option.getD_some, List.getElem?_nil,
        Option.getD_none] at here
      simp only [List.tail_nil, total_nil] at rest
      simp only [total_cons, total_nil]
      omega
    | cons size' sizes' =>
      simp only [List.getElem?_cons_zero, Option.getD_some] at here
      simp only [List.tail_cons] at rest
      simp only [total_cons]
      omega

theorem mass_le_of_cells
    (kept : ∀ v, subst.cell v ≠ .unbound → after.cell v = subst.cell v) :
    subst.mass ≤ after.mass := by
  have shown : ∀ (cells : Subst) (index : Nat),
      (cells.cells.toList.map Cell.size)[index]?.getD 0 = (cells.cell ⟨index⟩).size := by
    intro cells index
    rw [List.getElem?_map, Array.getElem?_toList, Subst.cell]
    cases cells.cells[index]? <;> rfl
  rw [subst.mass_eq, after.mass_eq]
  refine total_le_total fun index => ?_
  rw [shown, shown]
  by_cases unbound : subst.cell ⟨index⟩ = .unbound
  · simp [unbound, Cell.size]
  · rw [kept _ unbound]

/-- Cells of which only unbound ones are written keep what is solved. -/
theorem Tame.retains_of_cells (tame : subst.Tame) (tame' : after.Tame)
    (size_le : subst.size ≤ after.size)
    (kept : ∀ v, subst.cell v ≠ .unbound → after.cell v = subst.cell v) : subst.Retains after where
  size_le := size_le
  mass_le := mass_le_of_cells kept
  solved {v ty} := by
    induction v using tame.linkInduction with
    | unlinked v notLink =>
      intro bound
      rw [rootCell, root_of_not_link notLink] at bound
      have cell : after.cell v = .bound ty := (kept v (by simp [bound])).trans bound
      rw [rootCell, root_of_not_link (by simp [cell]), cell]
    | linked v w link ih =>
      intro bound
      rw [rootCell, tame.root_of_link link] at bound
      have cell : after.cell v = .link w := (kept v (by simp [link])).trans link
      rw [rootCell, tame'.root_of_link cell]
      exact ih bound

theorem Tame.retains_unify (tame : subst.Tame) {left right : Ty}
    (plain : left.FirstOrder subst.size)
    (plain' : right.FirstOrder subst.size) (result : Subst.unify left right subst = .ok () after) :
    subst.Retains after := by
  have outcome := tame.outcome_unify plain plain'
  rw [result] at outcome
  have unified := outcome.1
  refine tame.retains_of_cells unified.tame (Nat.le_of_eq unified.size.symm) fun v solved => ?_
  by_cases involved : subst.Involves [(left, right)] v
  · obtain ⟨pair, member, inLeaves⟩ := involved
    obtain rfl := List.mem_singleton.mp member
    have unsolved : subst.Unsolved v :=
      inLeaves.elim (tame.unsolved_of_mem plain) (tame.unsolved_of_mem plain')
    have notLink := tame.cell_root_ne_link v
    rw [unsolved.2.1] at notLink
    cases cell : subst.cell v with
    | unbound => exact absurd cell solved
    | link target => exact absurd cell (notLink target)
    | bound ty => exact absurd cell (unsolved.2.2 ty)
    | rigid name => exact (unified.later.rigid unsolved.1).mpr cell
  · exact unified.untouched involved

theorem Retains.depthBound_le (retains : subst.Retains after) (size : Nat) :
    subst.depthBound size ≤ after.depthBound size := by
  have sizes := retains.size_le
  have masses := retains.mass_le
  exact Nat.add_le_add_left (Nat.mul_le_mul (by omega) (by omega)) _

theorem Retains.shallowWithin (retains : subst.Retains after)
    (walk : subst.shallowWithin depth ty = some result) (solid : result.isSolid = true) :
    after.shallowWithin depth ty = some result := by
  induction depth generalizing ty result with
  | zero => simp [Subst.shallowWithin] at walk
  | succ depth ih =>
    cases ty with
    | var v =>
      rw [Subst.shallowWithin] at walk ⊢
      cases cell : subst.rootCell v with
      | bound solved =>
        simp only [cell] at walk
        simp only [retains.solved cell]
        exact ih walk solid
      | unbound | rigid _ | link _ =>
        simp only [cell, Option.some.injEq] at walk
        simp [← walk, Ty.isSolid] at solid
    | app head args =>
      rw [Subst.shallowWithin] at walk ⊢
      cases inner : subst.shallowWithin depth head with
      | none => simp [inner] at walk
      | some function =>
        rw [inner] at walk
        cases function with
        | quantified params body =>
          rw [ih inner rfl]
          exact ih walk solid
        | var _ | arrow _ _ | tuple _ | nominal _ _ | app _ _ =>
          obtain rfl := Option.some.inj walk
          simp [Ty.isSolid] at solid
    | arrow _ _ | tuple _ | nominal _ _ | quantified _ _ => exact walk

theorem shallowWithin_shallow (head : subst.shallow ty = result) (solid : result.isSolid = true) :
    subst.shallowWithin (subst.depthBound ty.size) ty = some result := by
  cases walk : subst.shallowWithin (subst.depthBound ty.size) ty with
  | some found =>
    rw [shallow, shallow?, walk, Option.getD_some] at head
    rw [head]
  | none =>
    rw [shallow, shallow?, walk, Option.getD_none] at head
    obtain ⟨depth, bound⟩ : ∃ depth, subst.depthBound ty.size = depth + 1 :=
      Nat.exists_eq_succ_of_ne_zero (by simp [depthBound, reductionAllowance])
    rw [bound] at walk
    subst head
    cases ty with
    | var _ | app _ _ => simp [Ty.isSolid] at solid
    | arrow _ _ | tuple _ | nominal _ _ | quantified _ _ => simp [Subst.shallowWithin] at walk

theorem Retains.shallow (retains : subst.Retains after)
    (solid : (subst.shallow ty).isSolid = true) : after.shallow ty = subst.shallow ty := by
  have walk := retains.shallowWithin (shallowWithin_shallow rfl solid) solid
  rw [Subst.shallow, Subst.shallow?, shallowWithin_mono (retains.depthBound_le ty.size) walk,
    Option.getD_some]

end Subst

namespace Family

variable {subst after : Subst} {registry : Registry} {ty : Ty}

theorem solid_of_known (known : Family.of ty subst registry ≠ .unknown) :
    (∃ elems, subst.shallow ty = .tuple elems) ∨
      ∃ template args, subst.shallow ty = .nominal template args := by
  rw [Family.of] at known
  cases head : subst.shallow ty with
  | tuple elems => exact .inl ⟨elems, rfl⟩
  | nominal template args => exact .inr ⟨template, args, rfl⟩
  | var _ | arrow _ _ | quantified _ _ | app _ _ => simp [head, Family.ofHead] at known

theorem of_retains (retains : subst.Retains after)
    (known : Family.of ty subst registry ≠ .unknown) :
    Family.of ty after registry = Family.of ty subst registry := by
  have solid : (subst.shallow ty).isSolid = true := by
    rcases solid_of_known known with ⟨elems, head⟩ | ⟨template, args, head⟩ <;> rw [head] <;> rfl
  rw [Family.of, Family.of, retains.shallow solid]

def Follows (registry : Registry) (related : Ty → Ty → Prop) (later : Family) : Family → Prop
  | bool => later = bool
  | str => later = str
  | int width => later = int width
  | tuple types => ∃ types', later = tuple types' ∧ List.Forall₂ related types types'
  | enum template args => ∃ args', later = enum template args' ∧ ∀ index, List.Forall₂ related
      (registry.fieldsAt template index args) (registry.fieldsAt template index args')
  | unknown => True

theorem Follows.within {related : Ty → Ty → Prop} {holds : Ty → Prop} {later family : Family}
    (follows : Follows registry related later family)
    (each : ∀ head, ∀ part ∈ family.fieldTypes registry head, holds part) :
    Follows registry (fun ty ty' => holds ty ∧ related ty ty') later family := by
  cases family with
  | tuple types =>
    obtain ⟨types', same, relates⟩ := follows
    exact ⟨types', same, (List.forall₂_and_left _ _).mpr ⟨each (.tuple types.length), relates⟩⟩
  | enum template args =>
    obtain ⟨args', same, relates⟩ := follows
    exact ⟨args', same, fun index => (List.forall₂_and_left _ _).mpr
      ⟨each (.variant index), relates index⟩⟩
  | bool | int _ | str | unknown => exact follows

end Family

namespace Pat

variable {subst after : Subst} {registry : Registry} {related : Ty → Ty → Prop}

mutual

theorem HasType.transfer
    (follows : ∀ {ty ty'}, related ty ty' →
      Family.Follows registry related (.of ty' after registry) (.of ty subst registry)) :
    ∀ {p : Pat} {ty ty' : Ty}, p.HasType subst registry ty → related ty ty' →
      p.HasType after registry ty'
  | .wild capture, _, ty', _, _ => .wild capture ty'
  | .bool value, _, _, .bool family _, same => by
    have shown := follows same
    rw [family] at shown
    exact .bool shown value
  | .int _ _, _, _, .int family range, same => by
    have shown := follows same
    rw [family] at shown
    exact .int shown range
  | .str bytes, _, _, .str family _, same => by
    have shown := follows same
    rw [family] at shown
    exact .str shown bytes
  | .tuple elems, _, _, .tuple family each, same => by
    have shown := follows same
    rw [family] at shown
    obtain ⟨types, family', relates⟩ := shown
    exact .tuple family' (HasType.transferAll follows each relates)
  | .ctor _ _ _ args, _, _, .ctor family known each, same => by
    have shown := follows same
    rw [family] at shown
    obtain ⟨types, family', relates⟩ := shown
    exact .ctor family' known (HasType.transferAll follows each (relates _))
  | .oneOf ps, _, _, .oneOf each, same => .oneOf (HasType.transferEach follows each same)

theorem HasType.transferAll
    (follows : ∀ {ty ty'}, related ty ty' →
      Family.Follows registry related (.of ty' after registry) (.of ty subst registry)) :
    ∀ {ps : List Pat} {types types' : List Ty},
      List.Forall₂ (Pat.HasType subst registry) ps types → List.Forall₂ related types types' →
        List.Forall₂ (Pat.HasType after registry) ps types'
  | [], _, _, .nil, .nil => .nil
  | _ :: _, _, _, .cons first rest, .cons same others =>
    .cons (HasType.transfer follows first same) (HasType.transferAll follows rest others)

theorem HasType.transferEach
    (follows : ∀ {ty ty'}, related ty ty' →
      Family.Follows registry related (.of ty' after registry) (.of ty subst registry)) :
    ∀ {ps : List Pat} {ty ty' : Ty}, (∀ p ∈ ps, p.HasType subst registry ty) → related ty ty' →
      ∀ p ∈ ps, p.HasType after registry ty'
  | [], _, _, _, _ => nofun
  | p :: _, _, _, each, same => List.forall_mem_cons.mpr
    ⟨HasType.transfer follows (each p List.mem_cons_self) same,
      HasType.transferEach follows (fun q member => each q (List.mem_cons_of_mem p member)) same⟩

end

end Pat

theorem Value.HasType.transfer {subst after : Subst} {registry : Registry}
    {related : Ty → Ty → Prop}
    {value : Value} {ty ty' : Ty} (typed : value.HasType subst registry ty)
    (follows : ∀ {ty ty'}, related ty ty' →
      Family.Follows registry related (.of ty' after registry) (.of ty subst registry) ∧
        (Family.of ty subst registry = .unknown → Family.of ty' after registry = .unknown))
    (same : related ty ty') : value.HasType after registry ty' := by
  induction typed using Value.HasType.rec (motive_2 := fun values types _ => ∀ {types' : List Ty},
    List.Forall₂ related types types' → List.Forall₂ (Value.HasType after registry) values types')
    generalizing ty' with
  | bool family value =>
    have shown := (follows same).1
    rw [family] at shown
    exact .bool shown value
  | int family range =>
    have shown := (follows same).1
    rw [family] at shown
    exact .int shown range
  | str family bytes =>
    have shown := (follows same).1
    rw [family] at shown
    exact .str shown bytes
  | tuple family _ ih =>
    have shown := (follows same).1
    rw [family] at shown
    obtain ⟨types, family', relates⟩ := shown
    exact .tuple family' (ih relates)
  | ctor family inside _ ih =>
    have shown := (follows same).1
    rw [family] at shown
    obtain ⟨types, family', relates⟩ := shown
    exact .ctor family' inside (ih (relates _))
  | unknown family value => exact .unknown ((follows same).2 family) value
  | nil relates =>
    cases relates
    exact .nil
  | cons _ _ ihFirst ihRest relates =>
    cases relates with
    | cons first rest => exact .cons (ihFirst first) (ihRest rest)

/-- A type with solved variables replaced in some of its parts. -/
inductive Resolves (subst : Subst) : Ty → Ty → Prop where
  | refl (ty : Ty) : Resolves subst ty ty
  | zonked {depth : Nat} {ty ty' : Ty} (walk : subst.zonkWithin depth ty = some ty') :
    Resolves subst ty ty'
  | arrow {param result param' result' : Ty} (first : Resolves subst param param')
    (second : Resolves subst result result') :
    Resolves subst (.arrow param result) (.arrow param' result')
  | tuple {elems elems' : List Ty} (each : List.Forall₂ (Resolves subst) elems elems') :
    Resolves subst (.tuple elems) (.tuple elems')
  | nominal {template : TemplateId} {args args' : List Ty}
    (each : List.Forall₂ (Resolves subst) args args') :
    Resolves subst (.nominal template args) (.nominal template args')

section Resolves

variable {subst after : Subst} {registry : Registry} {ty ty' : Ty} {args args' : List Ty}

theorem resolves_zonk (subst : Subst) (ty : Ty) : Resolves subst ty (subst.zonk ty) := by
  rw [Subst.zonk, Subst.zonk?]
  cases walk : subst.zonkWithin (subst.depthBound ty.size) ty with
  | none => exact .refl ty
  | some result => exact .zonked walk

theorem resolves_under {bound : Nat} (plain : ty.FirstOrder bound) {images images' : TyVar → Ty}
    (each : ∀ v, Resolves subst (images v) (images' v)) :
    Resolves subst (ty.under images) (ty.under images') := by
  have all : ∀ types : List Ty, (∀ t ∈ types, Resolves subst (t.under images) (t.under images')) →
      List.Forall₂ (Resolves subst) (types.map (·.under images)) (types.map (·.under images')) := by
    intro types here
    rw [List.forall₂_map_left_iff, List.forall₂_map_right_iff]
    exact List.forall₂_same.mpr here
  induction plain with
  | var _ => exact each _
  | arrow _ _ ihParam ihResult => exact .arrow ihParam ihResult
  | tuple _ ih =>
    rw [Ty.under, Ty.under, Ty.underAll_eq_map, Ty.underAll_eq_map]
    exact .tuple (all _ ih)
  | nominal _ ih =>
    rw [Ty.under, Ty.under, Ty.underAll_eq_map, Ty.underAll_eq_map]
    exact .nominal (all _ ih)

theorem resolves_image (vars : List TyVar) (each : List.Forall₂ (Resolves subst) args args')
    (v : TyVar) : Resolves subst ((Assignment.ofLists vars args).image v)
      ((Assignment.ofLists vars args').image v) := by
  have entries : List.Forall₂ (fun entry entry' : TyVar × Ty =>
      entry.1 = entry'.1 ∧ Resolves subst entry.2 entry'.2)
      (Assignment.ofLists vars args) (Assignment.ofLists vars args') := by
    refine List.rel_reverse ?_
    induction each generalizing vars with
    | nil => simp
    | cons first _ ih =>
      cases vars with
      | nil => exact .nil
      | cons v vars => exact .cons ⟨rfl, first⟩ (ih vars)
  rw [Assignment.image, Assignment.image]
  generalize Assignment.ofLists vars args =
    first, Assignment.ofLists vars args' = second at entries ⊢
  induction entries with
  | nil => exact .refl _
  | @cons entry entry' entries entries' first _ ih =>
    obtain ⟨w, t⟩ := entry
    obtain ⟨w', t'⟩ := entry'
    obtain ⟨rfl, here⟩ := first
    by_cases same : v = w
    · simpa [List.lookup, same] using here
    · simpa [List.lookup, beq_false_of_ne same] using ih

theorem resolves_fieldsAt (plain : registry.Plain) (each : List.Forall₂ (Resolves subst) args args')
    (template : TemplateId) (index : Nat) : List.Forall₂ (Resolves subst)
      (registry.fieldsAt template index args) (registry.fieldsAt template index args') := by
  rw [Registry.fieldsAt, Registry.fieldsAt]
  cases known : registry.template? template with
  | none => exact .nil
  | some definition =>
    rw [Option.bind_some, Option.bind_some, Template.fieldsAt?, Template.fieldsAt?]
    cases inside : definition.cases[index]? with
    | none => exact .nil
    | some dataCase =>
      simp only [Option.map_some, Option.getD_some]
      rw [List.forall₂_map_left_iff, List.forall₂_map_right_iff]
      refine List.forall₂_same.mpr fun field member => ?_
      obtain ⟨⟨_, firstOrder⟩, -⟩ :=
        plain template definition known dataCase (List.mem_of_getElem? inside) field member
      rw [firstOrder.substitute_eq, firstOrder.substitute_eq]
      exact resolves_under firstOrder (resolves_image definition.paramVars each)

theorem forall₂_of_mapM {α β : Type} {visit : α → Option β} {items : List α} {results : List β}
    (walk : items.mapM visit = some results) :
    List.Forall₂ (fun item result => visit item = some result) items results := by
  induction items generalizing results with
  | nil =>
    obtain rfl : [] = results := by simpa using walk
    exact .nil
  | cons item items ih =>
    simp only [List.mapM_cons, Option.bind_eq_bind, Option.bind_eq_some_iff,
      Option.pure_def] at walk
    obtain ⟨first, here, rest, walk, same⟩ := walk
    obtain rfl := Option.some.inj same
    exact .cons here (ih walk)

theorem family_nominal (subst : Subst) (registry : Registry) (template : TemplateId)
    (args : List Ty) : Family.of (.nominal template args) subst registry =
      match (registry.template? template).map (·.builtin) with
      | none => .unknown
      | some none => .enum template args
      | some (some builtin) => Pat.builtinFamily builtin := by
  rw [Family.of, Pat.shallow_of_head fun _ => rfl, Family.ofHead]
  cases known : registry.template? template with
  | none => simp only [Option.map_none]
  | some definition =>
    obtain ⟨_, _, _, _, builtin⟩ := definition
    cases builtin with
    | none => simp only [Option.map_some]
    | some builtin => cases builtin <;> simp only [Option.map_some, Pat.builtinFamily]

theorem follows_nominal (plain : registry.Plain) {template : TemplateId}
    (each : List.Forall₂ (Resolves subst) args args') :
    Family.Follows registry (Resolves subst) (.of (.nominal template args') subst registry)
      (.of (.nominal template args) subst registry) := by
  rw [family_nominal, family_nominal]
  cases (registry.template? template).map (·.builtin) with
  | none => trivial
  | some builtin =>
    cases builtin with
    | none => exact ⟨args', rfl, fun index => resolves_fieldsAt plain each template index⟩
    | some builtin => cases builtin <;> rfl

theorem follows_tuple (each : List.Forall₂ (Resolves subst) args args') :
    Family.Follows registry (Resolves subst) (.of (.tuple args') subst registry)
      (.of (.tuple args) subst registry) := by
  rw [Pat.family_tuple, Pat.family_tuple]
  exact ⟨args', rfl, each⟩

theorem forall₂_resolves_refl (types : List Ty) : List.Forall₂ (Resolves subst) types types :=
  List.forall₂_same.mpr fun ty _ => .refl ty

theorem family_of_shallow {head : Ty} (shown : subst.shallow ty = head)
    (self : subst.shallow head = head) :
    Family.of ty subst registry = Family.of head subst registry := by
  rw [Family.of, Family.of, shown, self]

theorem Resolves.follows (plain : registry.Plain) (resolves : Resolves subst ty ty') :
    Family.Follows registry (Resolves subst) (.of ty' subst registry) (.of ty subst registry) := by
  by_cases known : Family.of ty subst registry = .unknown
  · rw [known]
    trivial
  · cases resolves with
    | tuple each => exact follows_tuple each
    | nominal each => exact follows_nominal plain each
    | arrow _ _ =>
      rw [Family.of, Pat.shallow_of_head fun _ => rfl] at known
      exact absurd rfl known
    | refl =>
      rcases Family.solid_of_known known with ⟨elems, head⟩ | ⟨template, args, head⟩
      · rw [family_of_shallow head (Pat.shallow_of_head fun _ => rfl)]
        exact follows_tuple (forall₂_resolves_refl elems)
      · rw [family_of_shallow head (Pat.shallow_of_head fun _ => rfl)]
        exact follows_nominal plain (forall₂_resolves_refl args)
    | @zonked depth _ _ walk =>
      cases depth with
      | zero => simp [Subst.zonkWithin] at walk
      | succ depth =>
        simp only [Subst.zonkWithin, Option.bind_eq_bind, Option.bind_eq_some_iff] at walk
        obtain ⟨found, seen, walk⟩ := walk
        rcases Family.solid_of_known known with ⟨elems, head⟩ | ⟨template, args, head⟩
        · obtain rfl := Subst.shallowWithin_unique seen (Subst.shallowWithin_shallow head rfl)
          obtain ⟨elems', each, same⟩ := Option.bind_eq_some_iff.mp walk
          obtain rfl := Option.some.inj same
          rw [family_of_shallow head (Pat.shallow_of_head fun _ => rfl)]
          exact follows_tuple ((forall₂_of_mapM each).imp fun _ _ => .zonked)
        · obtain rfl := Subst.shallowWithin_unique seen (Subst.shallowWithin_shallow head rfl)
          obtain ⟨args', each, same⟩ := Option.bind_eq_some_iff.mp walk
          obtain rfl := Option.some.inj same
          rw [family_of_shallow head (Pat.shallow_of_head fun _ => rfl)]
          exact follows_nominal plain ((forall₂_of_mapM each).imp fun _ _ => .zonked)

/-- A pattern that is typed stays so under later cells, also at the resolved type. -/
theorem Pat.HasType.resolved {p : Pat} (typed : p.HasType subst registry ty)
    (plain : registry.Plain)
    (retains : subst.Retains after) : p.HasType after registry (after.zonk ty) := by
  refine typed.transfer (fun {ty ty'} resolves => ?_) (resolves_zonk after ty)
  by_cases known : Family.of ty subst registry = .unknown
  · rw [known]
    trivial
  · rw [← Family.of_retains retains known]
    exact Resolves.follows plain resolves

def Registry.ParamsWithin (registry : Registry) (bound : Nat) : Prop :=
  ∀ id template, registry.template? id = some template → ∀ v ∈ template.paramVars, v.index < bound

theorem Subst.Tame.firstOrder_fieldTypes (tame : subst.Tame) (plain : registry.Plain)
    (params : registry.ParamsWithin subst.size) (firstOrder : ty.FirstOrder subst.size)
    (member : part ∈ (Family.of ty subst registry).fieldTypes registry head) :
    part.FirstOrder subst.size := by
  obtain ⟨shallow, -⟩ := tame.shallow_firstOrder firstOrder
  rw [Family.of] at member
  generalize subst.shallow ty = outer at shallow member
  cases shallow with
  | var _ => cases member
  | arrow _ _ => cases member
  | tuple each => exact each part member
  | @nominal template args each =>
    rw [Family.ofHead] at member
    split at member
    all_goals try cases member
    cases head with
    | variant index =>
      refine Registry.forall_mem_fieldsAt
        (fun {definition dataCase} known inside field inFields => ?_) part member
      obtain ⟨⟨_, source⟩, own⟩ := plain _ _ known _ (List.mem_of_getElem? inside) field inFields
      rw [source.substitute_eq]
      refine source.under fun v inLeaves => ?_
      rcases Assignment.image_cases definition.paramVars args v with inArgs | ⟨same, -⟩
      · exact each _ inArgs
      · exact same ▸ .var (params _ _ known v (own v inLeaves))
    | bool _ | int _ | str _ | tuple _ => cases member

theorem Resolves.unknown (tame : subst.Tame) (firstOrder : ty.FirstOrder subst.size)
    (resolves : Resolves subst ty ty') (unknown : Family.of ty subst registry = .unknown) :
    Family.of ty' subst registry = .unknown := by
  have nominal : ∀ {template args args'},
      Family.of (.nominal template args) subst registry = .unknown →
        Family.of (.nominal template args') subst registry = .unknown := by
    intro template args args' unknown
    rw [family_nominal] at unknown ⊢
    split at unknown
    · rfl
    · cases unknown
    · exact unknown
  cases resolves with
  | refl => exact unknown
  | arrow _ _ => exact Pat.family_arrow subst registry _ _
  | tuple _ =>
    rw [Pat.family_tuple] at unknown
    cases unknown
  | nominal _ => exact nominal unknown
  | @zonked depth _ _ walk =>
    cases depth with
    | zero => simp [Subst.zonkWithin] at walk
    | succ depth =>
      simp only [Subst.zonkWithin, Option.bind_eq_bind, Option.bind_eq_some_iff] at walk
      obtain ⟨found, seen, walk⟩ := walk
      obtain ⟨head, known, plain, -⟩ := tame.exists_shallow? firstOrder
      obtain rfl := Subst.shallowWithin_unique seen known
      have shown : subst.shallow ty = found := by rw [Subst.shallow, known, Option.getD_some]
      cases plain with
      | @var v _ =>
        obtain rfl := Option.some.inj walk
        exact Pat.family_unsolved (tame.unsolved_of_shallow? firstOrder known)
      | arrow _ _ =>
        simp only [Option.bind_eq_some_iff] at walk
        obtain ⟨_, _, _, _, same⟩ := walk
        obtain rfl := Option.some.inj same
        exact Pat.family_arrow subst registry _ _
      | tuple _ =>
        rw [family_of_shallow shown (Pat.shallow_of_head fun _ => rfl), Pat.family_tuple] at unknown
        cases unknown
      | nominal _ =>
        obtain ⟨_, _, same⟩ := Option.bind_eq_some_iff.mp walk
        obtain rfl := Option.some.inj same
        rw [family_of_shallow shown (Pat.shallow_of_head fun _ => rfl)] at unknown
        exact nominal unknown

theorem Value.HasType.resolved {value : Value} (typed : value.HasType subst registry ty)
    (tame : subst.Tame) (plain : registry.Plain) (params : registry.ParamsWithin subst.size)
    (firstOrder : ty.FirstOrder subst.size) : value.HasType subst registry (subst.zonk ty) := by
  refine @HasType.transfer subst subst registry
    (fun ty ty' => ty.FirstOrder subst.size ∧ Resolves subst ty ty') value ty _ typed
    (fun {ty ty'} related => ?_) ⟨firstOrder, resolves_zonk subst ty⟩
  obtain ⟨firstOrder, resolves⟩ := related
  exact ⟨(resolves.follows plain).within fun head part member =>
    tame.firstOrder_fieldTypes plain params firstOrder member, resolves.unknown tame firstOrder⟩

end Resolves

end PolyCheck
