import PolyCheck.Proofs.Subst.Excerpt
import PolyCheck.Proofs.Subst.Reflexivity

/-! Types taken apart from their last components. Unification reads a type with components as a
function of the last ones, and gives two applications equally many arguments by putting first
arguments back to the head. Both lose nothing: the function applied to the components is the type
again, and each head applied to its arguments is the application again. The parameters of the
function are new, one for each component, and stand nowhere else. -/
namespace PolyCheck

/-- The type is an arrow, a tuple or an instance of a definition, and has so many last components,
one at least. -/
def Ty.HasLast (count : Nat) : Ty → Prop
  | .arrow _ _ => 1 ≤ count ∧ count ≤ 2
  | .tuple elems => 1 ≤ count ∧ count ≤ elems.length
  | .nominal _ args => 1 ≤ count ∧ count ≤ args.length
  | .var _ | .quantified _ _ | .app _ _ => False

/-- The cell mentions variables of the set only. -/
def Cell.Among (seen : TyVar → Prop) : Cell → Prop
  | .link target => seen target
  | .bound ty => ty.Among seen
  | .unbound | .rigid _ => True

namespace Subst

variable {subst after : Subst} {seen seen' : TyVar → Prop}

theorem among_mono {cell : Cell} (among : cell.Among seen) (more : ∀ v, seen v → seen' v) :
    cell.Among seen' := by
  cases cell with
  | unbound | rigid _ => trivial
  | link target => exact more target among
  | bound ty => exact Ty.Confined.mono among more more

theorem among_of_isNew {cell : Cell} (isNew : cell.IsNew) : cell.Among seen := by
  cases cell with
  | unbound | rigid _ => trivial
  | link _ | bound _ => exact isNew.elim

theorem Lengthened.among (longer : subst.Lengthened after) {v : TyVar}
    (among : (subst.cell v).Among subst.Inside) : (after.cell v).Among subst.Inside := by
  by_cases inside : subst.Inside v
  · rwa [longer.cells inside]
  · exact among_of_isNew (longer.isNew (Nat.le_of_not_lt inside))

theorem size_pushMany (subst : Subst) (cell : Cell) (count : Nat) :
    (subst.pushMany cell count).2.size = subst.size + count := by
  induction count generalizing subst with
  | zero => rfl
  | succ count ih => rw [pushMany, ih, size_push, Nat.add_assoc, Nat.add_comm 1]

end Subst

namespace Unify

variable {subst after : Subst} {ty function head : Ty} {count : Nat} {parts args : List Ty}

/-- A type as a function of new rigid variables, beside its last components. Nothing but the
function mentions the new variables: neither the type and its components nor a cell over the
variables that there were. -/
structure Expands (subst : Subst) (ty : Ty) (count : Nat) (params : List TyVar) (body : Ty)
    (parts : List Ty) (after : Subst) : Prop where
  enough : parts.length = count
  binds : params.length = count
  once : params.Nodup
  new : ∀ v ∈ params, ¬ subst.Inside v ∧ after.Inside v ∧ after.cell v = .rigid none
  size : after.size = subst.size + count
  kept : ∀ v, subst.Inside v → after.cell v = subst.cell v
  apart : ty.Among (· ∉ params) ∧ ∀ t ∈ parts, t.Among (· ∉ params)
  cells : ∀ v, (subst.cell v).Among subst.Inside → (after.cell v).Among (· ∉ params)
  applied : (Ty.quantified params body).apply parts = ty

theorem Abstracts.expands (shape : Abstracts subst ty count function parts after)
    (among : ty.Among subst.Inside) :
    ∃ params body, function = .quantified params body ∧
      Expands subst ty count params body parts after := by
  obtain ⟨positive, components, build, known, enough, rfl, rfl, rfl⟩ := shape
  obtain ⟨former, takes, rfl, rebuilt⟩ := Former.components?_eq known
  have opened := subst.opened_pushMany count
  obtain ⟨-, length, each⟩ := subst.lengthened_pushMany (Cell.isNew_rigid none) count
  have size := subst.size_pushMany (.rigid none) count
  have once := Subst.nodup_pushMany subst (Cell.isNew_rigid none) count
  generalize (subst.pushMany (.rigid none) count).1 = params at *
  generalize (subst.pushMany (.rigid none) count).2 = after at *
  have outside : ∀ v, subst.Inside v → v ∉ params :=
    fun v inside member => Nat.not_lt_of_ge (each v member).1 inside
  have confined := Former.confined_build_inv takes among
  have apart : ∀ t ∈ components, t.Among (· ∉ params) :=
    fun t member => (confined t member).mono outside outside
  -- The components before the last ones are kept, with the new variables behind them.
  have places : (components.take (components.length - count)).length + params.length =
      components.length := by
    rw [List.length_take, length]
    omega
  have body := rebuilt (components.take (components.length - count) ++ params.map .var)
    (by rw [List.length_append, List.length_map, places])
  have last : (components.drop (components.length - count)).length = params.length := by
    rw [List.length_drop, length]
    omega
  have applied := Former.apply_lambda_enough (places.symm ▸ takes) once
    (fun t member => (apart t (List.mem_of_mem_take member)).mono (fun _ _ => trivial) fun _ => id)
    (List.ne_nil_of_length_pos (length ▸ positive)) last.ge
  rw [List.take_of_length_le last.le, List.drop_eq_nil_of_le last.le, Ty.apply_nil,
    List.take_append_drop] at applied
  refine ⟨params, _, rfl, last.trans length, length, once, fun v member => ?_, size,
    fun v inside => opened.cells inside,
    ⟨among.mono outside outside, fun t member => apart t (List.mem_of_mem_drop member)⟩,
    fun v known => Subst.among_mono (opened.among known) outside, ?_⟩
  · obtain ⟨old, new⟩ := each v member
    exact ⟨Nat.not_lt_of_ge old, new, opened.skolem old new⟩
  · rw [body]
    exact applied

theorem components?_of_hasLast (has : ty.HasLast count) :
    ∃ components build, components? ty = some (components, build) ∧ 1 ≤ count ∧
      count ≤ components.length := by
  cases ty with
  | arrow _ _ | tuple _ | nominal _ _ => exact ⟨_, _, rfl, has⟩
  | var _ | quantified _ _ | app _ _ => exact has.elim

theorem hasLast_of_components? {build : List Ty → Ty} (known : components? ty = some (parts, build))
    (positive : 1 ≤ count) (enough : count ≤ parts.length) : ty.HasLast count := by
  cases ty with
  | arrow _ _ | tuple _ | nominal _ _ =>
    obtain ⟨rfl, -⟩ := Prod.mk.inj (Option.some.inj known)
    exact ⟨positive, enough⟩
  | var _ | quantified _ _ | app _ _ => cases known

theorem etaExpand?_of_hasLast (has : ty.HasLast count) :
    ∃ function parts after, etaExpand? ty count subst = .ok (some (function, parts)) after := by
  obtain ⟨components, build, known, positive, enough⟩ := components?_of_hasLast has
  have many : ¬ (count = 0 ∨ components.length < count) := by omega
  unfold etaExpand?
  simp only [known, if_neg many]
  exact ⟨_, _, _, rfl⟩

theorem etaExpand?_of_not_hasLast (lacks : ¬ ty.HasLast count) :
    etaExpand? ty count subst = .ok none subst := by
  unfold etaExpand?
  cases known : components? ty with
  | none => rfl
  | some found =>
    obtain ⟨components, build⟩ := found
    have few : count = 0 ∨ components.length < count := by
      by_contra enough
      exact lacks (hasLast_of_components? known (by omega) (by omega))
    simp only [if_pos few]
    rfl

theorem putBack_apply (stuck : head.IsStuck) (fewer : count < args.length) :
    (putBack head args count).2.length = args.length - count ∧
      (putBack head args count).1.apply (putBack head args count).2 = .app head args := by
  have some : args.drop count ≠ [] := List.ne_nil_of_length_pos (by rw [List.length_drop]; omega)
  unfold putBack
  split
  · rename_i none
    subst none
    exact ⟨rfl, Subst.apply_stuck stuck some⟩
  · refine ⟨List.length_drop, ?_⟩
    rw [Ty.apply, List.take_append_drop]
    exact some

/-- Exactly the types with so many components are expanded, and applied to its components the
function is the type. Both sides of two applications are left with as many arguments as the shorter
one has, and applied to them each head is its application. -/
theorem splitting_lossless :
    (∀ (subst : Subst) (ty : Ty) (count : Nat), ty.Among subst.Inside →
        (ty.HasLast count ∧ ∃ params body parts after,
            etaExpand? ty count subst = .ok (some (.quantified params body, parts)) after ∧
              Expands subst ty count params body parts after) ∨
          (¬ ty.HasLast count ∧ etaExpand? ty count subst = .ok none subst)) ∧
      ∀ (head head' : Ty) (args args' : List Ty), head.IsStuck → head'.IsStuck → args ≠ [] →
        args' ≠ [] → let sides := splitApps head args head' args'
        sides.1.2.length = min args.length args'.length ∧
          sides.2.2.length = min args.length args'.length ∧
          sides.1.1.apply sides.1.2 = .app head args ∧ sides.2.1.apply sides.2.2 =
            .app head' args' := by
  refine ⟨fun subst ty count among => ?_, fun head head' args args' stuck stuck' some some' => ?_⟩
  · by_cases has : ty.HasLast count
    · obtain ⟨function, parts, after, run⟩ := @etaExpand?_of_hasLast subst _ _ has
      obtain ⟨params, body, rfl, expands⟩ := (etaExpand?_eq_ok run).expands among
      exact .inl ⟨has, params, body, parts, after, run, expands⟩
    · exact .inr ⟨has, etaExpand?_of_not_hasLast has⟩
  · have positive := List.length_pos_iff.mpr some
    have positive' := List.length_pos_iff.mpr some'
    have fewer : args.length - args'.length < args.length := by omega
    have fewer' : args'.length - args.length < args'.length := by omega
    obtain ⟨length, applied⟩ := putBack_apply stuck fewer
    obtain ⟨length', applied'⟩ := putBack_apply stuck' fewer'
    rw [splitApps_eq]
    exact ⟨length.trans (by omega), length'.trans (by omega), applied, applied'⟩

/-- A triple as a function of its last two components, and an application of three arguments beside
one of one. -/
theorem splitting_lossless_triple :
    let pairing := Ty.quantified [⟨1⟩, ⟨2⟩] (.tuple [.var ⟨0⟩, .var ⟨1⟩, .var ⟨2⟩])
    let parts := [Ty.unit, .arrow (.var ⟨0⟩) .unit]
    (∃ after, etaExpand? (.tuple (.var ⟨0⟩ :: parts)) 2 Subst.empty.fresh.2 =
      .ok (some (pairing, parts)) after ∧
        after.size = 3 ∧ after.cell ⟨2⟩ = .rigid none ∧ pairing.apply parts =
        .tuple (.var ⟨0⟩ :: parts)) ∧
      (Ty.app (.var ⟨0⟩) parts).apply [.unit] = .app (.var ⟨0⟩) (parts ++ [.unit]) := by
  intro pairing parts
  have among : (Ty.tuple (.var ⟨0⟩ :: parts)).Among Subst.empty.fresh.2.Inside := by
    have inside : Subst.empty.fresh.2.Inside ⟨0⟩ := Nat.zero_lt_one
    refine .tuple fun t member => ?_
    simp only [parts, List.mem_cons, List.not_mem_nil, or_false] at member
    rcases member with rfl | rfl | rfl
    · exact .var inside
    · exact .tuple nofun
    · exact .arrow (.var inside) (.tuple nofun)
  constructor
  · obtain ⟨-, params, body, parts', after, run, expands⟩ | ⟨lacks, -⟩ :=
      splitting_lossless.1 _ _ 2 among
    · obtain ⟨made, -⟩ := EStateM.Result.ok.inj run
      obtain ⟨same, rfl⟩ := Prod.mk.inj (Option.some.inj made)
      obtain ⟨rfl, rfl⟩ := Ty.quantified.inj same
      exact ⟨after, run, expands.size, (expands.new ⟨2⟩ (by decide)).2.2, expands.applied⟩
    · exact absurd ⟨by decide, by decide⟩ lacks
  · exact (splitting_lossless.2 (.var ⟨0⟩) (.var ⟨0⟩) (parts ++ [.unit]) [.unit] trivial trivial
      (by simp) (by simp)).2.2.1

end Unify

end PolyCheck
