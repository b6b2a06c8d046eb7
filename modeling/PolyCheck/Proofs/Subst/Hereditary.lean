import PolyCheck.Proofs.Reaches
import PolyCheck.Proofs.Subst.Local
import PolyCheck.Proofs.Ty.Hereditary

/-! Solutions that all have a hereditary property. Resolution and unification of types with the
property then come upon types with the property only, and so the solutions keep it, whether
unification succeeds or fails. -/
namespace PolyCheck

open Run

structure Subst.Solutions (holds : Ty → Prop) (subst : Subst) : Prop where
  ends : subst.LinksEnd
  solved : ∀ {v : TyVar} {ty : Ty}, subst.cell v = .bound ty → holds ty

variable {holds : Ty → Prop} {subst after : Subst} {ty result : Ty} {depth : Nat}

namespace Subst.Solutions

theorem empty : Subst.empty.Solutions holds where
  ends := linksEnd_empty
  solved {v _} solved := by
    have unbound : Subst.empty.cell v = .unbound := cell_of_size_le (Nat.zero_le _)
    simp [unbound] at solved

theorem push (solutions : subst.Solutions holds) {cell : Cell} (isNew : cell.IsNew) :
    (subst.push cell).2.Solutions holds where
  ends := solutions.ends.push isNew
  solved {v ty} solved := by
    rw [cell_push] at solved
    split at solved
    · rw [solved] at isNew
      exact isNew.elim
    · exact solutions.solved solved

theorem pushMany (solutions : subst.Solutions holds) {cell : Cell} (isNew : cell.IsNew)
    (count : Nat) : (subst.pushMany cell count).2.Solutions holds := by
  induction count generalizing subst with
  | zero => exact solutions
  | succ count ih => exact ih (solutions.push isNew)

theorem link (solutions : subst.Solutions holds) {x y : TyVar} (rootX : subst.root x = x)
    (rootY : subst.root y = y) (different : x ≠ y) : (subst.link x y).Solutions holds where
  ends := solutions.ends.link rootX rootY different
  solved {v ty} solved := by
    rcases subst.cell_write_cases x v (.link y) with kept | ⟨-, written⟩
    · exact solutions.solved (kept ▸ solved)
    · cases written.symm.trans solved

theorem bind (solutions : subst.Solutions holds) (x : TyVar) (held : holds ty) :
    (subst.bind x ty).Solutions holds where
  ends := solutions.ends.bind x ty
  solved {v solution} solved := by
    rcases subst.cell_write_cases x v (.bound ty) with kept | ⟨-, written⟩
    · exact solutions.solved (kept ▸ solved)
    · obtain rfl := Cell.bound.inj (written.symm.trans solved)
      exact held

variable (hereditary : Ty.Hereditary holds) (solutions : subst.Solutions holds)
include hereditary solutions

theorem shallowWithin (held : holds ty) (walk : subst.shallowWithin depth ty = some result) :
    holds result := by
  replace walk := heads_of_walk walk
  induction walk with
  | unsolved _ => exact hereditary.var _
  | solved cell _ ih => exact ih (solutions.solved cell)
  | arrow | tuple | nominal | quantified => exact held
  | applied _ _ ihFirst ih =>
    obtain ⟨-, fst, each⟩ := hereditary.app held
    exact ih (hereditary.apply (ihFirst fst) each ⟨_, _, held⟩)
  | collected _ ih =>
    obtain ⟨some, fst, each⟩ := hereditary.app held
    obtain ⟨-, fst', firsts⟩ := hereditary.app (ih fst)
    exact hereditary.reapply held (by simp [some]) fst' (List.forall_mem_append.mpr ⟨firsts, each⟩)
  | stuck _ _ ih =>
    obtain ⟨some, fst, each⟩ := hereditary.app held
    exact hereditary.reapply held some (ih fst) each

theorem shallow (held : holds ty) : holds (subst.shallow ty) := by
  rw [Subst.shallow, Subst.shallow?]
  cases walk : subst.shallowWithin (subst.depthBound ty.size) ty with
  | none => exact held
  | some result => exact solutions.shallowWithin hereditary held walk

theorem zonkWithin (held : holds ty) (walk : subst.zonkWithin depth ty = some result) :
    holds result := by
  induction depth generalizing ty result with
  | zero => cases walk
  | succ depth ih =>
    obtain ⟨head, shallow, rebuilt⟩ := zonkWithin_eq_some_iff.mp walk
    have held := solutions.shallowWithin hereditary held shallow
    cases rebuilt with
    | var _ => exact held
    | arrow first second =>
      obtain ⟨fst, snd⟩ := hereditary.arrow.mp held
      exact hereditary.arrow.mpr ⟨ih fst first, ih snd second⟩
    | tuple walks =>
      exact hereditary.tuple.mpr (forall_of_forall₂ walks (hereditary.tuple.mp held) fun _ _ => ih)
    | nominal walks =>
      exact hereditary.nominal.mpr
        (forall_of_forall₂ walks (hereditary.nominal.mp held) fun _ _ => ih)
    | quantified within =>
      exact hereditary.quantified.mpr (ih (hereditary.quantified.mp held) within)
    | app first walks =>
      obtain ⟨-, fst, each⟩ := hereditary.app held
      exact hereditary.apply (ih fst first) (forall_of_forall₂ walks each fun _ _ => ih)
        ⟨_, _, held⟩

theorem zonk (held : holds ty) : holds (subst.zonk ty) := by
  rw [Subst.zonk, Subst.zonk?]
  cases walk : subst.zonkWithin (subst.depthBound ty.size) ty with
  | none => exact held
  | some result => exact solutions.zonkWithin hereditary held walk

end Subst.Solutions

namespace Unify

variable {pair : Ty × Ty} {below : List (Ty × Ty)}

section Hereditary

variable (hereditary : Ty.Hereditary holds)
include hereditary

theorem components?_holds {parts : List Ty} {build : List Ty → Ty} (held : holds ty)
    (known : components? ty = some (parts, build)) :
    (∀ t ∈ parts, holds t) ∧ ∀ others : List Ty, (∀ t ∈ others, holds t) →
      holds (build others) := by
  cases ty with
  | nominal _ _ =>
    obtain ⟨rfl, rfl⟩ := Prod.mk.inj (Option.some.inj known)
    exact ⟨hereditary.nominal.mp held, fun others => hereditary.nominal.mpr⟩
  | tuple _ =>
    obtain ⟨rfl, rfl⟩ := Prod.mk.inj (Option.some.inj known)
    exact ⟨hereditary.tuple.mp held, fun others => hereditary.tuple.mpr⟩
  | arrow _ _ =>
    obtain ⟨rfl, rfl⟩ := Prod.mk.inj (Option.some.inj known)
    refine ⟨hereditary.children held, fun others each => ?_⟩
    rcases others with _ | ⟨p, _ | ⟨r, _ | ⟨other, rest⟩⟩⟩
    · exact held
    · exact held
    · exact hereditary.arrow.mpr ⟨each p (by simp), each r (by simp)⟩
    · exact held
  | var _ | quantified _ _ | app _ _ => cases known

theorem holds_abstracts {function : Ty} {count : Nat} {parts : List Ty} (held : holds ty)
    (shape : Abstracts subst ty count function parts after) : holds function ∧ ∀ t ∈ parts,
      holds t := by
  obtain ⟨components, build, known, -, -, rfl, rfl⟩ := shape.shape
  obtain ⟨each, rebuilt⟩ := components?_holds hereditary held known
  refine ⟨hereditary.quantified.mpr
    (rebuilt _ (List.forall_mem_append.mpr ⟨fun t member => ?_, ?_⟩)),
    fun t member => each t (List.mem_of_mem_drop member)⟩
  · exact each t (List.mem_of_mem_take member)
  · exact List.forall_mem_map.mpr fun v _ => hereditary.var v

theorem splitApps_holds {h k : Ty} {as bs : List Ty} (held : holds (.app h as))
    (held' : holds (.app k bs)) :
    (holds (splitApps h as k bs).1.1 ∧ ∀ t ∈ (splitApps h as k bs).1.2, holds t) ∧
      holds (splitApps h as k bs).2.1 ∧ ∀ t ∈ (splitApps h as k bs).2.2, holds t := by
  have side : ∀ {head : Ty} {args : List Ty} (count : Nat), holds (.app head args) →
      holds (putBack head args count).1 ∧ ∀ t ∈ (putBack head args count).2, holds t := by
    intro head args count held
    obtain ⟨some, fst, each⟩ := hereditary.app held
    refine putBack_each fst each fun positive taken => hereditary.reapply held ?_ fst taken
    simp [List.take_eq_nil_iff, positive, some]
  rw [splitApps_eq]
  exact ⟨side _ held, side _ held'⟩

/-- A step between types with the property solves by types with the property and leaves such
parts. -/
theorem solutions_moves (here : subst.Solutions holds) {left right : Ty} (held : holds left)
    (held' : holds right)
    (roots : ∀ x, left = .var x → subst.root x = x)
    (roots' : ∀ x, right = .var x → subst.root x = x)
    (moves : Moves depth subst left right below after) :
    after.Solutions holds ∧ ∀ pair ∈ below, holds pair.1 ∧ holds pair.2 := by
  have zipped : ∀ {types types' : List Ty}, (∀ t ∈ types, holds t) → (∀ t ∈ types', holds t) →
      ∀ pair ∈ types.zip types', holds pair.1 ∧ holds pair.2 :=
    fun each each' _ member => ⟨each _ (List.of_mem_zip member).1,
      each' _ (List.of_mem_zip member).2⟩
  cases moves with
  | same _ => exact ⟨here, List.forall_mem_nil _⟩
  | link different _ =>
    exact ⟨here.link (roots _ rfl) (roots' _ rfl) different, List.forall_mem_nil _⟩
  | linkBack different _ _ => exact ⟨here.link (roots' _ rfl) (roots _ rfl) different.symm,
      List.forall_mem_nil _⟩
  | bind _ _ _ => exact ⟨here.bind _ held', List.forall_mem_nil _⟩
  | bindBack _ _ _ => exact ⟨here.bind _ held, List.forall_mem_nil _⟩
  | arrow _ _ _ _ =>
    obtain ⟨fst, snd⟩ := hereditary.arrow.mp held
    obtain ⟨fst', snd'⟩ := hereditary.arrow.mp held'
    exact ⟨here, List.forall_mem_cons.mpr ⟨⟨fst, fst'⟩, List.forall_mem_singleton.mpr ⟨snd, snd'⟩⟩⟩
  | tuple _ => exact ⟨here, zipped (hereditary.tuple.mp held) (hereditary.tuple.mp held')⟩
  | nominal _ => exact ⟨here, zipped (hereditary.nominal.mp held) (hereditary.nominal.mp held')⟩
  | @quantified ps _ _ _ _ _ skolems _ _ opened left right =>
    have there : after.Solutions holds := by
      have made := here.pushMany (Cell.isNew_rigid none) ps.length
      rwa [opened] at made
    have rigid : ∀ t ∈ skolems.map Ty.var, holds t :=
      List.forall_mem_map.mpr fun v _ => hereditary.var v
    refine ⟨there, List.forall_mem_singleton.mpr ⟨hereditary.substitute_ofLists ?_ rigid,
      hereditary.substitute_ofLists ?_ rigid⟩⟩
    · exact there.zonkWithin hereditary (hereditary.quantified.mp held) left
    · exact there.zonkWithin hereditary (hereditary.quantified.mp held') right
  | app _ _ _ _ =>
    obtain ⟨lefts, rights⟩ := splitApps_holds hereditary held held'
    exact ⟨here, List.forall_mem_cons.mpr ⟨⟨lefts.1, rights.1⟩, zipped lefts.2 rights.2⟩⟩
  | abstract shape =>
    obtain ⟨-, fst, each⟩ := hereditary.app held
    obtain ⟨function, parts⟩ := holds_abstracts hereditary held' shape
    obtain ⟨_, _, _, _, rfl, _, _⟩ := shape.shape
    exact ⟨here.pushMany (Cell.isNew_rigid none) _,
      List.forall_mem_cons.mpr ⟨⟨fst, function⟩, zipped each parts⟩⟩
  | abstractBack shape =>
    obtain ⟨-, fst, each⟩ := hereditary.app held'
    obtain ⟨function, parts⟩ := holds_abstracts hereditary held shape
    obtain ⟨_, _, _, _, rfl, _, _⟩ := shape.shape
    exact ⟨here.pushMany (Cell.isNew_rigid none) _,
      List.forall_mem_cons.mpr ⟨⟨function, fst⟩, zipped parts each⟩⟩

abbrev Admitting (holds : Ty → Prop) (_ : Unit) (subst : Subst) : Prop := subst.Solutions holds

def HoldBoth (holds : Ty → Prop) (_ : Unit) (pair : Ty × Ty) : Prop := holds pair.1 ∧ holds pair.2

omit hereditary in
theorem lasts_holdBoth : Lasts (HoldBoth holds) := fun _ => id

theorem stays_step_hereditary (depth : Nat) {world : Unit} {pair : Ty × Ty}
    (held : HoldBoth holds world pair) :
    Stays (Admitting holds) world (fun later below => ∀ other ∈ below, HoldBoth holds later other)
      (step depth pair) := by
  intro subst here
  cases run : step depth pair subst with
  | ok below after =>
    obtain ⟨left, right, shallow, shallow', moves⟩ := step_eq_ok run
    refine ⟨world, le_rfl,
      solutions_moves hereditary here (here.shallowWithin hereditary held.1 shallow)
      (here.shallowWithin hereditary held.2 shallow') ?_ ?_ moves⟩
    · rintro x rfl
      exact (here.ends.shallowWithin_var shallow).1
    · rintro x rfl
      exact (here.ends.shallowWithin_var shallow').1
  | error error after =>
    obtain ⟨made, rfl⟩ := step_eq_error run
    exact fun _ => ⟨world, le_rfl, Subst.Solutions.pushMany here (Cell.isNew_rigid none) made⟩

end Hereditary

end Unify

theorem Subst.stays_unify_hereditary (hereditary : Ty.Hereditary holds) {left right : Ty}
    (held : holds left)
    (held' : holds right) : Stays (Unify.Admitting holds) () unsaid (Subst.unify left right) :=
  .get fun _ _ => .walk (Unify.lasts_holdBoth : Lasts (Unify.HoldBoth holds)) (.throw _)
    (fun depth _ => Unify.stays_step_hereditary hereditary depth)
    (List.forall_mem_singleton.mpr ⟨held, held'⟩)

end PolyCheck
