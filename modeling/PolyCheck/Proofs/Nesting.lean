import PolyCheck.Proofs.Journal
import PolyCheck.Proofs.Session.Traversal

/-! Snapshots inside snapshots. All open snapshots share one journal, and the entries of one that is
committed stay there for those around it. So along well-nested calls each open snapshot leads back
to the one before it, and rolling back to the last one gives exactly the state at which it was
taken. -/
namespace PolyCheck

open Run

structure Snapshots (σ μ : Type) where
  take : σ → μ × σ
  commit : σ → σ
  rollback : σ → μ → σ

namespace Snapshots

variable {σ μ : Type} {snapshots : Snapshots σ μ} {edit undoable : σ → σ → Prop} {isOpen : σ → Prop}
  {base state after : σ} {marks : List μ} {mark : μ}

/-- Well-nested calls, with the marks that are still open, the last one first. -/
inductive Nested (snapshots : Snapshots σ μ) (edit : σ → σ → Prop) (start : σ) : List μ →
    σ → Prop where
  | start : Nested snapshots edit start [] start
  | edit {marks : List μ} {state after : σ} (before : Nested snapshots edit start marks state)
    (change : edit state after) : Nested snapshots edit start marks after
  | take {marks : List μ} {state : σ} (before : Nested snapshots edit start marks state) :
    Nested snapshots edit start ((snapshots.take state).1 :: marks) (snapshots.take state).2
  | commit {marks : List μ} {mark : μ} {state : σ}
      (before : Nested snapshots edit start (mark :: marks) state) :
    Nested snapshots edit start marks (snapshots.commit state)
  | rollback {marks : List μ} {mark : μ} {state : σ}
    (before : Nested snapshots edit start (mark :: marks) state) :
    Nested snapshots edit start marks (snapshots.rollback state mark)

structure Laws (snapshots : Snapshots σ μ) (undoable : σ → σ → Prop)
    (isOpen : σ → Prop) : Prop where
  refl : ∀ state, undoable state state
  stays : ∀ {base state}, undoable base state → isOpen base → isOpen state
  opens : ∀ state, isOpen (snapshots.take state).2
  rollback : ∀ {base state}, isOpen base → undoable (snapshots.take base).2 state →
    snapshots.rollback state (snapshots.take base).1 = base
  commit : ∀ {base state after}, isOpen base → undoable base state →
    undoable (snapshots.take state).2 after → undoable base (snapshots.commit after)

def Stacked (snapshots : Snapshots σ μ) (undoable : σ → σ → Prop) (base : σ) : List μ → σ → Prop
  | [], state => undoable base state
  | mark :: marks, state => ∃ taken, mark = (snapshots.take taken).1 ∧
      undoable (snapshots.take taken).2 state ∧ Stacked snapshots undoable base marks taken

theorem Stacked.stays (laws : snapshots.Laws undoable isOpen) (baseOpen : isOpen base)
    (stacked : snapshots.Stacked undoable base marks state) : isOpen state := by
  cases marks with
  | nil => exact laws.stays stacked baseOpen
  | cons mark marks =>
    obtain ⟨taken, -, undoable, -⟩ := stacked
    exact laws.stays undoable (laws.opens taken)

theorem Stacked.edited (edited : ∀ {base}, isOpen base → undoable base state → undoable base after)
    (laws : snapshots.Laws undoable isOpen) (baseOpen : isOpen base)
    (stacked : snapshots.Stacked undoable base marks state) :
    snapshots.Stacked undoable base marks after := by
  cases marks with
  | nil => exact edited baseOpen stacked
  | cons mark marks =>
    obtain ⟨taken, isMark, undoable, below⟩ := stacked
    exact ⟨taken, isMark, edited (laws.opens taken) undoable, below⟩

theorem Stacked.commit (laws : snapshots.Laws undoable isOpen) (baseOpen : isOpen base)
    (stacked : snapshots.Stacked undoable base (mark :: marks) state) :
    snapshots.Stacked undoable base marks (snapshots.commit state) := by
  obtain ⟨taken, -, undoable, below⟩ := stacked
  cases marks with
  | nil => exact laws.commit baseOpen below undoable
  | cons mark' marks =>
    obtain ⟨taken', isMark', undoable', below'⟩ := below
    exact ⟨taken', isMark', laws.commit (laws.opens taken') undoable' undoable, below'⟩

theorem Nested.stacked (laws : snapshots.Laws undoable isOpen) (baseOpen : isOpen base)
    (edited : ∀ {marks state after}, edit state after →
      snapshots.Stacked undoable base marks state → snapshots.Stacked undoable base marks after)
    (nested : snapshots.Nested edit base marks state) :
      snapshots.Stacked undoable base marks state := by
  induction nested with
  | start => exact laws.refl base
  | edit _ change ih => exact edited change ih
  | take _ ih => exact ⟨_, rfl, laws.refl _, ih⟩
  | commit _ ih => exact ih.commit laws baseOpen
  | rollback _ ih =>
    obtain ⟨taken, rfl, undoable, below⟩ := ih
    rwa [laws.rollback (below.stays laws baseOpen) undoable]

end Snapshots

namespace Subst

variable {base subst after : Subst}

/-- A call that allocates, searches or solves. A unification may fail. -/
inductive Edit (subst : Subst) : Subst → Prop where
  | fresh : Edit subst subst.fresh.2
  | freshRigid (name : Name) : Edit subst (subst.freshRigid name).2
  | freshSkolem : Edit subst subst.freshSkolem.2
  | find (v : TyVar) : Edit subst (subst.find v).2
  | link (v target : TyVar) : Edit subst (subst.link v target)
  | bind (v : TyVar) (ty : Ty) : Edit subst (subst.bind v ty)
  | unify (left right : Ty) {after : Subst} (result : Subst.unify left right subst = .ok () after ∨
      ∃ error, Subst.unify left right subst = .error error after) : Edit subst after

def snapshots : Snapshots Subst SubstMark := ⟨snapshot, commit, rollback⟩

theorem Undoable.compressWithin (isOpen : 0 < base.opened) (root : TyVar) (steps : Nat) (v : TyVar)
    (undoable : base.Undoable subst) : base.Undoable (Subst.compressWithin root steps v subst) := by
  induction steps generalizing v subst with
  | zero => exact undoable
  | succ steps ih =>
    rw [Subst.compressWithin]
    split
    · rename_i target _
      split
      · exact ih target undoable
      · exact ih target (undoable.write isOpen v _)
    · exact undoable

theorem Undoable.unify (isOpen : 0 < base.opened) (undoable : base.Undoable subst) {left right : Ty}
    (result : Subst.unify left right subst = .ok () after ∨
      ∃ error, Subst.unify left right subst = .error error after) : base.Undoable after := by
  have kept : Keeps base.Undoable anything (Subst.unify left right) :=
    keeps_unify (fun _ holds => holds.push _) (fun v cell _ holds => holds.write isOpen v cell)
      left right
  have reached := kept subst undoable
  rcases result with result | ⟨error, result⟩
  · rw [result] at reached
    exact reached.1
  · rw [result] at reached
    exact reached

theorem Undoable.edit (isOpen : 0 < base.opened) (undoable : base.Undoable subst)
    (edit : subst.Edit after) : base.Undoable after := by
  cases edit with
  | fresh => exact undoable.push _
  | freshRigid name => exact undoable.push _
  | freshSkolem => exact undoable.push _
  | find v => exact undoable.compressWithin isOpen _ _ v
  | link v target => exact undoable.write isOpen v _
  | bind v ty => exact undoable.write isOpen v _
  | unify left right result => exact undoable.unify isOpen result

/-- Undoing what was done since a snapshot inside and then what was done before it. -/
theorem Undoable.commit (isOpen : 0 < base.opened) (undoable : base.Undoable subst)
    (inner : subst.snapshot.2.Undoable after) : base.Undoable after.commit := by
  obtain ⟨recent, journal, back⟩ := undoable.restored
  obtain ⟨recent', journal', back'⟩ := inner.restored
  have opened : after.opened - 1 = base.opened := by
    rw [inner.opened, snapshot, Nat.add_sub_cancel, undoable.opened]
  refine ⟨opened, Nat.le_trans undoable.size_le inner.size_le, recent' ++ recent, ?_,
    fun index below => ?_⟩
  · have notLast : after.opened - 1 ≠ 0 := by omega
    simp only [Subst.commit, close, if_neg notLast]
    rw [journal', List.append_assoc, ← journal]
    rfl
  · rw [← back index below, undo, List.foldl_append]
    exact undo_congr recent (back' index (Nat.lt_of_lt_of_le below undoable.size_le))

theorem close_snapshot_of_opened (isOpen : 0 < subst.opened) : subst.snapshot.2.close = subst := by
  have notLast : subst.opened ≠ 0 := by omega
  refine ext_parts rfl ?_ ?_
  · simp [snapshot, close, notLast]
  · simp [snapshot, close]

theorem snapshots_laws : snapshots.Laws Undoable (0 < ·.opened) where
  refl := undoable_refl
  stays undoable isOpen := undoable.opened.symm ▸ isOpen
  opens _ := Nat.succ_pos _
  rollback isOpen undoable := undoable.rollback.trans (close_snapshot_of_opened isOpen)
  commit isOpen undoable inner := undoable.commit isOpen inner

/-- The state at which a snapshot was taken. While an outer snapshot is open, the journal is as it
was. -/
structure Restored (base now : Subst) : Prop where
  cells : now.cells = base.cells
  opened : now.opened = base.opened
  whole : 0 < base.opened → now = base

theorem restored_close (base : Subst) : base.Restored base.snapshot.2.close :=
  ⟨rfl, rfl, close_snapshot_of_opened⟩

/-- Whatever happened since a snapshot was taken. -/
theorem undoable_of_nested (nested : snapshots.Nested Edit base.snapshot.2 [] after) :
    base.snapshot.2.Undoable after := by
  have isOpen : 0 < base.snapshot.2.opened := Nat.succ_pos _
  exact nested.stacked snapshots_laws isOpen fun edit stacked =>
    stacked.edited (fun isOpen undoable => undoable.edit isOpen edit) snapshots_laws isOpen

end Subst

namespace Registry

variable {base registry after : Registry}

/-- A call that defines something. Only definitions from a slot on are changed. -/
inductive Edit (floor : Nat) (registry : Registry) : Registry → Prop where
  | defineType (name : Name) (meaning : TypeDef) :
      Edit floor registry (registry.defineType name meaning)
  | defineCtor (info : CtorInfo) : Edit floor registry (registry.defineCtor info)
  | intTemplate (width : Nat) : Edit floor registry (registry.intTemplate width).2
  | alloc (template : Template) : Edit floor registry (registry.alloc template).2
  | modifyTemplate {id : TemplateId} (new : floor ≤ id.index) (change : Template → Template) :
    Edit floor registry (registry.modifyTemplate id change)

def checkpoints : Snapshots Registry RegistryMark := ⟨checkpoint, commit, rollback⟩

theorem Undoable.modifyBoth (undoable : base.Undoable registry) (id : TemplateId)
    (change : Template → Template) :
    (base.modifyTemplate id change).Undoable (registry.modifyTemplate id change) := by
  obtain ⟨recent, journal, back⟩ := undoable.restored
  have tables : (registry.modifyTemplate id change).tables = registry.tables := rfl
  refine ⟨undoable.opened, ?_, fun slot below => ?_, recent, journal,
    (tables_foldl tables recent).trans back⟩
  · simpa [Registry.modifyTemplate, Arena.modify, Arena.size] using undoable.size_le
  · have kept :=
      undoable.kept slot (by simpa [Registry.modifyTemplate, Arena.modify, Arena.size] using below)
    simp only [Arena.get?] at kept
    simp [Registry.modifyTemplate, Arena.modify, Arena.get?, Array.getElem?_modify, kept]

theorem Undoable.commit (isOpen : 0 < base.opened) (undoable : base.Undoable registry)
    (inner : registry.checkpoint.2.Undoable after) : base.Undoable after.commit := by
  obtain ⟨recent, journal, back⟩ := undoable.restored
  obtain ⟨recent', journal', back'⟩ := inner.restored
  have opened : after.opened - 1 = base.opened := by
    rw [inner.opened, checkpoint, Nat.add_sub_cancel, undoable.opened]
  refine ⟨opened, Nat.le_trans undoable.size_le inner.size_le, fun slot below => ?_,
    recent' ++ recent, ?_, ?_⟩
  · exact (inner.kept slot (Nat.lt_of_lt_of_le below undoable.size_le)).trans
      (undoable.kept slot below)
  · have notLast : after.opened - 1 ≠ 0 := by omega
    simp only [Registry.commit, close, if_neg notLast]
    rw [journal', List.append_assoc, ← journal]
    rfl
  · have tables : after.commit.tables = after.tables := rfl
    rw [List.foldl_append, ← back, tables_foldl ((tables_foldl tables recent').trans back') recent]
    have same : registry.checkpoint.2.tables = registry.tables := rfl
    exact tables_foldl same recent

theorem close_checkpoint_of_opened (isOpen : 0 < registry.opened) :
    registry.checkpoint.2.close = registry := by
  have notLast : registry.opened ≠ 0 := by omega
  obtain ⟨templates, types, ctors, ints, journal, opened⟩ := registry
  simpa [checkpoint, close] using fun last => absurd last notLast

theorem checkpoints_laws : checkpoints.Laws Undoable (0 < ·.opened) where
  refl := undoable_refl
  stays undoable isOpen := undoable.opened.symm ▸ isOpen
  opens _ := Nat.succ_pos _
  rollback isOpen undoable := undoable.rollback.trans (close_checkpoint_of_opened isOpen)
  commit isOpen undoable inner := undoable.commit isOpen inner

/-- A definition that is newer than the base is changed. A checkpoint taken after the definition
does not give back the old one, so it counts as taken at the changed one. -/
theorem stacked_modifyTemplate {marks : List RegistryMark} {id : TemplateId}
    (new : base.templates.size ≤ id.index) (change : Template → Template)
    (stacked : checkpoints.Stacked Undoable base marks registry) :
    checkpoints.Stacked Undoable base marks (registry.modifyTemplate id change) := by
  induction marks generalizing registry with
  | nil => exact stacked.modifyTemplate new change
  | cons mark marks ih =>
    obtain ⟨taken, rfl, undoable, below⟩ := stacked
    refine ⟨taken.modifyTemplate id change, ?_, undoable.modifyBoth id change, ih below⟩
    simp [checkpoints, checkpoint, Registry.modifyTemplate, Arena.modify, Arena.mark]

theorem stacked_edit {marks : List RegistryMark} (isOpen : 0 < base.opened)
    (edit : registry.Edit base.templates.size after)
    (stacked : checkpoints.Stacked Undoable base marks registry) :
    checkpoints.Stacked Undoable base marks after := by
  cases edit with
  | defineType name meaning =>
    exact stacked.edited (fun isOpen undoable => undoable.defineType isOpen name meaning)
      checkpoints_laws isOpen
  | defineCtor info =>
    exact stacked.edited (fun isOpen undoable => undoable.defineCtor isOpen info)
      checkpoints_laws isOpen
  | intTemplate width =>
    exact stacked.edited (fun isOpen undoable => undoable.intTemplate isOpen width)
      checkpoints_laws isOpen
  | alloc template =>
    exact stacked.edited (fun _ undoable => undoable.alloc template) checkpoints_laws isOpen
  | modifyTemplate new change => exact stacked_modifyTemplate new change stacked

/-- The state at which a checkpoint was taken. While an outer checkpoint is open, the journal is as
it was. -/
structure Restored (base now : Registry) : Prop where
  templates : now.templates = base.templates
  types : now.types = base.types
  ctors : now.ctors = base.ctors
  ints : now.ints = base.ints
  opened : now.opened = base.opened
  whole : 0 < base.opened → now = base

theorem restored_close (base : Registry) : base.Restored base.checkpoint.2.close :=
  ⟨rfl, rfl, rfl, rfl, rfl, close_checkpoint_of_opened⟩

/-- Whatever was defined since a checkpoint was taken. -/
theorem undoable_of_nested
    (nested : checkpoints.Nested (Edit base.templates.size) base.checkpoint.2 [] after) :
    base.checkpoint.2.Undoable after := by
  have isOpen : 0 < base.checkpoint.2.opened := Nat.succ_pos _
  exact nested.stacked checkpoints_laws isOpen fun edit stacked => stacked_edit isOpen edit stacked

end Registry

/-- Rolling back to a snapshot restores the state at which it was taken, whatever well-nested calls
came in between: snapshots taken inside may have been committed or rolled back. -/
theorem rollback_restores {base after : Subst} {base' after' : Registry}
    (nested : Subst.snapshots.Nested Subst.Edit base.snapshot.2 [] after)
    (nested' : Registry.checkpoints.Nested (Registry.Edit base'.templates.size) base'.checkpoint.2
      [] after') :
    base.Restored (after.rollback base.snapshot.1) ∧
      base'.Restored (after'.rollback base'.checkpoint.1) := by
  have restored : after.rollback base.snapshot.1 = base.snapshot.2.close :=
    (Subst.undoable_of_nested nested).rollback
  have restored' : after'.rollback base'.checkpoint.1 = base'.checkpoint.2.close :=
    (Registry.undoable_of_nested nested').rollback
  rw [restored, restored']
  exact ⟨base.restored_close, base'.restored_close⟩

/-- Solving a variable and naming a type under an inner snapshot that is committed. -/
theorem rollback_restores_committed :
    Subst.empty.fresh.2.Restored
        ((Subst.empty.fresh.2.snapshot.2.snapshot.2.bind ⟨0⟩ (.tuple [])).commit.rollback
          Subst.empty.fresh.2.snapshot.1) ∧
      Registry.initial.Restored
        ((Registry.initial.checkpoint.2.checkpoint.2.defineType "bool"
            (.synonym (.tuple []) .star)).commit.rollback Registry.initial.checkpoint.1) :=
  rollback_restores (.commit (.edit (.take .start) (.bind ⟨0⟩ (.tuple []))))
    (.commit (.edit (.take .start) (.defineType "bool" (.synonym (.tuple []) .star))))

end PolyCheck
