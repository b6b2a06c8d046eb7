import Mathlib
import PolyCheck.Registry
import PolyCheck.Subst

/-! What journals give back. Relative to cells or tables at which a snapshot stands open, later ones
are undoable when the recent part of their journal leads back to them; every operation keeps this,
and a rollback then restores exactly what there was. -/
namespace PolyCheck

namespace Table

variable {κ β : Type} [DecidableEq κ]

theorem insertEntry_insertEntry {key : κ} {old : β} {entries : List (κ × β)}
    (known : entries.lookup key = some old) (value : β) :
    insertEntry key old (insertEntry key value entries) = entries := by
  induction entries with
  | nil => simp at known
  | cons entry rest ih =>
    obtain ⟨k, v⟩ := entry
    by_cases same : k = key
    · subst same
      simp only [List.lookup_cons_self, Option.some.injEq] at known
      simp [insertEntry, known]
    · rw [List.lookup_cons, beq_false_of_ne (Ne.symm same)] at known
      simp [insertEntry, same, ih known]

theorem filter_insertEntry {key : κ} {entries : List (κ × β)} (new : entries.lookup key = none)
    (value : β) : (insertEntry key value entries).filter (fun entry => entry.1 ≠ key) =
      entries := by
  induction entries with
  | nil => simp [insertEntry]
  | cons entry rest ih =>
    obtain ⟨k, v⟩ := entry
    by_cases same : k = key
    · simp [same] at new
    · rw [List.lookup_cons, beq_false_of_ne (Ne.symm same)] at new
      have kept := ih new
      simp only [insertEntry, same, if_false]
      rw [List.filter_cons_of_pos (by simpa using same), kept]

theorem restore_insert (table : Table κ β) (key : κ) (value : β) :
    (table.insert key value).restore key (table.get? key) = table := by
  cases known : table.get? key with
  | some old => exact congrArg mk (insertEntry_insertEntry known value)
  | none => exact congrArg mk (filter_insertEntry known value)

end Table

namespace Subst

variable {base subst : Subst}

/-- Cells that lead back to earlier ones, at which a snapshot stands open. -/
structure Undoable (base subst : Subst) : Prop where
  opened : subst.opened = base.opened
  size_le : base.size ≤ subst.size
  restored : ∃ recent, subst.journal = recent ++ base.journal ∧
    ∀ index < base.size, (undo subst.cells recent)[index]? = base.cells[index]?

theorem undoable_refl (subst : Subst) : subst.Undoable subst :=
  ⟨rfl, Nat.le_refl _, [], rfl, fun _ _ => rfl⟩

theorem undo_congr {cells cells' : Array Cell} {index : Nat} (journal : List (TyVar × Cell))
    (same : cells[index]? = cells'[index]?) :
    (undo cells journal)[index]? = (undo cells' journal)[index]? := by
  induction journal generalizing cells cells' with
  | nil => exact same
  | cons entry journal ih =>
    refine ih ?_
    have outside : cells.size ≤ index ↔ cells'.size ≤ index := by
      rw [← Array.getElem?_eq_none_iff, same, Array.getElem?_eq_none_iff]
    by_cases here : entry.1.index = index
    · subst here
      have inside : entry.1.index < cells.size ↔ entry.1.index < cells'.size := by omega
      simp [Array.getElem?_setIfInBounds, inside]
    · simp [here, same]

theorem size_undo (cells : Array Cell) (journal : List (TyVar × Cell)) :
    (undo cells journal).size = cells.size := by
  induction journal generalizing cells with
  | nil => rfl
  | cons entry journal ih => rw [undo, List.foldl_cons, ← undo, ih, Array.size_setIfInBounds]

theorem Undoable.push (undoable : base.Undoable subst) (cell : Cell) :
    base.Undoable (subst.push cell).2 := by
  obtain ⟨recent, journal, back⟩ := undoable.restored
  have inside := undoable.size_le
  refine ⟨undoable.opened, ?_, recent, journal, fun index below => ?_⟩
  · exact Nat.le_trans inside (by simp [Subst.push, size])
  · rw [← back index below]
    refine undo_congr recent ?_
    exact Array.getElem?_push_lt (Nat.lt_of_lt_of_le below inside) ▸
      (Array.getElem?_eq_getElem _).symm

theorem Undoable.write (undoable : base.Undoable subst) (isOpen : 0 < base.opened) (v : TyVar)
    (cell : Cell) : base.Undoable (subst.write v cell) := by
  obtain ⟨recent, journal, back⟩ := undoable.restored
  have notZero : subst.opened ≠ 0 := by
    rw [undoable.opened]
    omega
  refine ⟨undoable.opened, ?_, (v, subst.cell v) :: recent, ?_, fun index below => ?_⟩
  · simpa [Subst.write, size] using undoable.size_le
  · simp [Subst.write, notZero, journal]
  · rw [← back index below]
    refine undo_congr recent ?_
    have inside := Nat.lt_of_lt_of_le below undoable.size_le
    by_cases same : v.index = index
    · subst same
      simp only [size] at inside
      simp [Subst.write, Subst.cell, inside]
    · simp [Subst.write, same]

theorem Undoable.rollback (undoable : base.Undoable subst) :
    subst.rollback ⟨base.size, base.journal.length⟩ = base.close := by
  obtain ⟨recent, journal, back⟩ := undoable.restored
  have count : subst.journal.length - base.journal.length = recent.length := by simp [journal]
  have cells : (undo subst.cells recent).take base.size = base.cells := by
    refine Array.ext_getElem? fun index => ?_
    have enough : base.size ≤ (undo subst.cells recent).size := by
      rw [size_undo]
      exact undoable.size_le
    by_cases below : index < base.size
    · rw [← back index below, Array.take_eq_extract, Array.getElem?_extract, if_pos (by omega),
        Nat.zero_add]
    · have outside : base.cells.size ≤ index := Nat.le_of_not_lt below
      rw [Array.getElem?_eq_none outside, Array.getElem?_eq_none]
      simp only [Array.take_eq_extract, Array.size_extract]
      simp only [size] at below ⊢
      omega
  have same := undoable.opened
  refine ext_parts ?_ ?_ ?_
  · simpa [Subst.rollback, close, count, journal] using cells
  · simp [Subst.rollback, close, journal, same]
  · simp [Subst.rollback, close, same]

theorem close_snapshot (opened : subst.opened = 0) (journal : subst.journal = []) :
    subst.snapshot.2.close = subst := by
  refine ext_parts rfl ?_ ?_
  · simp [snapshot, close, opened, journal]
  · simp [snapshot, close]

end Subst

namespace Registry

variable {base registry : Registry}

def tables (registry : Registry) : Table Name TypeDef × Table Name CtorInfo ×
    Table Nat TemplateId :=
  (registry.types, registry.ctors, registry.ints)

/-- Definitions and tables that lead back to earlier ones, at which a checkpoint stands open. The
earlier definitions are still in place. -/
structure Undoable (base registry : Registry) : Prop where
  opened : registry.opened = base.opened
  size_le : base.templates.size ≤ registry.templates.size
  kept : ∀ slot < base.templates.size, registry.templates.get? slot = base.templates.get? slot
  restored : ∃ recent, registry.journal = recent ++ base.journal ∧
    (recent.foldl takeBack registry).tables = base.tables

theorem undoable_refl (registry : Registry) : registry.Undoable registry :=
  ⟨rfl, Nat.le_refl _, fun _ _ => rfl, [], rfl, rfl⟩

theorem tables_takeBack {registry registry' : Registry} (same : registry.tables = registry'.tables)
    (undo : RegistryUndo) : (registry.takeBack undo).tables = (registry'.takeBack undo).tables := by
  simp only [tables, Prod.mk.injEq] at same
  obtain ⟨types, ctors, ints⟩ := same
  cases undo <;> simp [takeBack, tables, types, ctors, ints]

theorem tables_foldl {registry registry' : Registry} (same : registry.tables = registry'.tables)
    (journal : List RegistryUndo) :
    (journal.foldl takeBack registry).tables = (journal.foldl takeBack registry').tables := by
  induction journal generalizing registry registry' with
  | nil => exact same
  | cons undo journal ih => exact ih (tables_takeBack same undo)

@[simp] theorem templates_foldl (registry : Registry) (journal : List RegistryUndo) :
    (journal.foldl takeBack registry).templates = registry.templates := by
  induction journal generalizing registry with
  | nil => rfl
  | cons undo journal ih =>
    rw [List.foldl_cons, ih]
    cases undo <;> rfl

@[simp] theorem opened_foldl (registry : Registry) (journal : List RegistryUndo) :
    (journal.foldl takeBack registry).opened = registry.opened := by
  induction journal generalizing registry with
  | nil => rfl
  | cons undo journal ih =>
    rw [List.foldl_cons, ih]
    cases undo <;> rfl

theorem Undoable.withTemplates (undoable : base.Undoable registry) {templates : Arena Template}
    (size_le : registry.templates.size ≤ templates.size)
    (kept : ∀ slot < base.templates.size, templates.get? slot = registry.templates.get? slot) :
    base.Undoable { registry with templates } := by
  obtain ⟨recent, journal, back⟩ := undoable.restored
  refine ⟨undoable.opened, Nat.le_trans undoable.size_le size_le, fun slot below => ?_, recent,
    journal, ?_⟩
  · exact (kept slot below).trans (undoable.kept slot below)
  · rw [← back]
    have same : ({ registry with templates } : Registry).tables = registry.tables := rfl
    exact tables_foldl same recent

theorem Undoable.alloc (undoable : base.Undoable registry) (template : Template) :
    base.Undoable (registry.alloc template).2 := by
  refine undoable.withTemplates ?_ fun slot below => ?_
  · simp [Arena.alloc, Arena.size]
  · have inside : slot < registry.templates.slots.size :=
      Nat.lt_of_lt_of_le below undoable.size_le
    simp [Arena.alloc, Arena.get?, Array.getElem?_push, Nat.ne_of_lt inside]

theorem Undoable.modifyTemplate (undoable : base.Undoable registry) {id : TemplateId}
    (new : base.templates.size ≤ id.index) (change : Template → Template) :
    base.Undoable (registry.modifyTemplate id change) := by
  refine undoable.withTemplates ?_ fun slot below => ?_
  · simp [Arena.modify, Arena.size]
  · have different : id.index ≠ slot := by omega
    simp [Arena.modify, Arena.get?, Array.getElem?_modify, different]

theorem Undoable.record (undoable : base.Undoable registry) (isOpen : 0 < base.opened)
    {changed : Registry} {undo : RegistryUndo} (templates : changed.templates = registry.templates)
    (journal : changed.journal = registry.journal) (opened : changed.opened = registry.opened)
    (back : (changed.takeBack undo).tables = registry.tables) :
    base.Undoable (changed.record undo) := by
  obtain ⟨recent, journal', back'⟩ := undoable.restored
  have notZero : changed.opened ≠ 0 := by
    rw [opened, undoable.opened]
    omega
  rw [Registry.record, if_neg notZero]
  refine ⟨opened.trans undoable.opened, ?_, fun slot below => ?_, undo :: recent, ?_, ?_⟩
  · exact templates ▸ undoable.size_le
  · exact templates ▸ undoable.kept slot below
  · simp [journal, journal']
  · rw [List.foldl_cons, ← back', ← tables_foldl back recent]
    have same : ({ changed with journal := undo :: changed.journal } : Registry).tables =
      changed.tables := rfl
    exact tables_foldl (tables_takeBack same undo) recent

theorem Undoable.intTemplate (undoable : base.Undoable registry) (isOpen : 0 < base.opened)
    (width : Nat) : base.Undoable (registry.intTemplate width).2 := by
  rw [Registry.intTemplate]
  cases known : registry.ints.get? width with
  | some id => exact undoable
  | none =>
    refine (undoable.alloc _).record isOpen rfl rfl rfl ?_
    have back := registry.ints.restore_insert width ⟨registry.templates.nextSlot⟩
    rw [known] at back
    simpa [takeBack, tables, Registry.alloc, Table.restore] using back

theorem Undoable.defineType (undoable : base.Undoable registry) (isOpen : 0 < base.opened)
    (name : Name) (meaning : TypeDef) : base.Undoable (registry.defineType name meaning) := by
  refine undoable.record isOpen rfl rfl rfl ?_
  simp [takeBack, tables, Table.restore_insert]

theorem Undoable.defineCtor (undoable : base.Undoable registry) (isOpen : 0 < base.opened)
    (info : CtorInfo) : base.Undoable (registry.defineCtor info) := by
  refine undoable.record isOpen rfl rfl rfl ?_
  simp [takeBack, tables, Table.restore_insert]

theorem Undoable.rollback (undoable : base.Undoable registry) :
    registry.rollback ⟨base.templates.mark, base.journal.length⟩ = base.close := by
  obtain ⟨recent, journal, back⟩ := undoable.restored
  have count : registry.journal.length - base.journal.length = recent.length := by simp [journal]
  have slots : registry.templates.cutTo base.templates.mark = base.templates := by
    refine congrArg Arena.mk (Array.ext_getElem? fun slot => ?_)
    have enough := undoable.size_le
    simp only [Arena.size] at enough
    by_cases below : slot < base.templates.slots.size
    · have kept := undoable.kept slot below
      simp only [Arena.get?] at kept
      have inside : slot < min base.templates.slots.size registry.templates.slots.size := by omega
      simp only [Arena.mark, Array.take_eq_extract]
      rw [← kept, Array.getElem?_extract, if_pos (by simpa using inside), Nat.zero_add]
    · rw [Array.getElem?_eq_none (Nat.le_of_not_lt below), Array.getElem?_eq_none]
      simp only [Arena.mark, Array.take_eq_extract, Array.size_extract]
      omega
  have same := undoable.opened
  simp only [tables, Prod.mk.injEq] at back
  obtain ⟨types, ctors, ints⟩ := back
  simp [Registry.rollback, close, journal, slots, same, types, ctors, ints]

theorem close_checkpoint (opened : registry.opened = 0) (journal : registry.journal = []) :
    registry.checkpoint.2.close = registry := by
  obtain ⟨templates, types, ctors, ints, _, _⟩ := registry
  simp only at opened journal
  simp [checkpoint, close, opened, journal]

end Registry

end PolyCheck
