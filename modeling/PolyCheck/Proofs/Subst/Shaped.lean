import PolyCheck.Proofs.Subst.Calls
import PolyCheck.Proofs.Subst.Repeat
import PolyCheck.Proofs.Ty.Section

/-! Solutions in which every function on types is a section. Unification makes no other functions,
whichever types without quantifiers it is given, since a head is solved by a constructor with its
first components only. Walks stay among such types, and applications met on the way lose none of
their variables; so the search for a variable in a type does not miss it, and no variable becomes
part of its own solution. -/
namespace PolyCheck.Subst

open Relation (ReflTransGen)

variable {subst after : Subst} {world later : World} {ty head result : Ty} {depth : Nat}
  {v w x : TyVar}

section Search

/-- Some variable of the type leads to the given one through links and solutions. -/
def Leads (subst : Subst) (ty : Ty) (x : TyVar) : Prop :=
  ∃ w ∈ ty.leaves, ReflTransGen subst.Uses w x

theorem not_uses_of_isNew (isNew : (subst.cell v).IsNew) : ¬ subst.Uses v w := by
  intro uses
  unfold Uses at uses
  split at uses
  · rename_i cell
    rw [cell] at isNew
    exact isNew
  · rename_i cell
    rw [cell] at isNew
    exact isNew
  · exact uses

theorem eq_of_reaches (isNew : (subst.cell v).IsNew) (reaches : ReflTransGen subst.Uses v x) :
    v = x := by
  rcases ReflTransGen.cases_head reaches with same | ⟨w, uses, -⟩
  · exact same
  · exact absurd uses (not_uses_of_isNew isNew)

theorem reaches_root (ends : subst.LinksEnd) (notLink : ∀ w, subst.cell x ≠ .link w)
    (reaches : ReflTransGen subst.Uses v x) : ReflTransGen subst.Uses (subst.root v) x := by
  induction v using ends.linkInduction with
  | unlinked v unlinked => rwa [root_of_not_link unlinked]
  | linked v w cell ih =>
    rw [ends.root_of_link cell]
    rcases ReflTransGen.cases_head reaches with rfl | ⟨target, uses, rest⟩
    · exact absurd cell (notLink w)
    · rw [Uses, cell] at uses
      exact ih (uses ▸ rest)

theorem forM_eq_ok {α ε : Type} {items : List α} {search : α → Except ε PUnit}
    (found : forM items search = .ok ⟨⟩) : ∀ item ∈ items, search item = .ok ⟨⟩ := by
  induction items with
  | nil => exact nofun
  | cons item items ih =>
    rw [List.forM_cons] at found
    cases here : search item with
    | error error =>
      rw [here] at found
      cases found
    | ok _ =>
      rw [here] at found
      exact List.forall_mem_cons.mpr ⟨here, ih found⟩

theorem descend_seek
    (search : Agenda.descend (.error .unfinished) (subst.seek x) (depth + 1) ty = .ok ⟨⟩) :
    ∃ head, subst.shallowWithin (depth + 1) ty = some head ∧ head ≠ .var x ∧
      ∀ t ∈ head.children, Agenda.descend (.error .unfinished) (subst.seek x) depth t = .ok ⟨⟩ := by
  rw [Agenda.descend, seek] at search
  cases walk : subst.shallowWithin (depth + 1) ty with
  | none =>
    rw [walk] at search
    cases search
  | some head =>
    rw [walk] at search
    refine ⟨head, rfl, ?_, ?_⟩
    · rintro rfl
      simp only [if_pos] at search
      cases search
    · intro t member
      cases head with
      | var v => cases member
      | arrow _ _ | tuple _ | nominal _ _ | quantified _ _ | app _ _ =>
        exact forM_eq_ok search t (List.mem_reverse.mpr member)

end Search

/-- Cells with sections as their only functions on types, over variables that are in play or
parameters of such functions, and without cycles. -/
structure Shaped (world : World) (subst : Subst) : Prop extends Subst.empty.Local world subst where
  total : ∀ {v : TyVar}, v.index < subst.size → world.own v ∨ world.binder v
  sections : ∀ {v : TyVar} {ty : Ty}, subst.cell v = .bound ty → ty.Sectional world.binder world.own
  acyclic : WellFounded fun w v => subst.Uses v w

namespace Shaped

theorem apart (here : subst.Shaped world) (v : TyVar) (own : world.own v) : ¬ world.binder v :=
  fun holds => (here.bound holds).2 own

theorem isNew_binder (here : subst.Shaped world) (holds : world.binder v) : (subst.cell v).IsNew :=
  here.confines.binders holds

section Growth

theorem lengthen (here : subst.Shaped world) (longer : subst.Lengthened after)
    (grown : world ≤ later) (there : Subst.empty.Local later after)
    (total : ∀ {v : TyVar}, v.index < after.size → later.own v ∨ later.binder v) :
      after.Shaped later where
  toLocal := there
  total := total
  sections {v ty} cell := by
    rcases longer.cell_cases v with same | ⟨-, isNew⟩
    · exact (here.sections (same ▸ cell)).mono grown.2 grown.1
    · rw [cell] at isNew
      exact isNew.elim
  acyclic := by
    refine Subrelation.wf (fun {w v} uses => ?_) here.acyclic
    rcases longer.cell_cases v with same | ⟨-, isNew⟩
    · rwa [Uses, same] at uses
    · unfold Uses at uses
      split at uses
      · rename_i cell
        rw [cell] at isNew
        exact isNew.elim
      · rename_i cell
        rw [cell] at isNew
        exact isNew.elim
      · exact uses.elim

theorem total_push (here : subst.Shaped world) {cell : Cell} (grown : world ≤ later)
    (new : later.own ⟨subst.size⟩ ∨ later.binder ⟨subst.size⟩)
    (inside : v.index < (subst.push cell).2.size) :
    later.own v ∨ later.binder v := by
  rw [size_push] at inside
  rcases Nat.lt_succ_iff_lt_or_eq.mp inside with old | last
  · exact (here.total old).imp (grown.1 v) (grown.2 v)
  · rwa [show v = ⟨subst.size⟩ from congrArg TyVar.mk last]

theorem push_own (here : subst.Shaped world) {cell : Cell} (isNew : cell.IsNew) :
    (subst.push cell).2.Shaped (world.withOwn ⟨subst.size⟩) :=
  here.lengthen (lengthened_push subst isNew) (world.le_withOwn _) (here.toLocal.push_own isNew)
    (here.total_push (world.le_withOwn _) (.inl (.inr rfl)))

theorem push_binder (here : subst.Shaped world) (name : Option Name) :
    (subst.push (.rigid name)).2.Shaped (world.withBinder ⟨subst.size⟩) :=
  here.lengthen (lengthened_push subst (Cell.isNew_rigid name)) (world.le_withBinder _)
    (here.toLocal.push_binder name) (here.total_push (world.le_withBinder _) (.inr (.inr rfl)))

theorem pushMany_own (here : subst.Shaped world) {cell : Cell} (isNew : cell.IsNew) (count : Nat) :
    ∃ later, world ≤ later ∧ (subst.pushMany cell count).2.Shaped later ∧
      ∀ v ∈ (subst.pushMany cell count).1,
        later.own v ∧ (subst.pushMany cell count).2.cell v = cell := by
  induction count generalizing subst world with
  | zero => exact ⟨world, le_rfl, here, nofun⟩
  | succ count ih =>
    obtain ⟨later, grown, there, each⟩ := ih (here.push_own isNew)
    refine ⟨later, (world.le_withOwn _).trans grown, there,
      List.forall_mem_cons.mpr ⟨⟨grown.1 _ (.inr rfl), ?_⟩, each⟩⟩
    have longer := (lengthened_pushMany (subst.push cell).2 isNew count).1
    exact (longer.cells (by simp)).trans (Local.cell_push_new subst cell)

theorem pushMany_binder (here : subst.Shaped world) (name : Option Name) (count : Nat) :
    ∃ later, world ≤ later ∧ (subst.pushMany (.rigid name) count).2.Shaped later ∧
      ∀ v ∈ (subst.pushMany (.rigid name) count).1, later.binder v := by
  induction count generalizing subst world with
  | zero => exact ⟨world, le_rfl, here, nofun⟩
  | succ count ih =>
    obtain ⟨later, grown, there, each⟩ := ih (here.push_binder name)
    exact ⟨later, (world.le_withBinder _).trans grown, there,
      List.forall_mem_cons.mpr ⟨grown.2 _ (.inr rfl), each⟩⟩

end Growth

section Walks

variable (here : subst.Shaped world)
include here

/-- The steps to the head of a type stay among types whose functions are sections. -/
theorem heads (sectional : ty.Sectional world.binder world.own) (heads : subst.Heads ty head) :
    head.Sectional world.binder world.own := by
  induction heads with
  | unsolved _ =>
    cases sectional with
    | var own => exact .var (here.confines.root own)
  | solved cell _ ih => exact ih (here.sections cell)
  | arrow | tuple | nominal | quantified => exact sectional
  | applied _ _ ihFirst ih =>
    obtain ⟨fst, each⟩ := sectional.app_inv
    exact ih ((ihFirst fst).apply here.apart each)
  | collected _ ih =>
    obtain ⟨fst, each⟩ := sectional.app_inv
    obtain ⟨fst', firsts⟩ := (ih fst).app_inv
    exact .app fst' (List.forall_mem_append.mpr ⟨firsts, each⟩)
  | stuck _ _ ih =>
    obtain ⟨fst, each⟩ := sectional.app_inv
    exact .app (ih fst) each

theorem shallowWithin (sectional : ty.Sectional world.binder world.own)
    (walk : subst.shallowWithin depth ty = some head) : head.Sectional world.binder world.own :=
  here.heads sectional (heads_of_walk walk)

end Walks

section Search

variable (here : subst.Shaped world) (own : world.own x) (unbound : subst.cell x = .unbound)
include here own unbound

omit here own unbound in
theorem leads_app {function found : Ty} {args : List Ty}
    (leads : subst.Leads (.app function args) x)
    (first : subst.Leads function x → subst.Leads found x) : subst.Leads (.app found args) x := by
  obtain ⟨w, member, reaches⟩ := leads
  rw [Ty.leaves, List.mem_append] at member
  rcases member with inHead | inArgs
  · obtain ⟨u, inFound, reaches⟩ := first ⟨w, inHead, reaches⟩
    exact ⟨u, by rw [Ty.leaves]; exact List.mem_append_left _ inFound, reaches⟩
  · exact ⟨w, by rw [Ty.leaves]; exact List.mem_append_right _ inArgs, reaches⟩

theorem leads_shallow (sectional : ty.Sectional world.binder world.own)
    (walk : subst.shallowWithin depth ty = some head) (leads : subst.Leads ty x) :
      subst.Leads head x := by
  replace walk := heads_of_walk walk
  induction walk with
  | @unsolved v _ =>
    obtain ⟨w, member, reaches⟩ := leads
    obtain rfl := List.mem_singleton.mp member
    exact ⟨_, List.mem_singleton_self _, reaches_root here.ends (by simp [unbound]) reaches⟩
  | @solved v solution _ cell _ ih =>
    obtain ⟨w, member, reaches⟩ := leads
    obtain rfl := List.mem_singleton.mp member
    rw [rootCell] at cell
    rcases ReflTransGen.cases_head (reaches_root here.ends (by simp [unbound]) reaches)
      with same | ⟨leaf, uses, rest⟩
    · simp [same, unbound] at cell
    · rw [Uses, cell] at uses
      exact ih (here.sections cell) ⟨leaf, uses, rest⟩
  | arrow | tuple | nominal | quantified => exact leads
  | applied first _ ihFirst ih =>
    obtain ⟨fst, each⟩ := sectional.app_inv
    obtain ⟨u, inside, reaches⟩ := leads_app leads (ihFirst fst)
    have function := here.heads fst first
    rcases function.mem_leaves_apply here.apart inside with kept | isBinder
    · exact ih (function.apply here.apart each) ⟨u, kept, reaches⟩
    · obtain rfl := eq_of_reaches (here.isNew_binder isBinder) reaches
      exact absurd isBinder (here.apart u own)
  | collected _ ih =>
    obtain ⟨u, inside, reaches⟩ := leads_app leads (ih sectional.app_inv.1)
    refine ⟨u, ?_, reaches⟩
    simp only [Ty.leaves, List.mem_append, Ty.mem_leavesAll, or_and_right, exists_or] at inside ⊢
    exact or_assoc.mp inside
  | stuck _ _ ih => exact leads_app leads (ih sectional.app_inv.1)

theorem not_leads_of_descend (sectional : ty.Sectional world.binder world.own)
    (search : Agenda.descend (.error .unfinished) (subst.seek x) depth ty = .ok ⟨⟩) :
      ¬ subst.Leads ty x := by
  induction depth using Nat.strongRecOn generalizing ty with
  | ind depth ih =>
    cases depth with
    | zero => cases search
    | succ depth =>
      intro leads
      obtain ⟨head, walk, other, below⟩ := descend_seek search
      obtain ⟨w, member, reaches⟩ := here.leads_shallow own unbound sectional walk leads
      have part : ∀ {t : Ty}, t ∈ head.children → t.Sectional world.binder world.own →
          w ∉ t.leaves :=
        fun isPart sectional inside => ih depth (Nat.lt_succ_self _) sectional (below _ isPart)
          ⟨w, inside, reaches⟩
      have parts : ∀ {types : List Ty}, (∀ t ∈ types, t ∈ head.children) →
          (∀ t ∈ types, t.Sectional world.binder world.own) → w ∉ Ty.leavesAll types :=
            fun among each inside => by
        obtain ⟨t, isPart, inside⟩ := Ty.mem_leavesAll.mp inside
        exact part (among t isPart) (each t isPart) inside
      cases here.shallowWithin sectional walk with
      | @var v own' =>
        obtain rfl := List.mem_singleton.mp member
        exact other (congrArg Ty.var
          (eq_of_reaches ((here.ends.shallowWithin_head walk).1 w rfl) reaches))
      | arrow fst snd =>
        rw [Ty.leaves, List.mem_append] at member
        exact member.elim (part (by simp [Ty.children]) fst) (part (by simp [Ty.children]) snd)
      | tuple each | nominal each =>
        rw [Ty.leaves] at member
        exact parts (fun _ => id) each member
      | app fst each =>
        rw [Ty.leaves, List.mem_append] at member
        exact member.elim (part (by simp [Ty.children]) fst)
          (parts (fun t => List.mem_cons_of_mem _) each)
      | @lambda former kept params takes some once binders each =>
        -- The body is its own head, so that its parts come two levels below.
        have body := below _ List.mem_cons_self
        cases depth with
        | zero => cases body
        | succ depth =>
          obtain ⟨body', walk', -, below'⟩ := descend_seek body
          have takes' : former.Takes (kept ++ params.map Ty.var).length := by simpa using takes
          obtain rfl := shallowWithin_unique walk' (former.shallowWithin_build subst _ 0)
          rw [Former.children_build takes'] at below'
          rcases (Former.mem_leaves_lambda takes).mp member with ⟨t, isKept, inside⟩ | isParam
          · refine ih depth (by omega) (each t isKept) (below' t (List.mem_append_left _ isKept))
              ⟨w, inside, reaches⟩
          · obtain rfl := eq_of_reaches (here.isNew_binder (binders w isParam)) reaches
            exact here.apart w own (binders w isParam)

theorem not_leads (sectional : ty.Sectional world.binder world.own)
    (search : subst.occursWithin x depth ty = some false) : ¬ subst.Leads ty x := by
  rw [occursWithin, Agenda.walk_singleton] at search
  split at search
  · rename_i ended
    exact here.not_leads_of_descend own unbound sectional ended
  · simp at search
  · simp at search

end Search

section Writes

/-- A variable in play gets a cell over variables in play that do not lead back to it. -/
theorem write (here : subst.Shaped world) {cell : Cell} (own : world.own x)
    (linked : ∀ {w}, cell = .link w → world.own w)
    (solved : ∀ {ty}, cell = .bound ty → ty.Sectional world.binder world.own)
    (ends : (subst.write x cell).LinksEnd)
    (acyclic : WellFounded fun w v => (subst.write x cell).Uses v w) :
    (subst.write x cell).Shaped world where
  toLocal := here.toLocal.write own linked (fun same => (solved same).confined) ends
  total inside := here.total (by simpa using inside)
  sections {v ty} found := by
    rcases subst.cell_write_cases x v cell with kept | ⟨-, written⟩
    · exact here.sections (kept ▸ found)
    · exact solved (written.symm.trans found)
  acyclic := acyclic

theorem acyclic_write (here : subst.Shaped world) {cell : Cell}
    (apart : ∀ w, (subst.write x cell).Uses x w → ¬ ReflTransGen subst.Uses w x) :
    WellFounded fun w v => (subst.write x cell).Uses v w := by
  refine acyclic_of_apart here.acyclic (fun different uses => ?_) apart
  rwa [Uses, cell_write_of_ne different] at uses

theorem link (here : subst.Shaped world) {y : TyVar} (own : world.own x) (own' : world.own y)
    (unbound : subst.cell x = .unbound) (isNew : (subst.cell y).IsNew) (different : x ≠ y) :
    (subst.link x y).Shaped world := by
  have isNewX : (subst.cell x).IsNew := unbound ▸ Cell.isNew_unbound
  refine here.write own ?_ nofun
    (here.ends.link (root_of_isNew isNewX) (root_of_isNew isNew) different)
    (here.acyclic_write fun w uses reaches => ?_)
  · rintro w ⟨⟩
    exact own'
  · rw [Uses, cell_write_self (here.inPlay own).2] at uses
    exact different (eq_of_reaches isNew (uses ▸ reaches)).symm

theorem bind (here : subst.Shaped world) (own : world.own x)
    (sectional : ty.Sectional world.binder world.own)
    (apart : ¬ subst.Leads ty x) : (subst.bind x ty).Shaped world := by
  refine here.write own nofun ?_ (here.ends.bind x ty) (here.acyclic_write fun w uses reaches => ?_)
  · rintro _ ⟨⟩
    exact sectional
  · rw [Uses, cell_write_self (here.inPlay own).2] at uses
    exact apart ⟨w, uses, reaches⟩

theorem shorten (here : subst.Shaped world) (cell : subst.cell v = .link w) :
    (subst.write v (.link (subst.root v))).Shaped world := by
  have own : world.own v := by
    refine (here.total (inside_of_cell cell (by simp))).resolve_right fun holds => ?_
    obtain ⟨name, rigid⟩ := here.rigid holds
    simp [cell] at rigid
  refine here.write own ?_ nofun (here.ends.shorten cell)
    (here.ends.acyclic_shorten here.acyclic cell)
  rintro w ⟨⟩
  exact here.confines.root own

theorem find (here : subst.Shaped world) (v : TyVar) : (subst.find v).2.Shaped world :=
  here.ends.find_induction here (fun _ cell holds => holds.shorten cell) v

theorem snapshot (here : subst.Shaped world) : subst.snapshot.2.Shaped world where
  confines := ⟨here.confines.linked, here.confines.solved, here.confines.binders⟩
  ends := here.ends
  size_le := Nat.zero_le _
  cells := here.cells
  inPlay := here.inPlay
  bound := here.bound
  rigid := here.rigid
  total := here.total
  sections := here.sections
  acyclic := here.acyclic

end Writes

end Shaped

section Spare

/-- No function on types in a solution has the variable as a parameter. -/
def Spare (subst : Subst) (v : TyVar) : Prop :=
  ∀ x ty, subst.cell x = .bound ty → ty.Confined (· ≠ v) fun _ => True

/-- Types without quantifiers over the variables there are, without the parameters of solutions. -/
def unquantified (subst : Subst) (ty : Ty) : Prop :=
  ty.Unquantified fun v => v.index < subst.size ∧ subst.Spare v

/-- All variables are in play but the parameters of solutions. -/
def spareWorld (subst : Subst) : World where
  own v := v.index < subst.size ∧ subst.Spare v
  binder v := ¬ subst.Spare v

variable (here : subst.Shaped world)
include here

theorem Shaped.binder_of_not_spare (bound : ¬ subst.Spare v) : world.binder v := by
  by_contra free
  refine bound fun x ty cell => (here.sections cell).confined.mono (fun p holds => ?_) fun _
    _ => trivial
  rintro rfl
  exact free holds

theorem Shaped.spare_of_own (own : world.own v) : v.index < subst.size ∧ subst.Spare v :=
  ⟨(here.inPlay own).2, by_contra fun bound => here.apart v own (here.binder_of_not_spare bound)⟩

theorem Shaped.settle : subst.Shaped subst.spareWorld where
  confines := by
    refine ⟨fun {v w} own cell => ?_, fun {v ty} _ cell => ?_, fun bound => ?_⟩
    · refine here.spare_of_own
        (here.confines.linked ((here.total own.1).resolve_right fun holds => ?_) cell)
      obtain ⟨name, rigid⟩ := here.rigid holds
      simp [cell] at rigid
    · refine (here.sections cell).binding.confined.mono (fun p binds spare => binds ?_) fun _ =>
        here.spare_of_own
      exact spare v ty cell
    · exact here.isNew_binder (here.binder_of_not_spare bound)
  ends := here.ends
  size_le := Nat.zero_le _
  cells := here.cells
  inPlay own := ⟨Nat.zero_le _, own.1⟩
  bound bound := ⟨(here.bound (here.binder_of_not_spare bound)).1, fun own => bound own.2⟩
  rigid bound := here.rigid (here.binder_of_not_spare bound)
  total {v} inside := by
    by_cases spare : subst.Spare v
    · exact .inl ⟨inside, spare⟩
    · exact .inr spare
  sections {v ty} cell := by
    refine (here.sections cell).binding.mono (fun p binds spare => binds ?_) fun _ =>
      here.spare_of_own
    exact spare v ty cell
  acyclic := here.acyclic

end Spare

end PolyCheck.Subst
