import PolyCheck.Proofs.Subst.Local

/-! What becomes of a cell. New variables, searches for a root and unifications, failed ones
included, come down to single writes: a new cell, an unbound root that is linked to another root or
solved, and a link that is pointed at the root it leads to. So a cell is solved once at most, a
rigid or solved cell is never written again, and links have no cycle, whatever the types are. Over
first-order types the same holds of solutions, so that walks over types end. -/
namespace PolyCheck.Subst

open Run Unify

inductive Overwrites (subst : Subst) (v : TyVar) : Cell → Cell → Prop where
  | link {w : TyVar} (different : w ≠ v) (isRoot : subst.root w = w) :
    Overwrites subst v .unbound (.link w)
  | bind (ty : Ty) : Overwrites subst v .unbound (.bound ty)
  | shorten (w : TyVar) : Overwrites subst v (.link w) (.link (subst.root v))

/-- Cells that come from earlier ones by single writes. The log holds every variable that was
written with its previous cell, the latest write first. -/
inductive Writes (before : Subst) : List (TyVar × Cell) → Subst → Prop where
  | start : Writes before [] before
  | alloc {log : List (TyVar × Cell)} {subst : Subst} (earlier : Writes before log subst)
      {cell : Cell} (isNew : cell.IsNew) : Writes before log (subst.push cell).2
  | snapshot {log : List (TyVar × Cell)} {subst : Subst} (earlier : Writes before log subst) :
    Writes before log subst.snapshot.2
  | write {log : List (TyVar × Cell)} {subst : Subst} (earlier : Writes before log subst)
      {v : TyVar} {cell : Cell} (allowed : subst.Overwrites v (subst.cell v) cell) :
    Writes before ((v, subst.cell v) :: log) (subst.write v cell)

/-- What a cell can turn into while others are written. -/
inductive Evolves (v : TyVar) : Cell → Cell → Prop where
  | same (cell : Cell) : Evolves v cell cell
  | link {w : TyVar} (different : w ≠ v) : Evolves v .unbound (.link w)
  | bind (ty : Ty) : Evolves v .unbound (.bound ty)
  | shorten (w : TyVar) {target : TyVar} (different : target ≠ v) : Evolves v (.link w)
      (.link target)

variable {before subst after : Subst} {log log' : List (TyVar × Cell)} {v w x : TyVar}

theorem Evolves.trans {first second third : Cell} (earlier : Evolves v first second)
    (later : Evolves v second third) : Evolves v first third := by
  cases earlier with
  | same => exact later
  | link different =>
    cases later with
    | same => exact .link different
    | shorten _ different' => exact .link different'
  | bind ty =>
    cases later with
    | same => exact .bind ty
  | shorten w different =>
    cases later with
    | same => exact .shorten w different
    | shorten _ different' => exact .shorten w different'

section Root

theorem LinksEnd.linkInduction (ends : subst.LinksEnd) {motive : TyVar → Prop}
    (unlinked : ∀ v, (∀ w, subst.cell v ≠ .link w) → motive v)
    (linked : ∀ v w, subst.cell v = .link w → motive w → motive v) (v : TyVar) : motive v := by
  obtain ⟨rank, lower⟩ := ends
  induction same : rank v using Nat.strongRecOn generalizing v with
  | ind _ ih =>
    by_cases link : ∃ w, subst.cell v = .link w
    · obtain ⟨w, cell⟩ := link
      exact linked v w cell (ih (rank w) (same ▸ lower v w cell) w rfl)
    · exact unlinked v fun w cell => link ⟨w, cell⟩

theorem LinksEnd.root_ne_of_link (ends : subst.LinksEnd) (cell : subst.cell v = .link w) :
    subst.root v ≠ v := by
  intro same
  exact ends.cell_root_ne v w (same.symm ▸ cell)

theorem LinksEnd.shorten (ends : subst.LinksEnd) (cell : subst.cell v = .link w) :
    (subst.write v (.link (subst.root v))).LinksEnd := by
  obtain ⟨rank, lower⟩ := id ends
  refine ⟨rank, fun u target linked => ?_⟩
  rcases subst.cell_write_cases v u (.link (subst.root v)) with kept | ⟨rfl, written⟩
  · exact lower u target (kept ▸ linked)
  · obtain rfl := Cell.link.inj (written.symm.trans linked)
    have below : rank (subst.root w) ≤ rank w := by
      refine @root_mem subst w (fun u => rank u ≤ rank w) (fun u target holds cell' => ?_)
        (Nat.le_refl _)
      exact Nat.le_trans (Nat.le_of_lt (lower u target cell')) holds
    rw [ends.root_of_link cell]
    exact Nat.lt_of_le_of_lt below (lower u w cell)

theorem LinksEnd.root_shorten (ends : subst.LinksEnd) (cell : subst.cell v = .link w) (u : TyVar) :
    (subst.write v (.link (subst.root v))).root u = subst.root u := by
  have ends' := ends.shorten cell
  have kept : ∀ u, u ≠ v → (subst.write v (.link (subst.root v))).cell u = subst.cell u :=
    fun u different => cell_write_of_ne different _
  have own : (subst.write v (.link (subst.root v))).cell v = .link (subst.root v) :=
    cell_write_self (inside_of_cell cell (by simp)) _
  have atEnd : ∀ u, (∀ target, subst.cell u ≠ .link target) →
      (subst.write v (.link (subst.root v))).root u = u := by
    intro u notLink
    have different : u ≠ v := fun same => notLink w (same ▸ cell)
    exact root_of_not_link fun target => by rw [kept u different]; exact notLink target
  induction u using ends.linkInduction with
  | unlinked u notLink => rw [atEnd u notLink, root_of_not_link notLink]
  | linked u target cell' ih =>
    by_cases same : u = v
    · subst same
      rw [ends'.root_of_link own, atEnd _ (ends.cell_root_ne u)]
    · rw [ends'.root_of_link ((kept u same).trans cell'), ih, ends.root_of_link cell']

end Root

section Writes

theorem LinksEnd.overwrite (ends : subst.LinksEnd) {cell : Cell}
    (allowed : subst.Overwrites v (subst.cell v) cell) : (subst.write v cell).LinksEnd := by
  generalize old : subst.cell v = previous at allowed
  cases allowed with
  | link different isRoot =>
    have own : subst.root v = v := root_of_not_link (by simp [old])
    exact ends.link own isRoot different.symm
  | bind ty => exact ends.bind v ty
  | shorten w => exact ends.shorten old

namespace Writes

theorem linksEnd (writes : before.Writes log after) (ends : before.LinksEnd) : after.LinksEnd := by
  induction writes with
  | start => exact ends
  | alloc _ isNew ih => exact ih.push isNew
  | snapshot _ ih => exact ih
  | write _ allowed ih => exact ih.overwrite allowed

theorem trans (first : before.Writes log subst) (second : subst.Writes log' after) :
    before.Writes (log' ++ log) after := by
  induction second with
  | start => exact first
  | alloc _ isNew ih => exact .alloc ih isNew
  | snapshot _ ih => exact .snapshot ih
  | write _ allowed ih => exact .write ih allowed

theorem size_le (writes : before.Writes log after) : before.size ≤ after.size := by
  induction writes with
  | start => exact Nat.le_refl _
  | alloc _ _ ih => exact Nat.le_trans ih (by simp)
  | snapshot _ ih => exact ih
  | write _ _ ih => simpa using ih

theorem journal (writes : before.Writes log after) (opened : before.opened ≠ 0) :
    after.opened ≠ 0 ∧ after.journal = log ++ before.journal := by
  induction writes with
  | start => exact ⟨opened, rfl⟩
  | alloc _ _ ih => exact ih
  | snapshot _ ih => exact ⟨Nat.succ_ne_zero _, ih.2⟩
  | write _ _ ih =>
    refine ⟨ih.1, ?_⟩
    rw [Subst.write, if_neg ih.1, ih.2]
    rfl

theorem evolves (writes : before.Writes log after) (ends : before.LinksEnd)
    (inside : v.index < before.size) : Evolves v (before.cell v) (after.cell v) := by
  induction writes with
  | start => exact .same _
  | alloc earlier _ ih =>
    rw [Local.cell_push_of_inside (Nat.lt_of_lt_of_le inside earlier.size_le)]
    exact ih
  | snapshot _ ih => exact ih
  | @write log subst earlier x cell allowed ih =>
    rcases subst.cell_write_cases x v cell with kept | ⟨rfl, written⟩
    · rwa [kept]
    · rw [written]
      refine ih.trans ?_
      generalize old : subst.cell v = previous at allowed
      cases allowed with
      | link different _ => exact .link different
      | bind ty => exact .bind ty
      | shorten w => exact .shorten w ((earlier.linksEnd ends).root_ne_of_link old)

theorem written (writes : before.Writes log after) (inside : v.index < before.size) {old : Cell}
    (member : (v, old) ∈ log) : after.cell v ≠ .unbound := by
  induction writes with
  | start => simp at member
  | alloc earlier _ ih =>
    rw [Local.cell_push_of_inside (Nat.lt_of_lt_of_le inside earlier.size_le)]
    exact ih member
  | snapshot _ ih => exact ih member
  | @write log subst earlier x cell allowed ih =>
    by_cases same : v = x
    · subst same
      rw [cell_write_self (Nat.lt_of_lt_of_le inside earlier.size_le)]
      intro unbound
      subst unbound
      generalize subst.cell v = previous at allowed
      cases allowed
    · rw [cell_write_of_ne same]
      refine ih ((List.mem_cons.mp member).resolve_left fun head => same ?_)
      exact (Prod.mk.inj head).1

theorem once (writes : before.Writes log after) (inside : v.index < before.size) :
    log.count (v, .unbound) ≤ 1 := by
  induction writes with
  | start => simp
  | alloc _ _ ih | snapshot _ ih => exact ih
  | @write log subst earlier x cell allowed ih =>
    by_cases head : (x, subst.cell x) = (v, .unbound)
    · obtain ⟨rfl, unbound⟩ := Prod.mk.inj head
      have absent : (x, Cell.unbound) ∉ log := fun member => earlier.written inside member unbound
      rw [head, List.count_cons_self, List.count_eq_zero_of_not_mem absent]
    · rw [List.count_cons_of_ne head]
      exact ih

end Writes

end Writes

section Calls

inductive Call (admitted : Subst → Ty → Prop) (subst : Subst) : Subst → Prop where
  | fresh : Call admitted subst subst.fresh.2
  | freshRigid (name : Name) : Call admitted subst (subst.freshRigid name).2
  | freshSkolem : Call admitted subst subst.freshSkolem.2
  | snapshot : Call admitted subst subst.snapshot.2
  | find (v : TyVar) : Call admitted subst (subst.find v).2
  | unify {left right : Ty} {after : Subst} (first : admitted subst left)
      (second : admitted subst right) (result : Subst.unify left right subst = .ok () after ∨
      ∃ error, Subst.unify left right subst = .error error after) : Call admitted subst after

abbrev Calls (admitted : Subst → Ty → Prop) : Subst → Subst → Prop :=
  Relation.ReflTransGen (Call admitted)

def anyType : Subst → Ty → Prop := fun _ _ => True

variable {admitted : Subst → Ty → Prop}

theorem LinksEnd.cell_of_root (ends : subst.LinksEnd) (isRoot : subst.root x = x)
    (notBound : ∀ ty, subst.cell x ≠ .bound ty) (flexible : subst.isRigid x = false) :
    subst.cell x = .unbound := by
  have notLink := ends.cell_root_ne x
  rw [isRoot] at notLink
  rw [isRigid, rootCell, isRoot] at flexible
  cases cell : subst.cell x with
  | unbound => rfl
  | rigid name => simp [cell] at flexible
  | link w => exact absurd cell (notLink w)
  | bound ty => exact absurd cell (notBound ty)

theorem writes_pushMany {cell : Cell} (isNew : cell.IsNew) (count : Nat) :
    subst.Writes [] (subst.pushMany cell count).2 := by
  induction count generalizing subst with
  | zero => exact .start
  | succ count ih => exact (Writes.alloc .start isNew).trans ih

theorem writes_moves (ends : subst.LinksEnd) {depth : Nat} {pair : Ty × Ty} {left right : Ty}
    {below : List (Ty × Ty)} (shallow : subst.shallowWithin depth pair.1 = some left)
    (shallow' : subst.shallowWithin depth pair.2 = some right)
    (moves : Moves depth subst left right below after) : ∃ log, subst.Writes log after := by
  have unbound : ∀ {ty : Ty} {x : TyVar}, subst.shallowWithin depth ty = some (.var x) →
      subst.isRigid x = false → subst.cell x = .unbound := by
    intro ty x walk flexible
    obtain ⟨isRoot, notBound⟩ := ends.shallowWithin_var walk
    exact ends.cell_of_root isRoot notBound flexible
  cases moves with
  | same | arrow | tuple | nominal | app => exact ⟨_, .start⟩
  | link different flexible =>
    refine ⟨_, .write .start ?_⟩
    rw [unbound shallow flexible]
    exact .link different.symm (ends.shallowWithin_var shallow').1
  | linkBack different _ flexible =>
    refine ⟨_, .write .start ?_⟩
    rw [unbound shallow' flexible]
    exact .link different (ends.shallowWithin_var shallow).1
  | bind _ flexible =>
    refine ⟨_, .write .start ?_⟩
    rw [unbound shallow flexible]
    exact .bind _
  | bindBack _ flexible =>
    refine ⟨_, .write .start ?_⟩
    rw [unbound shallow' flexible]
    exact .bind _
  | quantified length opened =>
    obtain rfl := (Prod.mk.inj opened).2
    exact ⟨_, writes_pushMany (Cell.isNew_rigid none) _⟩
  | abstract shape | abstractBack shape =>
    obtain ⟨_, _, _, _, rfl, -, -⟩ := shape.shape
    exact ⟨_, writes_pushMany (Cell.isNew_rigid none) _⟩

theorem keeps_writes (ends : before.LinksEnd) (left right : Ty) :
    Keeps (fun subst => ∃ log, before.Writes log subst) anything (Subst.unify left right) := by
  have stepped : ∀ depth pair, Keeps (fun subst => ∃ log, before.Writes log subst) anything
      (step depth pair) := by
    rintro depth pair subst ⟨log, writes⟩
    have ends' := writes.linksEnd ends
    cases result : step depth pair subst with
    | ok below after =>
      obtain ⟨left, right, shallow, shallow', moves⟩ := step_eq_ok result
      obtain ⟨log', writes'⟩ := writes_moves ends' shallow shallow' moves
      exact ⟨⟨_, writes.trans writes'⟩, trivial⟩
    | error error after =>
      obtain ⟨made, rfl⟩ := step_eq_error result
      exact ⟨_, writes.trans (writes_pushMany (Cell.isNew_rigid none) made)⟩
  exact Keeps.get.bind fun _ => Keeps.walk (.throw _) stepped _

theorem writes_compressWithin (ends : subst.LinksEnd) (steps : Nat) (v : TyVar) :
    (∃ log, subst.Writes log (compressWithin (subst.root v) steps v subst)) ∧
      ∀ u, (compressWithin (subst.root v) steps v subst).root u = subst.root u := by
  induction steps generalizing subst v with
  | zero => exact ⟨⟨_, .start⟩, fun _ => rfl⟩
  | succ steps ih =>
    rw [compressWithin]
    split
    · rename_i target cell
      by_cases direct : target = subst.root v
      · rw [if_pos direct, ends.root_of_link cell]
        exact ih ends target
      · rw [if_neg direct]
        have root := ends.root_shorten cell
        have target' : subst.root v = (subst.write v (.link (subst.root v))).root target := by
          rw [root, ends.root_of_link cell]
        obtain ⟨⟨log, writes⟩, roots⟩ := ih (ends.shorten cell) target
        have writes' : subst.Writes _ _ := .write .start (cell ▸ Overwrites.shorten target)
        rw [← target'] at writes roots
        exact ⟨⟨_, writes'.trans writes⟩, fun u => (roots u).trans (root u)⟩
    · exact ⟨⟨_, .start⟩, fun _ => rfl⟩

theorem LinksEnd.root_find (ends : subst.LinksEnd) (v u : TyVar) :
    (subst.find v).2.root u = subst.root u :=
  (writes_compressWithin ends subst.size v).2 u

/-- What holds while links are pointed at their roots holds after the search for a root. -/
theorem LinksEnd.find_induction {holds : Subst → Prop} (ends : subst.LinksEnd) (start : holds subst)
    (shorten : ∀ {subst : Subst} {v w : TyVar}, subst.LinksEnd → subst.cell v = .link w →
      holds subst →
      holds (subst.write v (.link (subst.root v)))) (v : TyVar) : holds (subst.find v).2 := by
  have within : ∀ steps {subst : Subst} (v : TyVar), subst.LinksEnd → holds subst →
      holds (Subst.compressWithin (subst.root v) steps v subst) := by
    intro steps
    induction steps with
    | zero => exact fun _ _ start => start
    | succ steps ih =>
      intro subst v ends start
      rw [Subst.compressWithin]
      split
      · rename_i target cell
        by_cases direct : target = subst.root v
        · rw [if_pos direct, ends.root_of_link cell]
          exact ih target ends start
        · rw [if_neg direct]
          have kept := ih target (ends.shorten cell) (shorten ends cell start)
          rwa [ends.root_shorten cell, ← ends.root_of_link cell] at kept
      · exact start
  exact within _ v ends start

/-- Pointing a link at its root brings in no cycle: what is used afterwards was used before, perhaps
through other links. -/
theorem LinksEnd.acyclic_shorten (ends : subst.LinksEnd)
    (acyclic : WellFounded fun w v => subst.Uses v w) (cell : subst.cell v = .link w) :
    WellFounded fun target u => (subst.write v (.link (subst.root v))).Uses u target := by
  have linksBelow : ∀ u, Relation.ReflTransGen subst.Uses u (subst.root u) := by
    intro u
    induction u using ends.linkInduction with
    | unlinked u notLink => rw [root_of_not_link notLink]
    | linked u target cell' ih =>
      rw [ends.root_of_link cell']
      exact .head (uses_of_link cell') ih
  refine Subrelation.wf (fun {target u} uses => ?_) acyclic.transGen
  refine Relation.transGen_swap.mpr ?_
  by_cases same : u = v
  · subst same
    rw [Uses, cell_write_self (inside_of_cell cell (by simp))] at uses
    rw [uses, ends.root_of_link cell]
    exact Relation.TransGen.head' (uses_of_link cell) (linksBelow w)
  · rw [Uses, cell_write_of_ne same] at uses
    exact .single uses

theorem Call.writes (call : subst.Call admitted after) (ends : subst.LinksEnd) :
    ∃ log, subst.Writes log after := by
  cases call with
  | fresh => exact ⟨_, .alloc .start Cell.isNew_unbound⟩
  | freshRigid name => exact ⟨_, .alloc .start (Cell.isNew_rigid _)⟩
  | freshSkolem => exact ⟨_, .alloc .start (Cell.isNew_rigid _)⟩
  | snapshot => exact ⟨_, .snapshot .start⟩
  | find v => exact (writes_compressWithin ends subst.size v).1
  | unify _ _ result =>
    rename_i left right _ _
    have kept := keeps_writes ends left right subst ⟨_, .start⟩
    rcases result with result | ⟨error, result⟩
    · rw [result] at kept
      exact kept.1
    · rw [result] at kept
      exact kept

theorem Calls.writes (calls : Calls admitted before after) (ends : before.LinksEnd) :
    ∃ log, before.Writes log after := by
  induction calls with
  | refl => exact ⟨_, .start⟩
  | tail _ call ih =>
    obtain ⟨log, writes⟩ := ih
    obtain ⟨log', writes'⟩ := call.writes (writes.linksEnd ends)
    exact ⟨_, writes.trans writes'⟩

end Calls

section FirstOrder

theorem Tame.linksEnd (tame : subst.Tame) : subst.LinksEnd :=
  ⟨subst.rank, fun _ _ cell => tame.rank_lt (uses_of_link cell)⟩

theorem Tame.shorten (tame : subst.Tame) (cell : subst.cell v = .link w) :
    (subst.write v (.link (subst.root v))).Tame := by
  have own : (subst.write v (.link (subst.root v))).cell v = .link (subst.root v) :=
    cell_write_self (inside_of_cell cell (by simp)) _
  refine ⟨fun {u target} linked => ?_, fun {u ty} solved => ?_,
    tame.linksEnd.acyclic_shorten tame.acyclic cell⟩
  · rw [size_write]
    by_cases same : u = v
    · subst same
      obtain rfl := Cell.link.inj (own.symm.trans linked)
      exact tame.root_inside (inside_of_cell cell (by simp))
    · exact tame.linked ((cell_write_of_ne same _).symm.trans linked)
  · rw [size_write]
    have different : u ≠ v := fun same => by simp [same, own] at solved
    exact tame.solved ((cell_write_of_ne different _).symm.trans solved)

theorem Tame.find (tame : subst.Tame) (v : TyVar) : (subst.find v).2.Tame :=
  tame.linksEnd.find_induction tame (fun _ cell holds => holds.shorten cell) v

/-- Types without functions on types, over the variables there are. -/
def firstOrder (subst : Subst) (ty : Ty) : Prop := ty.FirstOrder subst.size

theorem Call.tame (call : subst.Call firstOrder after) (tame : subst.Tame) : after.Tame := by
  cases call with
  | fresh => exact tame.push (.inl rfl)
  | freshRigid name => exact tame.push (.inr ⟨_, rfl⟩)
  | freshSkolem => exact tame.push (.inr ⟨_, rfl⟩)
  | snapshot => exact ⟨tame.linked, tame.solved, tame.acyclic⟩
  | find v => exact tame.find v
  | unify first second result =>
    have outcome := tame.outcome_unify first second
    rcases result with result | ⟨error, result⟩
    · rw [result] at outcome
      exact outcome.1.tame
    · rw [result] at outcome
      exact outcome.1.1

theorem Calls.tame (calls : Calls firstOrder before after) (tame : before.Tame) : after.Tame := by
  induction calls with
  | refl => exact tame
  | tail _ call ih => exact call.tame ih

theorem Tame.walks_end (tame : subst.Tame) {ty : Ty} (plain : ty.FirstOrder subst.size)
    (x : TyVar) : subst.zonkWithin (subst.depthBound ty.size) ty ≠ none ∧
      subst.occursWithin x (subst.depthBound ty.size) ty ≠ none := by
  have enough := subst.height_bound_lt_depthBound ty.size
  have height := tame.height_zonk_le subst.solutionsWithin_mass plain
  rw [tame.zonkWithin_eq plain _ enough,
    tame.occursWithin_eq x plain (Nat.lt_of_le_of_lt height enough)]
  exact ⟨by simp, by simp⟩

end FirstOrder

theorem wellFounded_of_linksEnd (ends : subst.LinksEnd) :
    WellFounded fun w v => subst.cell v = .link w := by
  obtain ⟨rank, lower⟩ := ends
  exact Subrelation.wf (fun {w v} cell => lower v w cell) (measure rank).wf

/-- Every sequence of calls on any types writes an unbound cell once at most, to a link or a
solution, leaves rigid and solved cells alone and points links at their roots only, so that links
always end; a search for a root changes no root. The writes are those in the journal, where one is
kept. If all types are first-order, no variable is part of its own solution either, and walks over
types end. -/
theorem cells_assigned_once (calls : Calls anyType empty before) :
    (∀ after, Calls anyType before after →
      ∃ log, before.Writes log after ∧
        (before.opened ≠ 0 → after.journal = log ++ before.journal) ∧
        ∀ v, v.index < before.size →
          log.count (v, .unbound) ≤ 1 ∧ Evolves v (before.cell v) (after.cell v)) ∧
      (WellFounded fun w v => before.cell v = .link w) ∧
      (∀ v w, before.cell (before.root v) ≠ .link w) ∧
      (∀ x v, (before.find x).2.root v = before.root v) ∧
      (Calls firstOrder empty before →
        (∀ v, ¬ Relation.TransGen before.Uses v v) ∧
        ∀ ty : Ty, ty.FirstOrder before.size → ∀ x,
          before.zonkWithin (before.depthBound ty.size) ty ≠ none ∧
            before.occursWithin x (before.depthBound ty.size) ty ≠ none) := by
  obtain ⟨_, earlier⟩ := calls.writes linksEnd_empty
  have ends := earlier.linksEnd linksEnd_empty
  refine ⟨fun after later => ?_, wellFounded_of_linksEnd ends, ends.cell_root_ne, ends.root_find,
    fun plain => ?_⟩
  · obtain ⟨log, writes⟩ := later.writes ends
    exact ⟨log, writes, fun opened => (writes.journal opened).2,
      fun v inside => ⟨writes.once inside, writes.evolves ends inside⟩⟩
  · have tame := plain.tame tame_empty
    exact ⟨tame.not_transGen_self, fun ty plainTy x => tame.walks_end plainTy x⟩

/-- Of three variables two are linked to the next one; the search for the first one points it at the
last. -/
theorem find_after_links :
    ∃ before, Calls firstOrder empty before ∧ before.cell ⟨0⟩ = .link ⟨1⟩ ∧
      (before.find ⟨0⟩).2.cell ⟨0⟩ = .link ⟨2⟩ ∧
      (∃ log, before.Writes log (before.find ⟨0⟩).2 ∧ log.count (⟨0⟩, .unbound) ≤ 1) ∧
      before.zonkWithin (before.depthBound 1) (.var ⟨0⟩) ≠ none := by
  let three := empty.fresh.2.fresh.2.fresh.2
  have shown : gives (fun _ middle => decide (middle.size = 3) && gives (fun _ after => decide
      (after.cell ⟨0⟩ = .link ⟨1⟩ ∧ (after.find ⟨0⟩).2.cell ⟨0⟩ = .link ⟨2⟩ ∧ after.size = 3))
      (Subst.unify (.var ⟨1⟩) (.var ⟨2⟩) middle)) (Subst.unify (.var ⟨0⟩) (.var ⟨1⟩) three) =
        true := by
    cbv
  obtain ⟨_, middle, run, shown⟩ := exists_of_gives shown
  obtain ⟨size, shown⟩ := (Bool.and_eq_true _ _).mp shown
  obtain ⟨_, before, run', shown⟩ := exists_of_gives shown
  obtain ⟨linked, pointed, size'⟩ := of_decide_eq_true shown
  have size := of_decide_eq_true size
  have calls : ∀ {admitted : Subst → Ty → Prop},
    (∀ {subst : Subst} {v : TyVar}, subst.size = 3 → v.index < 3 →
      admitted subst (.var v)) → Calls admitted empty before := fun admits =>
    .tail (.tail (.tail (.tail (.tail .refl .fresh) .fresh) .fresh)
      (.unify (admits rfl (by decide)) (admits rfl (by decide)) (.inl run)))
      (.unify (admits size (by decide)) (admits size (by decide)) (.inl run'))
  have plain : Calls firstOrder empty before :=
    calls fun {subst v} same inside => .var (same.symm ▸ inside)
  obtain ⟨writes, -, -, -, walks⟩ := cells_assigned_once (calls fun _ _ => trivial)
  obtain ⟨log, written, -, each⟩ := writes _ (.single (.find ⟨0⟩))
  exact ⟨before, plain, linked, pointed, ⟨log, written, (each ⟨0⟩ (size' ▸ by decide)).1⟩,
    ((walks plain).2 (.var ⟨0⟩) (.var (size' ▸ by decide)) ⟨0⟩).1⟩

end PolyCheck.Subst
