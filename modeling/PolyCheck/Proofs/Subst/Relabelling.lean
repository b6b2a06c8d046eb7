import PolyCheck.Proofs.Subst.Zonks
import PolyCheck.Proofs.Ty.Relabelling

/-! Cells under other numbers of their variables. Walks over types and unification ask which
variables are the same and what their cells hold, and nothing else of their numbers; so on
relabelled cells they take the same steps. They may take more of them before they are stopped, since
how far they may go depends on how many cells there are. -/
namespace PolyCheck

open Run

namespace Run

variable {ε σ α α' β β' : Type}

/-- Two runs come to the same end, with corresponding results in related states, or neither has a
result. Nothing is said when one of them is stopped. -/
inductive Matched (stops : ε → Prop) (related : σ → σ → Prop) (image : α → α') :
    EStateM.Result ε σ α → EStateM.Result ε σ α' → Prop where
  | ok {value : α} {state state' : σ} (here : related state state') :
    Matched stops related image (.ok value state) (.ok (image value) state')
  | failed {error error' : ε} {state state' : σ} : Matched stops related image (.error error state)
      (.error error' state')
  | stopped {error : ε} {value : α'} {state state' : σ} (stop : stops error) :
    Matched stops related image (.error error state) (.ok value state')
  | stopped' {error : ε} {value : α} {state state' : σ} (stop : stops error) :
    Matched stops related image (.ok value state) (.error error state')

variable {stops : ε → Prop} {related : σ → σ → Prop} {image : α → α'} {image' : β → β'}
  {run : EStateM ε σ α}
  {run' : EStateM ε σ α'} {next : α → EStateM ε σ β} {next' : α' → EStateM ε σ β'}
    {state state' : σ}

theorem Matched.of_stopped {error : ε} (stop : stops error) (result : EStateM.Result ε σ α') :
    Matched stops related image (.error error state) result := by
  cases result with
  | ok _ _ => exact .stopped stop
  | error _ _ => exact .failed

theorem Matched.of_stopped' {error : ε} (stop : stops error) (result : EStateM.Result ε σ α) :
    Matched stops related image result (.error error state') := by
  cases result with
  | ok _ _ => exact .stopped' stop
  | error _ _ => exact .failed

theorem Matched.ok_inv {value : α} {value' : α'}
    (matched : Matched stops related image (.ok value state) (.ok value' state')) :
    value' = image value ∧ related state state' := by
  cases matched with
  | ok here => exact ⟨rfl, here⟩

theorem Matched.bind_ran (first : Matched stops related image (run state) (run' state'))
    (rest : ∀ {value middle middle'}, run state = .ok value middle →
      run' state' = .ok (image value) middle' →
      related middle middle' → Matched stops related image' (next value middle)
      (next' (image value) middle')) :
    Matched stops related image' ((run >>= next) state) ((run' >>= next') state') := by
  rw [bind_apply, bind_apply]
  cases found : run state with
  | ok value middle =>
    cases found' : run' state' with
    | ok value' middle' =>
      rw [found, found'] at first
      cases first with
      | ok here => exact rest found found' here
    | error error' middle' =>
      rw [found, found'] at first
      cases first with
      | stopped' stop => exact .of_stopped' stop _
  | error error middle =>
    cases found' : run' state' with
    | ok value' middle' =>
      rw [found, found'] at first
      cases first with
      | stopped stop => exact .of_stopped stop _
    | error error' middle' => exact .failed

theorem Matched.bind (first : Matched stops related image (run state) (run' state'))
    (rest : ∀ {value middle middle'}, related middle middle' →
      Matched stops related image' (next value middle) (next' (image value) middle')) :
    Matched stops related image' ((run >>= next) state) ((run' >>= next') state') :=
  first.bind_ran fun _ _ => rest

theorem Matched.forM {items : List α} {visit : α → EStateM ε σ PUnit}
    {visit' : α' → EStateM ε σ PUnit}
    (each : ∀ item ∈ items, ∀ {middle middle'}, related middle middle' →
      Matched stops related id (visit item middle) (visit' (image item) middle'))
      (here : related state state') :
    Matched stops related id (forM items visit state) (forM (items.map image) visit' state') := by
  induction items generalizing state state' with
  | nil => exact .ok here
  | cons item items ih =>
    rw [List.map_cons, List.forM_cons, List.forM_cons]
    exact (each item List.mem_cons_self here).bind fun there =>
      ih (fun other member => each other (List.mem_cons_of_mem item member)) there

end Run

def Cell.relabel (label : TyVar → TyVar) : Cell → Cell
  | .unbound => .unbound
  | .rigid name => .rigid name
  | .link target => .link (label target)
  | .bound ty => .bound (ty.relabel label)

namespace Subst

/-- The cells of some variables of the second substitution are those of the first one, under other
numbers. -/
structure Corresponds (label : TyVar → TyVar) (subst subst' : Subst) : Prop where
  injective : Function.Injective label
  cells : ∀ v, subst'.cell (label v) = (subst.cell v).relabel label
  ends : subst.LinksEnd
  ends' : subst'.LinksEnd

/-- The second cells are the first ones under other numbers. Among them there may be more cells,
which no variable of the first has and which are unbound; new variables get corresponding
numbers. -/
structure Relabelled (label : TyVar → TyVar) (subst subst' : Subst) : Prop extends
    Corresponds label subst subst' where
  others : ∀ v, (∀ w, label w ≠ v) → subst'.cell v = .unbound
  new : ∀ count, label ⟨subst.size + count⟩ = ⟨subst'.size + count⟩

variable {label : TyVar → TyVar} {subst subst' : Subst} {ty ty' head result head' result' : Ty}
  {v x y : TyVar} {depth depth' : Nat}

/-- What has been noted, under other numbers. -/
def Gathered.relabel (label : TyVar → TyVar) (gathered : Gathered) : Gathered :=
  ⟨gathered.leaves.map label, gathered.binders.map label⟩

namespace Corresponds

variable (here : subst.Corresponds label subst')
include here

section Walks

theorem root (v : TyVar) : subst'.root (label v) = label (subst.root v) := by
  induction v using here.ends.linkInduction with
  | unlinked v unlinked =>
    rw [root_of_not_link unlinked, root_of_not_link fun w => ?_]
    rw [here.cells]
    cases cell : subst.cell v with
    | link target => exact absurd cell (unlinked target)
    | unbound | rigid | bound => exact nofun
  | linked v w cell ih =>
    have cell' : subst'.cell (label v) = .link (label w) := by rw [here.cells, cell, Cell.relabel]
    rw [here.ends.root_of_link cell, here.ends'.root_of_link cell', ih]

theorem rootCell (v : TyVar) : subst'.rootCell (label v) = (subst.rootCell v).relabel label := by
  rw [Subst.rootCell, Subst.rootCell, here.root, here.cells]

theorem isRigid (v : TyVar) : subst'.isRigid (label v) = subst.isRigid v := by
  rw [Subst.isRigid, Subst.isRigid, here.rootCell]
  cases subst.rootCell v <;> rfl

theorem rigidName? (v : TyVar) : subst'.rigidName? (label v) = subst.rigidName? v := by
  rw [Subst.rigidName?, Subst.rigidName?, here.rootCell]
  cases subst.rootCell v <;> rfl

theorem shallowWithin_relabel (depth : Nat) (ty : Ty) :
    subst'.shallowWithin depth (ty.relabel label) = (subst.shallowWithin depth ty).map
    (Ty.relabel label) := by
  induction depth generalizing ty with
  | zero => rfl
  | succ depth ih =>
    cases ty with
    | var v =>
      rw [Ty.relabel, Subst.shallowWithin, Subst.shallowWithin, here.rootCell, here.root]
      cases subst.rootCell v with
      | bound solved => exact ih solved
      | unbound | rigid | link => rfl
    | app function args =>
      rw [Ty.relabel, Subst.shallowWithin, Subst.shallowWithin, Ty.relabelAll_eq_map, ih]
      cases subst.shallowWithin depth function with
      | none => rfl
      | some found =>
        cases found with
        | quantified params body =>
          have reduct := ih ((Ty.quantified params body).apply args)
          rwa [Ty.relabel_apply here.injective] at reduct
        | app core first =>
          simp only [Option.map_some, Ty.relabel, Ty.relabelAll_eq_map, List.map_append]
        | var | arrow | tuple | nominal =>
          simp only [Option.map_some, Ty.relabel, Ty.relabelAll_eq_map]
    | arrow | tuple | nominal | quantified => rfl

theorem shallowWithin (walk : subst.shallowWithin depth ty = some head) :
    subst'.shallowWithin depth (ty.relabel label) = some (head.relabel label) := by
  rw [here.shallowWithin_relabel, walk, Option.map_some]

theorem zonkWithin (walk : subst.zonkWithin depth ty = some result) :
    subst'.zonkWithin depth (ty.relabel label) = some (result.relabel label) := by
  induction depth generalizing ty result with
  | zero => cases walk
  | succ depth ih =>
    obtain ⟨head, shallow, rebuilt⟩ := zonkWithin_eq_some_iff.mp walk
    have all : ∀ {types results : List Ty},
      List.Forall₂ (fun t r => subst.zonkWithin depth t = some r) types results →
        List.Forall₂ (fun t r => subst'.zonkWithin depth t = some r) (types.map (Ty.relabel label))
          (results.map (Ty.relabel label)) := fun each =>
      List.forall₂_map_left_iff.mpr (List.forall₂_map_right_iff.mpr (each.imp fun _ _ => ih))
    refine zonkWithin_eq_some_iff.mpr ⟨_, here.shallowWithin shallow, ?_⟩
    cases rebuilt with
    | var v => exact .var _
    | arrow fst snd => exact .arrow (ih fst) (ih snd)
    | tuple each =>
      simp only [Ty.relabel, Ty.relabelAll_eq_map]
      exact .tuple (all each)
    | nominal each =>
      simp only [Ty.relabel, Ty.relabelAll_eq_map]
      exact .nominal (all each)
    | quantified inside => exact .quantified (ih inside)
    | app fst each =>
      rw [Ty.relabel_apply here.injective]
      simp only [Ty.relabel, Ty.relabelAll_eq_map]
      exact .app (ih fst) (all each)

theorem shallow_eq (walk : subst.shallowWithin depth ty = some head)
    (walk' : subst'.shallowWithin depth' (ty.relabel label) = some head') :
      head' = head.relabel label := by
  have there := shallowWithin_mono (Nat.le_max_left depth depth') (here.shallowWithin walk)
  exact Option.some.inj
    ((shallowWithin_mono (Nat.le_max_right depth depth') walk').symm.trans there)

theorem zonk_eq (walk : subst.zonkWithin depth ty = some result)
    (walk' : subst'.zonkWithin depth' (ty.relabel label) = some result') :
      result' = result.relabel label := by
  have there := zonkWithin_mono (Nat.le_max_left depth depth') (here.zonkWithin walk)
  exact Option.some.inj ((zonkWithin_mono (Nat.le_max_right depth depth') walk').symm.trans there)

end Walks

section Searches

/-- Two searches that come to the same end if both come to one. -/
def SameEnd (outcome outcome' : Except SearchEnd PUnit) : Prop :=
  outcome = .error .unfinished ∨ outcome' = .error .unfinished ∨ outcome' = outcome

omit here in
theorem SameEnd.forM {types : List Ty} {visit visit' : Ty → Except SearchEnd PUnit}
    (each : ∀ t ∈ types, SameEnd (visit t) (visit' (t.relabel label))) :
    SameEnd (forM types visit) (forM (types.map (Ty.relabel label)) visit') := by
  induction types with
  | nil => exact .inr (.inr rfl)
  | cons t types ih =>
    obtain ⟨first, rest⟩ := List.forall_mem_cons.mp each
    rw [List.map_cons, List.forM_cons, List.forM_cons]
    rcases first with stopped | stopped | same
    · exact .inl (by rw [stopped]; rfl)
    · exact .inr (.inl (by rw [stopped]; rfl))
    · rw [same]
      cases visit t with
      | error _ => exact .inr (.inr rfl)
      | ok _ => exact ih rest

theorem seeks (x : TyVar) : SameEnd (Agenda.descend (.error .unfinished) (subst.seek x) depth ty)
    (Agenda.descend (.error .unfinished) (subst'.seek (label x)) depth' (ty.relabel label)) := by
  induction depth generalizing depth' ty with
  | zero => exact .inl rfl
  | succ depth ih =>
    cases depth' with
    | zero => exact .inr (.inl rfl)
    | succ depth' =>
      rw [Agenda.descend, Agenda.descend, seek, seek]
      cases walk : subst.shallowWithin (depth + 1) ty with
      | none => exact .inl rfl
      | some head =>
        cases walk' : subst'.shallowWithin (depth' + 1) (ty.relabel label) with
        | none => exact .inr (.inl rfl)
        | some head' =>
          obtain rfl := here.shallow_eq walk walk'
          have below := SameEnd.forM fun t (_ : t ∈ head.children.reverse) => @ih t depth'
          rw [List.map_reverse, ← Ty.children_relabel] at below
          cases head with
          | var v =>
            by_cases found : v = x
            · simp only [Ty.relabel, if_pos found, if_pos (congrArg label found)]
              exact .inr (.inr rfl)
            · simp only [Ty.relabel, if_neg found, if_neg (here.injective.ne found)]
              exact .inr (.inr rfl)
          | arrow | tuple | nominal | quantified | app => exact below

theorem occurs_eq {found found' : Bool} (search : subst.occursWithin x depth ty = some found)
    (search' : subst'.occursWithin (label x) depth' (ty.relabel label) = some found') :
      found' = found := by
  rw [occursWithin, Agenda.walk_singleton] at search search'
  have same : SameEnd (Agenda.descend (.error .unfinished) (subst.seek x) depth ty)
    (Agenda.descend (.error .unfinished) (subst'.seek (label x)) depth' (ty.relabel label)) :=
      here.seeks x
  rcases same with stopped | stopped | same
  · simp [stopped] at search
  · simp [stopped] at search'
  · rw [same] at search'
    exact Option.some.inj (search'.symm.trans search)

omit here in
theorem forM_ne_error {types : List Ty} {visit : Ty → Except SearchEnd PUnit} {error : SearchEnd}
    (each : ∀ t ∈ types, visit t ≠ .error error) : forM types visit ≠ .error error := by
  induction types with
  | nil => exact nofun
  | cons t types ih =>
    obtain ⟨first, rest⟩ := List.forall_mem_cons.mp each
    rw [List.forM_cons]
    cases visited : visit t with
    | error other =>
      rw [visited] at first
      exact first
    | ok _ => exact ih rest

theorem occursWithin_ne_true (unseen : ∀ w, label w ≠ x) (depth : Nat) (ty : Ty) :
    subst'.occursWithin x depth (ty.relabel label) ≠ some true := by
  have lost : Agenda.descend (.error .unfinished) (subst'.seek x) depth (ty.relabel label) ≠
      .error .found := by
    induction depth generalizing ty with
    | zero => exact fun same => by cases same
    | succ depth ih =>
      rw [Agenda.descend, seek, here.shallowWithin_relabel]
      cases subst.shallowWithin (depth + 1) ty with
      | none => exact fun same => by cases same
      | some head =>
        have below : ∀ t ∈ (head.relabel label).children.reverse,
            Agenda.descend (.error .unfinished) (subst'.seek x) depth t ≠ .error .found := by
          rw [Ty.children_relabel, ← List.map_reverse]
          exact List.forall_mem_map.mpr fun t _ => ih t
        cases head with
        | var v =>
          simp only [Option.map_some, Ty.relabel, if_neg (unseen v)]
          exact fun same => by cases same
        | arrow | tuple | nominal | quantified | app => exact forM_ne_error below
  rw [occursWithin, Agenda.walk_singleton]
  split
  · exact fun same => by cases same
  · rename_i found
    exact absurd found lost
  · exact fun same => by cases same

/-- Searches for free variables that come to an end have noted corresponding variables. -/
def Finding (label : TyVar → TyVar) (search search' : StateT Gathered Option PUnit) : Prop :=
  ∀ {gathered noted noted' : Gathered}, search gathered = some ((), noted) →
    search' (gathered.relabel label) = some ((), noted') → noted' = noted.relabel label

omit here in
theorem Finding.forM {types : List Ty} {visit visit' : Ty → StateT Gathered Option PUnit}
    (each : ∀ t ∈ types, Finding label (visit t) (visit' (t.relabel label))) :
    Finding label (forM types visit) (forM (types.map (Ty.relabel label)) visit') := by
  induction types with
  | nil =>
    intro gathered noted noted' found found'
    obtain ⟨-, rfl⟩ := Prod.mk.inj (Option.some.inj found)
    exact (Prod.mk.inj (Option.some.inj found')).2.symm
  | cons t types ih =>
    intro gathered noted noted' found found'
    obtain ⟨first, rest⟩ := List.forall_mem_cons.mp each
    rw [List.forM_cons] at found
    rw [List.map_cons, List.forM_cons] at found'
    obtain ⟨⟨⟨⟩, middle⟩, run, others⟩ := Option.bind_eq_some_iff.mp found
    obtain ⟨⟨⟨⟩, middle'⟩, run', others'⟩ := Option.bind_eq_some_iff.mp found'
    obtain rfl := first run run'
    exact ih rest others others'

theorem finding : Finding label (Agenda.descend (fun _ => none) subst.gather depth ty)
    (Agenda.descend (fun _ => none) subst'.gather depth' (ty.relabel label)) := by
  induction depth generalizing depth' ty with
  | zero => exact nofun
  | succ depth ih =>
    cases depth' with
    | zero => exact fun _ => nofun
    | succ depth' =>
      intro gathered noted noted' found found'
      rw [Agenda.descend] at found found'
      obtain ⟨⟨below, middle⟩, run, others⟩ := Option.bind_eq_some_iff.mp found
      obtain ⟨⟨below', middle'⟩, run', others'⟩ := Option.bind_eq_some_iff.mp found'
      suffices same : below' = below.map (Ty.relabel label) ∧ middle' = middle.relabel label by
        obtain ⟨rfl, rfl⟩ := same
        exact Finding.forM (fun t _ => ih) others others'
      rw [gather] at run run'
      cases walk : subst.shallowWithin (depth + 1) ty with
      | none => simp [walk] at run
      | some head =>
        cases walk' : subst'.shallowWithin (depth' + 1) (ty.relabel label) with
        | none => simp [walk'] at run'
        | some head' =>
          obtain rfl := here.shallow_eq walk walk'
          rw [walk] at run
          rw [walk'] at run'
          cases head with
          | var v =>
            obtain ⟨rfl, rfl⟩ := Prod.mk.inj (Option.some.inj run)
            obtain ⟨rfl, rfl⟩ := Prod.mk.inj (Option.some.inj run')
            refine ⟨rfl, ?_⟩
            simp only [Gathered.relabel, Gathered.mk.injEq, and_true]
            by_cases old : v ∈ gathered.leaves
            · rw [List.insert_of_mem old, List.insert_of_mem (List.mem_map_of_mem old)]
            · rw [List.insert_of_not_mem old, List.insert_of_not_mem, List.map_cons]
              rwa [List.mem_map_of_injective here.injective]
          | quantified params body =>
            obtain ⟨rfl, rfl⟩ := Prod.mk.inj (Option.some.inj run)
            obtain ⟨rfl, rfl⟩ := Prod.mk.inj (Option.some.inj run')
            refine ⟨rfl, ?_⟩
            simp only [Gathered.relabel, List.map_append, List.map_map, Gathered.mk.injEq, true_and]
            exact congrArg (· ++ _) (List.map_congr_left fun v _ => here.root v)
          | arrow | tuple | nominal | app =>
            obtain ⟨rfl, rfl⟩ := Prod.mk.inj (Option.some.inj run)
            obtain ⟨rfl, rfl⟩ := Prod.mk.inj (Option.some.inj run')
            exact ⟨Ty.children_relabel label _, rfl⟩

theorem freeVars_eq {free free' : List TyVar} (search : subst.freeVarsWithin depth ty = some free)
    (search' : subst'.freeVarsWithin depth' (ty.relabel label) = some free') :
      free' = free.map label := by
  rw [freeVarsWithin, Agenda.walk_singleton] at search search'
  cases run : Agenda.descend (fun _ => none) subst.gather depth ty ⟨[], []⟩ with
  | none => simp [run] at search
  | some found =>
    cases run' : Agenda.descend (fun _ => none) subst'.gather depth' (ty.relabel label)
      ⟨[], []⟩ with
    | none => simp [run'] at search'
    | some found' =>
      obtain ⟨⟨⟩, noted⟩ := found
      obtain ⟨⟨⟩, noted'⟩ := found'
      obtain rfl := here.finding run run'
      rw [run] at search
      rw [run'] at search'
      obtain rfl := Option.some.inj search
      obtain rfl := Option.some.inj search'
      rw [Gathered.relabel, ← List.map_reverse, List.filter_map]
      refine congrArg (List.map label) (List.filter_congr fun v _ => congrArg not ?_)
      simp [here.injective.eq_iff]

end Searches

end Corresponds

namespace Relabelled

variable (here : subst.Relabelled label subst')
include here

section Growth

theorem inside_iff (v : TyVar) : (label v).index < subst'.size ↔ v.index < subst.size := by
  constructor
  · intro inside
    by_contra outside
    have number := here.new (v.index - subst.size)
    rw [Nat.add_sub_cancel' (Nat.le_of_not_lt outside)] at number
    rw [show label v = _ from number] at inside
    exact absurd inside (Nat.not_lt_of_le (Nat.le_add_right _ _))
  · intro inside
    by_contra outside
    have number := here.new ((label v).index - subst'.size)
    rw [Nat.add_sub_cancel' (Nat.le_of_not_lt outside)] at number
    have same := congrArg TyVar.index (here.injective number)
    dsimp only at same
    omega

theorem push {cell cell' : Cell} (isNew : cell.IsNew) (same : cell' = cell.relabel label) :
    (subst.push cell).2.Relabelled label (subst'.push cell').2 ∧ (subst'.push cell').1 = label
    (subst.push cell).1 := by
  have first : label ⟨subst.size⟩ = ⟨subst'.size⟩ := here.new 0
  have isNew' : cell'.IsNew := by
    subst same
    cases cell <;> trivial
  refine ⟨⟨⟨here.injective, fun v => ?_, here.ends.push isNew, here.ends'.push isNew'⟩,
      fun v other => ?_, fun count => ?_⟩, first.symm⟩
  · rw [cell_push, cell_push]
    by_cases last : v.index = subst.size
    · obtain rfl : v = ⟨subst.size⟩ := congrArg TyVar.mk last
      rw [first, if_pos rfl, if_pos rfl, same]
    · rw [if_neg last, if_neg fun last' => last ?_, here.cells]
      exact congrArg TyVar.index (here.injective ((congrArg TyVar.mk last').trans first.symm))
  · rw [cell_push,
      if_neg fun last => other ⟨subst.size⟩ (first.trans (congrArg TyVar.mk last.symm)),
      here.others v other]
  · rw [size_push, size_push, Nat.add_assoc, Nat.add_assoc]
    exact here.new _

theorem pushMany {cell : Cell} (isNew : cell.IsNew) (same : cell.relabel label = cell)
    (count : Nat) : (subst.pushMany cell count).2.Relabelled label (subst'.pushMany cell count).2 ∧
      (subst'.pushMany cell count).1 = (subst.pushMany cell count).1.map label := by
  induction count generalizing subst subst' with
  | zero => exact ⟨here, rfl⟩
  | succ count ih =>
    obtain ⟨there, first⟩ := here.push isNew same.symm
    obtain ⟨there, rest⟩ := ih there
    exact ⟨there, List.cons_eq_cons.mpr ⟨first, rest⟩⟩

theorem write {cell : Cell} (ends : (subst.write x cell).LinksEnd)
    (ends' : (subst'.write (label x) (cell.relabel label)).LinksEnd) :
    (subst.write x cell).Relabelled label (subst'.write (label x) (cell.relabel label)) := by
  refine ⟨⟨here.injective, fun v => ?_, ends, ends'⟩, fun v other => ?_, fun count => ?_⟩
  · by_cases same : v = x
    · subst same
      by_cases inside : v.index < subst.size
      · rw [cell_write_self inside, cell_write_self ((here.inside_iff v).mpr inside)]
      · have outside : (subst.write v cell).size ≤ v.index := by simpa using Nat.le_of_not_lt inside
        have outside' : (subst'.write (label v) (cell.relabel label)).size ≤ (label v).index := by
          simpa using Nat.le_of_not_lt fun inside' => inside ((here.inside_iff v).mp inside')
        rw [cell_of_size_le outside, cell_of_size_le outside', Cell.relabel]
    · rw [cell_write_of_ne same, cell_write_of_ne (here.injective.ne same), here.cells]
  · rw [cell_write_of_ne fun same => other x same.symm, here.others v other]
  · rw [size_write, size_write]
    exact here.new count

theorem bind (x : TyVar) (ty : Ty) : (subst.bind x ty).Relabelled label
    (subst'.bind (label x) (ty.relabel label)) :=
  here.write (here.ends.bind x ty) (here.ends'.bind _ _)

theorem link (rootX : subst.root x = x) (rootY : subst.root y = y) (different : x ≠ y) :
    (subst.link x y).Relabelled label (subst'.link (label x) (label y)) :=
  here.write (here.ends.link rootX rootY different)
    (here.ends'.link (by rw [here.root, rootX]) (by rw [here.root, rootY])
      (here.injective.ne different))

end Growth

end Relabelled

end Subst

namespace Unify

open Subst

variable {label : TyVar → TyVar} {subst subst' : Subst} {α α' : Type} {image : α → α'}
  {x y : TyVar} {ty : Ty} {depth depth' : Nat}

/-- Runs of unification on relabelled cells match, unless one of them goes too deep. -/
abbrev Matched (label : TyVar → TyVar) (image : α → α') :
    EStateM.Result UnifyError Subst α → EStateM.Result UnifyError Subst α' → Prop :=
  Run.Matched (· = .exhausted) (Relabelled label) image

theorem matched_finished (here : subst.Relabelled label subst') {found : Option α}
    {found' : Option α'}
    (same : ∀ {value value'}, found = some value → found' = some value' → value' = image value) :
    Matched label image (finished found subst) (finished found' subst') := by
  cases found with
  | none =>
    cases found' with
    | none => exact .failed
    | some value' => exact .stopped rfl
  | some value =>
    cases found' with
    | none => exact .stopped' rfl
    | some value' =>
      obtain rfl := same rfl rfl
      exact .ok here

theorem matched_vars (here : subst.Relabelled label subst') (rootX : subst.root x = x)
    (rootY : subst.root y = y) :
    Matched label id (vars x y subst) (vars (label x) (label y) subst') := by
  simp only [vars, bind_apply, get_apply, here.isRigid, here.injective.eq_iff]
  by_cases same : x = y
  · rw [if_pos same, if_pos same]
    exact .ok here
  rw [if_neg same, if_neg same]
  cases subst.isRigid x with
  | false => exact .ok (here.link rootX rootY same)
  | true =>
    cases subst.isRigid y with
    | false => exact .ok (here.link rootY rootX (Ne.symm same))
    | true => exact .failed

theorem matched_varWith (here : subst.Relabelled label subst') (x : TyVar) (ty : Ty) :
    Matched label id (varWith depth x ty subst)
    (varWith depth' (label x) (ty.relabel label) subst') := by
  simp only [varWith, bind_apply, get_apply, here.isRigid]
  cases subst.isRigid x with
  | true => exact .failed
  | false =>
    have occurs : Matched label id (finished (subst.occursWithin x depth ty) subst)
        (finished (subst'.occursWithin (label x) depth' (ty.relabel label)) subst') :=
      matched_finished here fun search search' => here.occurs_eq search search'
    refine occurs.bind fun {found middle middle'} _ => ?_
    cases found with
    | true => exact .failed
    | false => exact .ok (here.bind x ty)

theorem components?_relabel (label : TyVar → TyVar) (ty : Ty) :
    (components? ty = none ∧ components? (ty.relabel label) = none) ∨
    ∃ parts build build', components? ty = some (parts, build) ∧
      components? (ty.relabel label) = some (parts.map (Ty.relabel label), build') ∧
      ∀ types : List Ty, build' (types.map (Ty.relabel label)) = (build types).relabel label := by
  cases ty with
  | var | quantified | app => exact .inl ⟨rfl, rfl⟩
  | arrow param result =>
    refine .inr ⟨_, _, _, rfl, rfl, fun types => ?_⟩
    match types with
    | [] | [_] | [_, _] | _ :: _ :: _ :: _ => rfl
  | tuple elems =>
    refine .inr ⟨elems, .tuple, .tuple, rfl, ?_, fun types => ?_⟩
    · rw [Ty.relabel, components?, Ty.relabelAll_eq_map]
    · rw [Ty.relabel, Ty.relabelAll_eq_map]
  | nominal template args =>
    refine .inr ⟨args, .nominal template, .nominal template, rfl, ?_, fun types => ?_⟩
    · rw [Ty.relabel, components?, Ty.relabelAll_eq_map]
    · rw [Ty.relabel, Ty.relabelAll_eq_map]

/-- A function on types and the parts that it takes, under other numbers. -/
def relabelSection (label : TyVar → TyVar) (found : Ty × List Ty) : Ty × List Ty :=
  (found.1.relabel label, found.2.map (Ty.relabel label))

theorem matched_etaExpand? (here : subst.Relabelled label subst') (ty : Ty) (count : Nat) :
    Matched label (Option.map (relabelSection label)) (etaExpand? ty count subst)
      (etaExpand? (ty.relabel label) count subst') := by
  unfold etaExpand?
  rcases components?_relabel label ty with ⟨absent, absent'⟩ | ⟨parts, build, build', known,
    known', rebuild⟩
  · rw [absent, absent']
    exact .ok here
  · rw [known, known']
    dsimp only
    rw [List.length_map]
    split
    · exact .ok here
    · obtain ⟨there, params⟩ := here.pushMany (Cell.isNew_rigid none) rfl count
      have image : some (relabelSection label (.quantified (subst.pushMany (.rigid none) count).1
          (build (parts.take (parts.length - count) ++
              (subst.pushMany (.rigid none) count).1.map .var)),
            parts.drop (parts.length - count))) =
          some (.quantified (subst'.pushMany (.rigid none) count).1
            (build' ((parts.map (Ty.relabel label)).take (parts.length - count) ++
              (subst'.pushMany (.rigid none) count).1.map .var)),
            (parts.map (Ty.relabel label)).drop (parts.length - count)) := by
        rw [relabelSection, Ty.relabel, ← rebuild, List.map_append, Ty.relabel_vars, params,
          List.map_take, List.map_drop]
      change Matched label _ (.ok _ _) (.ok _ _)
      rw [← image]
      exact .ok there

def relabelPair (label : TyVar → TyVar) : Ty × Ty → Ty × Ty :=
  Prod.map (Ty.relabel label) (Ty.relabel label)

theorem zip_relabel (label : TyVar → TyVar) (types types' : List Ty) :
    (types.zip types').map (relabelPair label) = (types.map (Ty.relabel label)).zip
    (types'.map (Ty.relabel label)) :=
  List.zip_map.symm

theorem putBack_relabel (label : TyVar → TyVar) (head : Ty) (args : List Ty) (count : Nat) :
    putBack (head.relabel label) (args.map (Ty.relabel label)) count = relabelSection label
    (putBack head args count) := by
  rw [putBack, putBack]
  split
  · rfl
  · rw [relabelSection, Ty.relabel, Ty.relabelAll_eq_map, List.map_take, List.map_drop]

theorem matched_paired {h k : Ty} {types types' : List Ty} (here : subst.Relabelled label subst') :
    Matched label (List.map (relabelPair label)) (.ok ((h, k) :: types.zip types') subst)
      (.ok ((h.relabel label, k.relabel label) ::
        (types.map (Ty.relabel label)).zip (types'.map (Ty.relabel label))) subst') := by
  rw [← zip_relabel]
  exact .ok here

/-- The comparison with an application goes on alike, whether the other type splits or not. -/
theorem matched_abstracts (here : subst.Relabelled label subst') (ty : Ty) {count count' : Nat}
    {next next' : Option (Ty × List Ty) → Unify (List (Ty × Ty))} (same : count' = count)
    (fails : ∀ {after after'}, Matched label (List.map (relabelPair label)) (next none after)
      (next' none after'))
    (goes : ∀ function parts {after after'}, after.Relabelled label after' →
      Matched label (List.map (relabelPair label)) (next (some (function, parts)) after)
        (next' (some (function.relabel label, parts.map (Ty.relabel label))) after')) :
    Matched label (List.map (relabelPair label)) ((etaExpand? ty count >>= next) subst)
      ((etaExpand? (ty.relabel label) count' >>= next') subst') := by
  subst same
  refine (matched_etaExpand? here ty _).bind fun {found _ _} there => ?_
  cases found with
  | none => exact fails
  | some found => exact goes found.1 found.2 there

/-- Two quantifiers are opened with the same skolems. -/
def openBoth (depth count : Nat) (ps qs : List TyVar) (b c : Ty) : Unify (List (Ty × Ty)) := do
  let rigid := (← skolems count).map Ty.var
  let subst ← get
  let b ← finished (subst.zonkWithin depth b)
  let c ← finished (subst.zonkWithin depth c)
  pure [(b.substitute (.ofLists ps rigid), c.substitute (.ofLists qs rigid))]

theorem matched_openBoth (here : subst.Relabelled label subst') (count : Nat) (ps qs : List TyVar)
    (b c : Ty) :
    Matched label (List.map (relabelPair label)) (openBoth depth count ps qs b c subst)
      (openBoth depth' count (ps.map label) (qs.map label) (b.relabel label) (c.relabel label)
        subst') := by
  obtain ⟨there, rigid⟩ := here.pushMany (Cell.isNew_rigid none) rfl count
  change Matched label _ ((finished _ >>= _) _) ((finished _ >>= _) _)
  have bodies : ∀ ty : Ty, Matched label (Ty.relabel label)
      (finished ((subst.pushMany (.rigid none) count).2.zonkWithin depth ty)
        (subst.pushMany (.rigid none) count).2)
      (finished ((subst'.pushMany (.rigid none) count).2.zonkWithin depth'
          (ty.relabel label)) (subst'.pushMany (.rigid none) count).2) :=
    fun ty => matched_finished there fun walk walk' => there.zonk_eq walk walk'
  refine (bodies b).bind_ran fun {left _ _} found found' _ => ?_
  obtain ⟨-, rfl⟩ := finished_eq_ok.mp found
  obtain ⟨-, rfl⟩ := finished_eq_ok.mp found'
  refine (bodies c).bind fun {right _ _} there => ?_
  have instanced : ∀ (vars : List TyVar) (ty : Ty),
      (ty.relabel label).substitute (.ofLists (vars.map label)
        ((subst'.pushMany (.rigid none) count).1.map Ty.var)) =
      (ty.substitute
        (.ofLists vars ((subst.pushMany (.rigid none) count).1.map Ty.var))).relabel label :=
    fun vars ty => by rw [Ty.relabel_instance here.injective, Ty.relabel_vars, rigid]
  rw [instanced, instanced]
  exact .ok there

theorem matched_step (here : subst.Relabelled label subst') (pair : Ty × Ty) :
    Matched label (List.map (relabelPair label)) (step depth pair subst)
    (step depth' (relabelPair label pair) subst') := by
  have heads : ∀ ty : Ty,
    Matched label (Ty.relabel label) (finished (subst.shallowWithin depth ty) subst)
      (finished (subst'.shallowWithin depth' (ty.relabel label)) subst') :=
    fun ty => matched_finished here fun walk walk' => here.shallow_eq walk walk'
  unfold step
  change Matched label _ ((finished _ >>= _) subst) ((finished _ >>= _) subst')
  refine (heads pair.1).bind_ran fun {left _ _} found found' _ => ?_
  obtain ⟨walk, rfl⟩ := finished_eq_ok.mp found
  obtain ⟨-, rfl⟩ := finished_eq_ok.mp found'
  refine (heads pair.2).bind_ran fun {right _ _} found found' _ => ?_
  obtain ⟨other, rfl⟩ := finished_eq_ok.mp found
  obtain ⟨-, rfl⟩ := finished_eq_ok.mp found'
  clear heads found found'
  have ends : ∀ {check check' : Unify Unit}, Matched label id (check subst) (check' subst') →
      Matched label (List.map (relabelPair label)) ((check >>= fun _ => pure []) subst)
        ((check' >>= fun _ => pure []) subst') := fun matched => matched.bind fun there => .ok there
  have zipped : ∀ {types types' : List Ty}, Matched label (List.map (relabelPair label))
      (.ok (types.zip types') subst)
        (.ok ((types.map (Ty.relabel label)).zip (types'.map (Ty.relabel label))) subst') := by
    intro types types'
    rw [← zip_relabel]
    exact .ok here
  have apps : ∀ (k : Ty) (bs : List Ty), (Ty.app k bs).relabel label = .app (k.relabel label)
      (bs.map (Ty.relabel label)) :=
    fun k bs => congrArg (Ty.app _) (Ty.relabelAll_eq_map label bs)
  cases left with
  | var x =>
    cases right with
    | var y =>
      exact ends (matched_vars here (here.ends.shallowWithin_var walk).1
        (here.ends.shallowWithin_var other).1)
    | arrow | tuple | nominal | quantified | app => exact ends (matched_varWith here x _)
  | arrow p r =>
    cases right with
    | var y => exact ends (matched_varWith here y _)
    | arrow q s => exact .ok here
    | app k bs =>
      rw [apps]
      exact matched_abstracts here _ (List.length_map _) .failed fun _ _ _ _ => matched_paired
    | tuple | nominal | quantified => exact .failed
  | tuple es =>
    cases right with
    | var y => exact ends (matched_varWith here y _)
    | tuple fs =>
      simp only [Ty.relabel, Ty.relabelAll_eq_map, List.length_map]
      split
      · exact zipped
      · exact .failed
    | app k bs =>
      rw [apps]
      exact matched_abstracts here _ (List.length_map _) .failed fun _ _ _ _ => matched_paired
    | arrow | nominal | quantified => exact .failed
  | nominal t as =>
    cases right with
    | var y => exact ends (matched_varWith here y _)
    | nominal u bs =>
      simp only [Ty.relabel, Ty.relabelAll_eq_map, List.length_map]
      split
      · exact zipped
      · exact .failed
    | app k bs =>
      rw [apps]
      exact matched_abstracts here _ (List.length_map _) .failed fun _ _ _ _ => matched_paired
    | arrow | tuple | quantified => exact .failed
  | quantified ps b =>
    cases right with
    | var y => exact ends (matched_varWith here y _)
    | quantified qs c =>
      simp only [Ty.relabel, List.length_map]
      split
      · exact matched_openBoth here ps.length ps qs b c
      · exact .failed
    | app k bs =>
      rw [apps]
      exact matched_abstracts here _ (List.length_map _) .failed fun _ _ _ _ => matched_paired
    | arrow | tuple | nominal => exact .failed
  | app h as =>
    rw [apps]
    cases right with
    | var y =>
      rw [← apps]
      exact ends (matched_varWith here y _)
    | app k bs =>
      rw [apps]
      dsimp only
      rw [splitApps_eq, splitApps_eq, List.length_map, List.length_map, putBack_relabel,
        putBack_relabel]
      exact matched_paired here
    | arrow | tuple | nominal | quantified =>
      exact matched_abstracts here _ (List.length_map _) .failed fun _ _ _ _ => matched_paired

theorem matched_descend (here : subst.Relabelled label subst') (pair : Ty × Ty) :
    Matched label id (Agenda.descend (throw .exhausted) step depth pair subst)
      (Agenda.descend (throw .exhausted) step depth' (relabelPair label pair) subst') := by
  induction depth generalizing depth' pair subst subst' with
  | zero => exact .of_stopped (by rfl) _
  | succ depth ih =>
    cases depth' with
    | zero => exact .of_stopped' (by rfl) _
    | succ depth' =>
      exact (matched_step here pair).bind fun there =>
        .forM (fun pair _ _ _ here => ih here pair) there

end Unify

theorem Subst.Relabelled.unify {label : TyVar → TyVar} {subst subst' : Subst}
    (here : subst.Relabelled label subst')
    (left right : Ty) : Unify.Matched label id (Subst.unify left right subst)
      (Subst.unify (left.relabel label) (right.relabel label) subst') := by
  change Unify.Matched label id (Unify.within _ _ _ subst) (Unify.within _ _ _ subst')
  rw [Unify.within, Unify.within, Agenda.walk_singleton, Agenda.walk_singleton]
  exact Unify.matched_descend here (left, right)

namespace Subst

variable {label : TyVar → TyVar} {subst subst' : Subst} {x : TyVar} {ty head : Ty}

/-- The second substitution with a variable of its own solved by a type that corresponds to one of
the first. -/
structure Answered (label : TyVar → TyVar) (subst : Subst) (x : TyVar) (ty : Ty)
    (after : Subst) : Prop where
  corresponds : subst.Corresponds label after
  zonks : ∀ result, after.Zonks (.var x) result ↔ after.Zonks (ty.relabel label) result

/-- Only its cell is written, so the others still correspond. -/
theorem Relabelled.answered (here : subst.Relabelled label subst') (unseen : ∀ w, label w ≠ x)
    {depth : Nat}
    {written : Cell} (ends : (subst'.write x written).LinksEnd)
    (shallow : subst.shallowWithin depth ty = some head)
    (zonks : ∀ result, (subst'.write x written).Zonks (.var x) result ↔
      (subst'.write x written).Zonks (head.relabel label) result) :
    subst.Answered label x ty (subst'.write x written) := by
  have there : subst.Corresponds label (subst'.write x written) :=
    ⟨here.injective, fun v => by rw [cell_write_of_ne (unseen v), here.cells], here.ends, ends⟩
  exact ⟨there,
    fun result => (zonks result).trans (ends.zonks_head ⟨_, there.shallowWithin shallow⟩).symm⟩

theorem Relabelled.step_unseen (here : subst.Relabelled label subst') (unseen : ∀ w, label w ≠ x)
    (depth : Nat)
    (ty : Ty) : Unify.step (depth + 1) (.var x, ty.relabel label) subst' =
      .error .exhausted subst' ∨
      ∃ after, Unify.step (depth + 1) (.var x, ty.relabel label) subst' = .ok [] after ∧
        subst.Answered label x ty after := by
  have cell := here.others x unseen
  have isNew : (subst'.cell x).IsNew := cell ▸ Cell.isNew_unbound
  have root : subst'.root x = x := root_of_isNew isNew
  have flexible : subst'.isRigid x = false := by rw [isRigid, rootCell, root, cell]
  have inside : x.index < subst'.size := by
    by_contra outside
    refine unseen ⟨subst.size + (x.index - subst'.size)⟩ ((here.new _).trans ?_)
    exact congrArg TyVar.mk (Nat.add_sub_of_le (Nat.le_of_not_lt outside))
  have self := shallowWithin_isNew isNew depth
  cases shallow : subst.shallowWithin (depth + 1) ty with
  | none =>
    refine .inl ?_
    simp only [Unify.step, bind_apply, get_apply, self, here.shallowWithin_relabel, shallow]
    rfl
  | some head =>
    by_cases isVar : ∃ y, head = .var y
    · obtain ⟨y, rfl⟩ := isVar
      have different : x ≠ label y := fun same => unseen y same.symm
      have rootY : subst'.root (label y) = label y := by
        rw [here.root, (here.ends.shallowWithin_var shallow).1]
      have ends := here.ends'.link root rootY different
      refine .inr ⟨subst'.link x (label y), ?_, here.answered unseen ends shallow fun result =>
        zonks_of_root ?_⟩
      · simp only [Unify.step, bind_apply, get_apply, self, here.shallowWithin_relabel, shallow]
        change (Unify.vars x (label y) >>= fun _ => pure []) subst' = _
        simp only [Unify.vars, bind_apply, get_apply, if_neg different, flexible]
        rfl
      · exact ends.root_of_link (cell_write_self inside _)
    · have run : Unify.step (depth + 1) (.var x, ty.relabel label) subst' =
          (Unify.varWith (depth + 1) x (head.relabel label) >>= fun _ => pure []) subst' := by
        simp only [Unify.step, bind_apply, get_apply, self, here.shallowWithin_relabel, shallow]
        cases head with
        | var y => exact absurd ⟨y, rfl⟩ isVar
        | arrow | tuple | nominal | quantified | app => rfl
      rw [run]
      simp only [Unify.varWith, bind_apply, get_apply, flexible, Bool.false_eq_true, if_false]
      cases search : subst'.occursWithin x (depth + 1) (head.relabel label) with
      | none => exact .inl rfl
      | some found =>
        cases found with
        | true => exact absurd search (here.occursWithin_ne_true unseen _ _)
        | false =>
          refine .inr ⟨subst'.bind x (head.relabel label), rfl,
            here.answered unseen (here.ends'.bind _ _) shallow fun result => ?_⟩
          have solved : (subst'.bind x (head.relabel label)).cell x = .bound (head.relabel label) :=
            cell_write_self inside _
          have alone : (subst'.bind x (head.relabel label)).root x = x :=
              root_of_not_link fun w link => by
            rw [solved] at link
            cases link
          have rootCell : (subst'.bind x (head.relabel label)).rootCell x =
              .bound (head.relabel label) := by
            rw [Subst.rootCell, alone, solved]
          exact zonks_solved rootCell

/-- A variable that no variable of the first substitution has gets solved, unless the comparison is
stopped. -/
theorem Relabelled.unify_unseen (here : subst.Relabelled label subst')
    (unseen : ∀ w, label w ≠ x) (ty : Ty) :
    (∃ after, Subst.unify (.var x) (ty.relabel label) subst' = .error .exhausted after) ∨
      ∃ after, Subst.unify (.var x) (ty.relabel label) subst' = .ok () after ∧
        subst.Answered label x ty after := by
  change (∃ after, Unify.within _ _ _ subst' = _) ∨ ∃ after, Unify.within _ _ _ subst' = _ ∧ _
  rw [Unify.within, Agenda.walk_singleton]
  cases subst'.depthBound ((Ty.var x).size + (ty.relabel label).size) with
  | zero => exact .inl ⟨subst', rfl⟩
  | succ depth =>
    rw [Agenda.descend, bind_apply]
    rcases here.step_unseen unseen depth ty with stopped | ⟨after, run, answered⟩
    · exact .inl ⟨subst', by rw [stopped]⟩
    · exact .inr ⟨after, by rw [run]; rfl, answered⟩

end Subst

end PolyCheck
