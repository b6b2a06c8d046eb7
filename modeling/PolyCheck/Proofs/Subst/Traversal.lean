import PolyCheck.Proofs.Subst.Reduction
import PolyCheck.Proofs.Turns

/-! Walks over types with stacks of their own. Resolution keeps what it still has to do on one stack
and what is through on another one; the occurs test and the search for free variables keep the types
still to be looked at. All of them reduce the head of each type they come upon, so they see the
parts of the heads, and these are the parts of the resolved type: a head that takes no arguments is
put together again as it was. -/
namespace PolyCheck

namespace Ty

mutual

/-- The parameters of all quantifiers in a type, from left to right. -/
def binders : Ty → List TyVar
  | var _ => []
  | arrow param result => binders param ++ binders result
  | tuple elems => bindersAll elems
  | nominal _ args => bindersAll args
  | quantified params body => params ++ binders body
  | app head args => binders head ++ bindersAll args

def bindersAll : List Ty → List TyVar
  | [] => []
  | t :: ts => binders t ++ bindersAll ts

end

/-- A variable occurs outside of the quantifiers that have it as a parameter. -/
inductive Free (v : TyVar) : Ty → Prop where
  | var : Free v (.var v)
  | param {param result : Ty} (free : Free v param) : Free v (.arrow param result)
  | result {param result : Ty} (free : Free v result) : Free v (.arrow param result)
  | elem {t : Ty} {elems : List Ty} (member : t ∈ elems) (free : Free v t) : Free v (.tuple elems)
  | argument {template : TemplateId} {t : Ty} {args : List Ty} (member : t ∈ args)
      (free : Free v t) : Free v (.nominal template args)
  | body {params : List TyVar} {body : Ty} (outside : v ∉ params) (free : Free v body) :
      Free v (.quantified params body)
  | head {head : Ty} {args : List Ty} (free : Free v head) : Free v (.app head args)
  | applied {head t : Ty} {args : List Ty} (member : t ∈ args) (free : Free v t) :
      Free v (.app head args)

def ownLeaves : Ty → List TyVar
  | var v => [v]
  | _ => []

def ownBinders : Ty → List TyVar
  | quantified params _ => params
  | _ => []

structure Fills (head : Ty) (parts : List Ty) : Prop where
  length : head.children.length = parts.length
  stuck : ∀ inner args, head = .app inner args → ∀ function others, parts = function :: others →
    function.IsStuck

variable {ty head : Ty} {parts args : List Ty} {v : TyVar}

theorem leaves_apply (stuck : head.IsStuck) (args : List Ty) :
    (head.apply args).leaves = head.leaves ++ leavesAll args := by
  rcases eq_or_ne args [] with rfl | given
  · rw [apply_nil, leavesAll, List.append_nil]
  · rw [Subst.apply_stuck stuck given, leaves]

theorem binders_apply (stuck : head.IsStuck) (args : List Ty) :
    (head.apply args).binders = head.binders ++ bindersAll args := by
  rcases eq_or_ne args [] with rfl | given
  · rw [apply_nil, bindersAll, List.append_nil]
  · rw [Subst.apply_stuck stuck given, binders]

theorem Fills.rebuild (fills : head.Fills parts) :
    (head.rebuild parts).leaves = head.ownLeaves ++ leavesAll parts ∧
      (head.rebuild parts).binders = head.ownBinders ++ bindersAll parts := by
  obtain ⟨length, stuck⟩ := fills
  cases head with
  | var v =>
    obtain rfl := List.eq_nil_of_length_eq_zero length.symm
    exact ⟨rfl, rfl⟩
  | arrow param result =>
    obtain ⟨p, r, rfl⟩ := List.length_eq_two.mp length.symm
    simp [Ty.rebuild, leaves, leavesAll, ownLeaves, binders, bindersAll, ownBinders]
  | tuple elems => exact ⟨rfl, rfl⟩
  | nominal template args => exact ⟨rfl, rfl⟩
  | quantified params body =>
    obtain ⟨b, rfl⟩ := List.length_eq_one_iff.mp length.symm
    simp [Ty.rebuild, leaves, leavesAll, ownLeaves, binders, bindersAll, ownBinders]
  | app inner args =>
    obtain ⟨function, others, rfl⟩ := List.exists_cons_of_length_eq_add_one length.symm
    have takesNone := stuck inner args rfl function others rfl
    exact ⟨leaves_apply takesNone others, binders_apply takesNone others⟩

theorem Free.mem_leaves (free : ty.Free v) : v ∈ ty.leaves := by
  induction free with
  | var => exact List.mem_singleton.mpr rfl
  | param _ ih => exact List.mem_append_left _ ih
  | result _ ih => exact List.mem_append_right _ ih
  | elem member _ ih | argument member _ ih => exact mem_leavesAll.mpr ⟨_, member, ih⟩
  | body _ _ ih => exact ih
  | head _ ih => exact List.mem_append_left _ ih
  | applied member _ ih => exact List.mem_append_right _ (mem_leavesAll.mpr ⟨_, member, ih⟩)

mutual

theorem free_or_mem_binders : ∀ {ty : Ty}, v ∈ ty.leaves → ty.Free v ∨ v ∈ ty.binders
  | .var w, member => by
    obtain rfl := List.mem_singleton.mp member
    exact .inl .var
  | .arrow param result, member => by
    rcases List.mem_append.mp member with inside | inside
    · exact (free_or_mem_binders inside).imp .param (List.mem_append_left _)
    · exact (free_or_mem_binders inside).imp .result (List.mem_append_right _)
  | .tuple elems, member =>
    (free_or_mem_bindersAll member).imp_left fun ⟨_, inElems, free⟩ => .elem inElems free
  | .nominal _ args, member =>
    (free_or_mem_bindersAll member).imp_left fun ⟨_, inArgs, free⟩ => .argument inArgs free
  | .quantified params body, member => by
    by_cases own : v ∈ params
    · exact .inr (List.mem_append_left _ own)
    · have inside : v ∈ body.leaves := member
      exact (free_or_mem_binders inside).imp (.body own) (List.mem_append_right _)
  | .app head args, member => by
    rcases List.mem_append.mp member with inside | inside
    · exact (free_or_mem_binders inside).imp .head (List.mem_append_left _)
    · exact (free_or_mem_bindersAll inside).imp (fun ⟨_, inArgs, free⟩ => .applied inArgs free)
        (List.mem_append_right _)

theorem free_or_mem_bindersAll : ∀ {types : List Ty}, v ∈ leavesAll types →
    (∃ t ∈ types, t.Free v) ∨ v ∈ bindersAll types
  | t :: types, member => by
    rcases List.mem_append.mp member with inside | inside
    · exact (free_or_mem_binders inside).imp (fun free => ⟨t, List.mem_cons_self, free⟩)
        (List.mem_append_left _)
    · refine (free_or_mem_bindersAll inside).imp (fun ⟨u, inTypes, free⟩ => ?_)
        (List.mem_append_right _)
      exact ⟨u, List.mem_cons_of_mem t inTypes, free⟩

end

end Ty

namespace Subst

variable {subst : Subst} {ty head result : Ty} {types parts results : List Ty}
  {depth limit : Nat} {v : TyVar}

theorem Reduces.fills (reduces : subst.Reduces ty head)
    (length : head.children.length = parts.length)
    (each : ∀ pair ∈ head.children.zip parts, subst.Rebuilds pair.1 pair.2) : head.Fills parts := by
  refine ⟨length, fun inner args same function others given => ?_⟩
  subst same given
  exact (each (inner, function) (by simp [Ty.children])).isStuck (reduces.stalled.2 _ _ rfl)

section Machine

/-- What is still to be done: to look at a type, or to put a head together when its parts are
through. -/
inductive Task where
  | visit (ty : Ty)
  | arrow
  | tuple (count : Nat)
  | nominal (template : TemplateId) (count : Nat)
  | quantified (params : List TyVar)
  | app (count : Nat)

/-- What is still to be done, and the types that are through, the last one first. -/
structure Zonking where
  tasks : List Task
  done : List Ty

namespace Zonking

/-- What puts a head together. A variable is through at once. -/
def closing? : Ty → Option Task
  | .var _ => none
  | .arrow _ _ => some .arrow
  | .tuple elems => some (.tuple elems.length)
  | .nominal template args => some (.nominal template args.length)
  | .quantified params _ => some (.quantified params)
  | .app _ args => some (.app args.length)

/-- One turn of resolution, which stays where it is when a type has no head. -/
def turn (head? : Ty → Option Ty) : Zonking → Zonking
  | ⟨.visit ty :: tasks, done⟩ =>
    match head? ty with
    | none => ⟨.visit ty :: tasks, done⟩
    | some head =>
      match closing? head with
      | none => ⟨tasks, head :: done⟩
      | some task => ⟨head.children.map .visit ++ task :: tasks, done⟩
  | ⟨.arrow :: tasks, result :: param :: done⟩ => ⟨tasks, .arrow param result :: done⟩
  | ⟨.arrow :: tasks, done⟩ => ⟨tasks, done.drop 2⟩
  | ⟨.tuple count :: tasks, done⟩ => ⟨tasks, .tuple (done.take count).reverse :: done.drop count⟩
  | ⟨.nominal template count :: tasks, done⟩ =>
    ⟨tasks, .nominal template (done.take count).reverse :: done.drop count⟩
  | ⟨.quantified params :: tasks, body :: done⟩ => ⟨tasks, .quantified params body :: done⟩
  | ⟨.quantified _ :: tasks, []⟩ => ⟨tasks, []⟩
  | ⟨.app count :: tasks, done⟩ =>
    match done.drop count with
    | function :: rest => ⟨tasks, function.apply (done.take count).reverse :: rest⟩
    | [] => ⟨tasks, []⟩
  | ⟨[], done⟩ => ⟨[], done⟩

variable {head? : Ty → Option Ty}

theorem turn_closing {task : Task} (closing : closing? head = some task)
    (length : head.children.length = parts.length) (tasks : List Task) (done : List Ty) :
    turn head? ⟨task :: tasks, parts.reverse ++ done⟩ = ⟨tasks, head.rebuild parts :: done⟩ := by
  have taken : ∀ {items : List Ty}, items.length = parts.length →
      ((parts.reverse ++ done).take items.length).reverse = parts ∧
      (parts.reverse ++ done).drop items.length = done := by
    intro items same
    rw [same, ← List.length_reverse, List.take_left, List.drop_left, List.reverse_reverse]
    exact ⟨rfl, rfl⟩
  cases head with
  | var v => cases closing
  | arrow param result =>
    obtain rfl := Option.some.inj closing
    obtain ⟨p, r, rfl⟩ := List.length_eq_two.mp length.symm
    rfl
  | tuple elems =>
    obtain rfl := Option.some.inj closing
    obtain ⟨back, rest⟩ := @taken elems length
    rw [turn, back, rest, Ty.rebuild]
  | nominal template args =>
    obtain rfl := Option.some.inj closing
    obtain ⟨back, rest⟩ := @taken args length
    rw [turn, back, rest, Ty.rebuild]
  | quantified params body =>
    obtain rfl := Option.some.inj closing
    obtain ⟨b, rfl⟩ := List.length_eq_one_iff.mp length.symm
    rfl
  | app inner args =>
    obtain rfl := Option.some.inj closing
    obtain ⟨function, others, rfl⟩ := List.exists_cons_of_length_eq_add_one length.symm
    have same : args.length = others.reverse.length := by simpa using Nat.succ.inj length
    rw [turn, List.reverse_cons, List.append_assoc, same, List.drop_left, List.take_left,
      List.reverse_reverse]
    rfl

theorem turns_visits (each : List.Forall₂ (fun t r => ∀ tasks done,
      Turns (turn head?) ⟨.visit t :: tasks, done⟩ ⟨tasks, r :: done⟩) types results)
      (tasks : List Task) (done : List Ty) :
    Turns (turn head?) ⟨types.map .visit ++ tasks, done⟩ ⟨tasks, results.reverse ++ done⟩ := by
  induction each generalizing done with
  | nil => exact .refl _ _
  | cons first _ ih =>
    rw [List.reverse_cons, List.append_assoc]
    exact (first _ _).trans (ih _)

end Zonking

theorem Rebuilds.turns (rebuilds : subst.Rebuilds ty result)
    (ended : (subst.zonkWithin depth ty).isSome)
    (le : depth ≤ limit) (tasks : List Task) (done : List Ty) :
    Turns (Zonking.turn (subst.shallowWithin limit)) ⟨.visit ty :: tasks, done⟩
      ⟨tasks, result :: done⟩ := by
  induction rebuilds generalizing depth tasks done with
  | @intro ty head parts reduces length each ih =>
    obtain ⟨lower, rfl, shallow, below⟩ := reduces.ended ended
    have shallow := shallowWithin_mono le shallow
    refine .next _ ?_
    rw [Zonking.turn, shallow]
    dsimp only
    cases closing : Zonking.closing? head with
    | none =>
      cases head with
      | var v => exact .refl _ _
      | arrow _ _ | tuple _ | nominal _ _ | quantified _ _ | app _ _ => cases closing
    | some task =>
      have visits : List.Forall₂ (fun t r => ∀ tasks done,
        Turns (Zonking.turn (subst.shallowWithin limit))
          ⟨.visit t :: tasks, done⟩ ⟨tasks, r :: done⟩) head.children parts :=
        forall₂_of_zip length fun pair member =>
          ih pair member (below _ (List.of_mem_zip member).1) (by omega)
      refine (Zonking.turns_visits visits (task :: tasks) done).trans (.next _ ?_)
      rw [Zonking.turn_closing closing length]
      exact .refl _ _

end Machine

section Search

theorem forM_seek {root : TyVar} {visit : Ty → Except SearchEnd PUnit}
    (each : List.Forall₂
      (fun t r : Ty => visit t = if root ∈ r.leaves then .error .found else .ok ()) types results) :
    forM types visit = if root ∈ Ty.leavesAll results then .error .found else .ok () := by
  induction each with
  | nil => rfl
  | @cons t r types results first _ ih =>
    rw [List.forM_cons, first, ih, Ty.leavesAll]
    by_cases here : root ∈ r.leaves
    · simp only [here, if_true, List.mem_append, true_or]
      rfl
    · simp only [here, if_false, List.mem_append, false_or]
      rfl

theorem Rebuilds.seeks (rebuilds : subst.Rebuilds ty result)
    (ended : (subst.zonkWithin depth ty).isSome) (root : TyVar) :
    Agenda.descend (.error .unfinished) (subst.seek root) depth ty =
      if root ∈ result.leaves then .error .found else .ok () := by
  induction rebuilds generalizing depth with
  | @intro ty head parts reduces length each ih =>
    obtain ⟨lower, rfl, shallow, below⟩ := reduces.ended ended
    have walks := forM_seek (List.forall₂_reverse_iff.mpr (forall₂_of_zip length fun pair member =>
      ih pair member (below _ (List.of_mem_zip member).1)))
    have reversed : root ∈ Ty.leavesAll parts.reverse ↔ root ∈ Ty.leavesAll parts := by
      simp only [Ty.mem_leavesAll, List.mem_reverse]
    rw [if_congr reversed rfl rfl] at walks
    rw [(reduces.fills length each).rebuild.1, Agenda.descend, seek, shallow]
    cases head with
    | var v =>
      obtain rfl := List.eq_nil_of_length_eq_zero length.symm
      by_cases same : v = root
      · simp [same, Ty.ownLeaves]
        rfl
      · simp [same, Ne.symm same, Ty.ownLeaves, Ty.leavesAll]
        rfl
    | arrow _ _ | tuple _ | nominal _ _ | quantified _ _ | app _ _ => exact walks

theorem Rebuilds.occursWithin (rebuilds : subst.Rebuilds ty result)
    (ended : (subst.zonkWithin depth ty).isSome)
    (root : TyVar) : subst.occursWithin root depth ty = some (decide (root ∈ result.leaves)) := by
  rw [Subst.occursWithin, Agenda.walk_singleton, rebuilds.seeks ended]
  by_cases here : root ∈ result.leaves <;> simp [here]

structure Gathered.Notes (subst : Subst) (leaves binders : List TyVar) (before after : Gathered) :
    Prop where
  leaves : after.leaves = leaves.foldl (fun found v => found.insert v) before.leaves
  binders : ∀ v, v ∈ after.binders ↔ v ∈ before.binders ∨ v ∈ binders.map subst.root

theorem Gathered.Notes.trans {leaves binders leaves' binders' : List TyVar}
    {before middle after : Gathered}
    (first : Notes subst leaves binders before middle)
    (second : Notes subst leaves' binders' middle after) :
    Notes subst (leaves ++ leaves') (binders ++ binders') before after where
  leaves := by rw [List.foldl_append, second.leaves, first.leaves]
  binders v := by rw [second.binders, first.binders, List.map_append, List.mem_append, or_assoc]

theorem gather_head (shallow : subst.shallowWithin depth ty = some head) (before : Gathered) :
    ∃ after, subst.gather depth ty before = some (head.children, after) ∧
      Gathered.Notes subst head.ownLeaves head.ownBinders before after := by
  rw [gather, shallow]
  cases head with
  | var v => exact ⟨_, rfl, rfl, by simp [Ty.ownBinders]⟩
  | quantified params body =>
    refine ⟨_, rfl, rfl, fun v => ?_⟩
    rw [List.mem_append, or_comm, Ty.ownBinders]
  | arrow _ _ | tuple _ | nominal _ _ | app _ _ => exact ⟨_, rfl, rfl, by simp [Ty.ownBinders]⟩

theorem forM_gather {visit : Ty → StateT Gathered Option PUnit}
    (each : List.Forall₂ (fun t r : Ty => ∀ before, ∃ after, visit t before = some ((), after) ∧
      Gathered.Notes subst r.leaves r.binders before after) types results) (before : Gathered) :
    ∃ after, forM types visit before = some ((), after) ∧
      Gathered.Notes subst (Ty.leavesAll results) (Ty.bindersAll results) before after := by
  induction each generalizing before with
  | nil => exact ⟨before, rfl, rfl, by simp [Ty.bindersAll]⟩
  | @cons t r types results first _ ih =>
    obtain ⟨middle, here, notes⟩ := first before
    obtain ⟨after, rest, notes'⟩ := ih middle
    refine ⟨after, ?_, notes.trans notes'⟩
    rw [List.forM_cons]
    change (visit t before).bind _ = _
    rw [here]
    exact rest

theorem Rebuilds.gathers (rebuilds : subst.Rebuilds ty result)
    (ended : (subst.zonkWithin depth ty).isSome) (before : Gathered) :
    ∃ after, Agenda.descend (fun _ => none) subst.gather depth ty before = some ((), after) ∧
      Gathered.Notes subst result.leaves result.binders before after := by
  induction rebuilds generalizing depth before with
  | @intro ty head parts reduces length each ih =>
    obtain ⟨lower, rfl, shallow, below⟩ := reduces.ended ended
    obtain ⟨middle, first, notes⟩ := gather_head shallow before
    obtain ⟨after, rest, notes'⟩ := forM_gather (forall₂_of_zip length fun pair member =>
      ih pair member (below _ (List.of_mem_zip member).1)) middle
    obtain ⟨leaves, binders⟩ := (reduces.fills length each).rebuild
    rw [leaves, binders]
    exact ⟨after, finds_parts first rest, notes.trans notes'⟩

theorem reverse_foldl_insert (leaves found : List TyVar) :
    (leaves.foldl (fun found v => found.insert v) found).reverse =
      found.reverse ++ (leaves.filter fun v => !found.contains v).eraseDups := by
  induction leaves generalizing found with
  | nil => simp
  | cons v leaves ih =>
    rw [List.foldl_cons, ih]
    by_cases old : v ∈ found
    · rw [List.insert_of_mem old, List.filter_cons_of_neg (by simpa using old)]
    · rw [List.insert_of_not_mem old, List.filter_cons_of_pos (by simpa using old),
        List.eraseDups_cons, List.reverse_cons, List.append_assoc, List.filter_filter]
      refine congrArg (found.reverse ++ v :: List.eraseDups ·) (List.filter_congr fun w _ => ?_)
      rw [List.contains_cons, Bool.not_or]

theorem Rebuilds.freeVarsWithin (rebuilds : subst.Rebuilds ty result)
    (ended : (subst.zonkWithin depth ty).isSome) : subst.freeVarsWithin depth ty =
      some (result.leaves.eraseDups.filter fun v =>
        !(result.binders.map subst.root).contains v) := by
  obtain ⟨after, walk, leaves, binders⟩ := rebuilds.gathers ended ⟨[], []⟩
  rw [Subst.freeVarsWithin, Agenda.walk_singleton, walk]
  dsimp only at leaves binders ⊢
  rw [leaves, reverse_foldl_insert, List.reverse_nil, List.nil_append]
  refine congrArg some ?_
  have all : (result.leaves.filter fun v => !([] : List TyVar).contains v) =
    result.leaves := by simp
  rw [all]
  refine List.filter_congr fun v _ => congrArg not (Bool.eq_iff_iff.mpr ?_)
  rw [List.contains_iff_mem, List.contains_iff_mem, binders v]
  simp

theorem nodup_eraseDups (leaves : List TyVar) : leaves.eraseDups.Nodup := by
  have all : (leaves.filter fun v => !([] : List TyVar).contains v) = leaves := by simp
  have noted : ∀ found : List TyVar, found.Nodup →
      (leaves.foldl (fun found v => found.insert v) found).Nodup := by
    intro found
    induction leaves generalizing found with
    | nil => exact id
    | cons v leaves ih => exact fun distinct => ih (by simp) _ distinct.insert
  have reversed := reverse_foldl_insert leaves []
  rw [List.reverse_nil, List.nil_append, all] at reversed
  rw [← reversed]
  exact List.nodup_reverse.mpr (noted [] .nil)

theorem Normal.freeVars (normal : subst.Normal ty) : subst.freeVars ty =
    ty.leaves.eraseDups.filter fun v => !(ty.binders.map subst.root).contains v := by
  have enough := subst.size_lt_depthBound ty.size
  have low := height_le_size ty
  rw [Subst.freeVars, Subst.freeVars?,
    normal.rebuilds.freeVarsWithin
    (Option.isSome_iff_exists.mpr ⟨ty, normal.zonkWithin (by omega)⟩)]
  rfl

theorem Normal.mem_freeVars (normal : subst.Normal ty)
    (rigid : ∀ p ∈ ty.binders, ∃ name, subst.cell p = .rigid name)
    (apart : ∀ p ∈ ty.binders, ¬ ty.Free p) (v : TyVar) : v ∈ subst.freeVars ty ↔ ty.Free v := by
  have roots : ty.binders.map subst.root = ty.binders := by
    refine (List.map_congr_left fun p member => ?_).trans (List.map_id _)
    obtain ⟨name, cell⟩ := rigid p member
    exact root_of_isNew (cell ▸ Cell.isNew_rigid name)
  rw [normal.freeVars, roots, List.mem_filter, List.mem_eraseDups, Bool.not_eq_true',
    Bool.eq_false_iff, ne_eq, List.contains_iff_mem]
  constructor
  · rintro ⟨leaf, outside⟩
    exact (Ty.free_or_mem_binders leaf).resolve_right outside
  · exact fun free => ⟨free.mem_leaves, fun member => apart v member free⟩

end Search

/-- What the walks give within a depth for a type that is rebuilt. -/
structure Traversed (subst : Subst) (depth : Nat) (ty result : Ty) : Prop where
  zonk : subst.zonkWithin depth ty = some result
  turns : Turns (Zonking.turn (subst.shallowWithin depth)) ⟨[.visit ty], []⟩ ⟨[], [result]⟩
  occurs : ∀ v, subst.occursWithin (subst.root v) depth ty =
    some (decide (subst.root v ∈ result.leaves))
  freeVars : subst.freeVarsWithin depth ty = some (subst.freeVars result)

theorem Rebuilds.traversed (rebuilds : subst.Rebuilds ty result)
    (ended : (subst.zonkWithin depth ty).isSome) : subst.Traversed depth ty result where
  zonk := rebuilds.zonkWithin ended
  turns := rebuilds.turns ended (Nat.le_refl depth) [] []
  occurs v := rebuilds.occursWithin ended (subst.root v)
  freeVars := by rw [rebuilds.freeVarsWithin ended, rebuilds.normal.freeVars]

/-- Where reduction ends at every type come upon, the walks give what the recursion gives, with
every depth that is enough, and there is such a depth. What a type is resolved to is in normal form
and resolved to itself; the occurs test asks for one of its leaves, and the search for free
variables lists its leaves by their first occurrences, but for those that are parameters of its
quantifiers. -/
theorem walks_structural (settles : subst.Settles ty) : ∃ result,
    (∀ other, subst.Rebuilds ty other ↔ other = result) ∧
    (∃ enough, ∀ depth ≥ enough, subst.Traversed depth ty result) ∧
    ((subst.zonkWithin (subst.depthBound ty.size) ty).isSome → subst.zonk ty = result ∧
      (∀ v, subst.occurs v ty = decide (subst.root v ∈ result.leaves)) ∧
        subst.freeVars ty = subst.freeVars result) ∧
    subst.Normal result ∧ subst.zonk result = result ∧
    (subst.freeVars result =
      result.leaves.eraseDups.filter fun v => !(result.binders.map subst.root).contains v) ∧
    (subst.freeVars result).Nodup ∧
    ((∀ p ∈ result.binders, ∃ name, subst.cell p = .rigid name) →
      (∀ p ∈ result.binders, ¬ result.Free p) →
      ∀ v, v ∈ subst.freeVars result ↔ result.Free v) := by
  obtain ⟨result, rebuilds⟩ := settles.rebuilds
  have normal := rebuilds.normal
  refine ⟨result, fun other => ⟨fun rebuilds' => rebuilds'.unique rebuilds,
      fun same => same ▸ rebuilds⟩, ?_, ?_, normal,
    normal.zonk, normal.freeVars, ?_, normal.mem_freeVars⟩
  · obtain ⟨enough, walk⟩ := rebuilds.zonks
    exact ⟨enough,
      fun depth le =>
      rebuilds.traversed (Option.isSome_iff_exists.mpr ⟨_, zonkWithin_mono le walk⟩)⟩
  · intro ended
    obtain ⟨zonk, -, occurs, freeVars⟩ := rebuilds.traversed ended
    refine ⟨?_, fun v => ?_, ?_⟩
    · rw [Subst.zonk, Subst.zonk?, zonk, Option.getD_some]
    · rw [Subst.occurs, Subst.occurs?, occurs, Option.getD_some]
    · rw [Subst.freeVars, Subst.freeVars?, freeVars, Option.getD_some]
  · rw [normal.freeVars]
    exact (nodup_eraseDups result.leaves).filter _

/-- A rigid variable, a function on types over it, an unsolved variable, and one that is linked to
it. -/
def functionAndLink : Subst :=
  let subst := (Subst.empty.freshRigid "b").2
  let subst := (subst.push (.bound (.quantified [⟨0⟩] (.arrow (.var ⟨0⟩) (.var ⟨0⟩))))).2
  (subst.fresh.2.push (.link ⟨2⟩)).2

theorem rebuilds_functionAndLink :
    functionAndLink.Rebuilds
    (.tuple [.app (.var ⟨1⟩) [.var ⟨3⟩], .quantified [⟨0⟩] (.app (.var ⟨2⟩) [.var ⟨0⟩])])
      (.tuple [.arrow (.var ⟨2⟩) (.var ⟨2⟩), .quantified [⟨0⟩] (.app (.var ⟨2⟩) [.var ⟨0⟩])]) := by
  have last : ∀ {v : TyVar}, v.index ≠ 3 → functionAndLink.Chains v v := by
    intro v other
    refine .last fun w cell => ?_
    obtain ⟨_ | _ | _ | _ | index⟩ := v <;> first | exact other rfl | cases cell
  have linked : functionAndLink.Rebuilds (.var ⟨3⟩) (.var ⟨2⟩) :=
    @Rebuilds.intro _ _ (.var ⟨2⟩) [] (.unsolved (.next rfl (last (by decide))) trivial) rfl
      (List.forall_mem_nil _)
  have function : functionAndLink.Reduces (.var ⟨1⟩)
      (.quantified [⟨0⟩] (.arrow (.var ⟨0⟩) (.var ⟨0⟩))) :=
    .solved (last (by decide)) rfl (.quantified _ _)
  have applied : (Ty.quantified [⟨0⟩] (.arrow (.var ⟨0⟩) (.var ⟨0⟩))).apply [.var ⟨3⟩] =
      .arrow (.var ⟨3⟩) (.var ⟨3⟩) := by
    cbv
  have first : functionAndLink.Rebuilds (.app (.var ⟨1⟩) [.var ⟨3⟩]) (.arrow (.var ⟨2⟩)
      (.var ⟨2⟩)) :=
    @Rebuilds.intro _ _ (.arrow (.var ⟨3⟩) (.var ⟨3⟩)) [.var ⟨2⟩, .var ⟨2⟩]
      (.applied function (by rw [applied]; exact .arrow _ _)) rfl (by simp [Ty.children, linked])
  have second : functionAndLink.Normal (.quantified [⟨0⟩] (.app (.var ⟨2⟩) [.var ⟨0⟩])) :=
    .quantified (.app trivial (.var trivial) (List.cons_ne_nil _ _)
      (List.forall_mem_singleton.mpr (.var trivial)))
  exact @Rebuilds.intro _ _ (.tuple _) [_, _] (.tuple _) rfl
    (by simp [Ty.children, first, second.rebuilds])

/-- The application is reduced and the link looked through; the parameter is not free. -/
theorem walks_structural_applied :
    functionAndLink.zonk
    (.tuple [.app (.var ⟨1⟩) [.var ⟨3⟩], .quantified [⟨0⟩] (.app (.var ⟨2⟩) [.var ⟨0⟩])]) =
        .tuple [.arrow (.var ⟨2⟩) (.var ⟨2⟩), .quantified [⟨0⟩] (.app (.var ⟨2⟩) [.var ⟨0⟩])] ∧
      ∀ v, v ∈ functionAndLink.freeVars
          (.tuple [.arrow (.var ⟨2⟩) (.var ⟨2⟩), .quantified [⟨0⟩] (.app (.var ⟨2⟩) [.var ⟨0⟩])]) ↔
        Ty.Free v (.tuple [.arrow (.var ⟨2⟩) (.var ⟨2⟩),
            .quantified [⟨0⟩] (.app (.var ⟨2⟩) [.var ⟨0⟩])]) := by
  obtain ⟨result, only, -, granted, -, -, -, -, free⟩ :=
    walks_structural rebuilds_functionAndLink.settles
  obtain rfl := (only _).mp rebuilds_functionAndLink
  have binders :
    (Ty.tuple [.arrow (.var ⟨2⟩) (.var ⟨2⟩),
        .quantified [⟨0⟩] (.app (.var ⟨2⟩) [.var ⟨0⟩])]).binders = [⟨0⟩] := rfl
  refine ⟨(granted ?_).1, free ?_ ?_⟩
  · cbv
  · rw [binders]
    exact List.forall_mem_singleton.mpr ⟨some "b", rfl⟩
  · rw [binders]
    refine List.forall_mem_singleton.mpr fun occurs => ?_
    cases occurs with
    | elem member free =>
      rcases List.mem_cons.mp member with rfl | member
      · rcases free with _ | free | free <;> cases free
      · obtain rfl := List.mem_singleton.mp member
        cases free with
        | body outside _ => exact outside (List.mem_singleton.mpr rfl)

end Subst

end PolyCheck
