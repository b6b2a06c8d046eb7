import Mathlib
import PolyCheck.Name
import PolyCheck.Ty

/-! Lambda terms, in which names cannot be caught. A function of several parameters is a sequence of
functions of one, each of which says whether it is the last one of its sequence. Terms that are
equal when functions may be given their arguments anywhere have a common reduct, so two such terms
that are reduced already are the same. -/
namespace PolyCheck

/-- What types are made of besides functions on types. A constructor comes with the number of its
components. -/
inductive Label where
  | arrow
  | tuple (count : Nat)
  | nominal (template : TemplateId) (count : Nat)
  | named (name : Name)

/-- Terms over indices, which count the functions in between. -/
inductive Lambda where
  | var (index : Nat)
  | atom (label : Label)
  | app (fn arg : Lambda)
  | lam (last : Bool) (body : Lambda)

namespace Lambda

def lift (change : Nat → Nat) : Nat → Nat
  | 0 => 0
  | index + 1 => change index + 1

def rename (change : Nat → Nat) : Lambda → Lambda
  | var index => var (change index)
  | atom label => atom label
  | app fn arg => app (rename change fn) (rename change arg)
  | lam last body => lam last (rename (lift change) body)

def raise (count : Nat) (term : Lambda) : Lambda := term.rename (· + count)

def up (images : Nat → Lambda) : Nat → Lambda
  | 0 => var 0
  | index + 1 => (images index).raise 1

def subst (images : Nat → Lambda) : Lambda → Lambda
  | var index => images index
  | atom label => atom label
  | app fn arg => app (subst images fn) (subst images arg)
  | lam last body => lam last (subst (up images) body)

def only (term : Lambda) : Nat → Lambda
  | 0 => term
  | index + 1 => var index

def inst (body arg : Lambda) : Lambda := body.subst (only arg)

variable {images images' : Nat → Lambda} {change change' : Nat → Nat}
  {term term' first second fn fn' arg arg' body body' : Lambda} {last : Bool}

section Substitution

@[simp] theorem lift_comp (change change' : Nat → Nat) :
    lift (change' ∘ change) = lift change' ∘ lift change := by
  funext index
  cases index <;> rfl

theorem rename_rename (term : Lambda) (change change' : Nat → Nat) :
    (term.rename change).rename change' = term.rename (change' ∘ change) := by
  induction term generalizing change change' with
  | var | atom => rfl
  | app fn arg ihFn ihArg => rw [rename, rename, rename, ihFn, ihArg]
  | lam last body ih => rw [rename, rename, rename, ih, lift_comp]

theorem rename_raise (term : Lambda) (change : Nat → Nat) :
    (term.raise 1).rename (lift change) = (term.rename change).raise 1 := by
  rw [raise, raise, rename_rename, rename_rename]
  rfl

theorem subst_rename (term : Lambda) (change : Nat → Nat) (images : Nat → Lambda) :
    (term.rename change).subst images = term.subst (images ∘ change) := by
  induction term generalizing change images with
  | var | atom => rfl
  | app fn arg ihFn ihArg => rw [rename, subst, subst, ihFn, ihArg]
  | lam last body ih =>
    have lifted : up images ∘ lift change = up (images ∘ change) := by
      funext index
      cases index <;> rfl
    rw [rename, subst, subst, ih, lifted]

theorem rename_subst (term : Lambda) (images : Nat → Lambda) (change : Nat → Nat) :
    (term.subst images).rename change = term.subst fun index => (images index).rename change := by
  induction term generalizing images change with
  | var | atom => rfl
  | app fn arg ihFn ihArg => rw [subst, rename, subst, ihFn, ihArg]
  | lam last body ih =>
    have lifted : (fun index => (up images index).rename (lift change)) = up fun index =>
        (images index).rename change := by
      funext index
      cases index with
      | zero => rfl
      | succ index => exact rename_raise _ _
    rw [subst, rename, subst, ih, lifted]

theorem up_raise (term : Lambda) (images : Nat → Lambda) :
    (term.raise 1).subst (up images) = (term.subst images).raise 1 := by
  rw [raise, raise, subst_rename, rename_subst]
  rfl

theorem subst_subst (term : Lambda) (images images' : Nat → Lambda) :
    (term.subst images).subst images' = term.subst fun index => (images index).subst images' := by
  induction term generalizing images images' with
  | var | atom => rfl
  | app fn arg ihFn ihArg => rw [subst, subst, subst, ihFn, ihArg]
  | lam last body ih =>
    have lifted : (fun index => (up images index).subst (up images')) = up fun index =>
        (images index).subst images' := by
      funext index
      cases index with
      | zero => rfl
      | succ index => exact up_raise _ _
    rw [subst, subst, subst, ih, lifted]

theorem subst_var (term : Lambda) : term.subst var = term := by
  have lifted : up var = var := by
    funext index
    cases index <;> rfl
  induction term with
  | var | atom => rfl
  | app fn arg ihFn ihArg => rw [subst, ihFn, ihArg]
  | lam last body ih => rw [subst, lifted, ih]

theorem raise_inst (term arg : Lambda) : (term.raise 1).inst arg = term := by
  rw [inst, raise, subst_rename]
  exact subst_var term

theorem raise_zero (term : Lambda) : term.raise 0 = term := by
  have lifted : lift id = id := by
    funext index
    cases index <;> rfl
  change term.rename id = term
  induction term with
  | var | atom => rfl
  | app fn arg ihFn ihArg => rw [rename, ihFn, ihArg]
  | lam last body ih => rw [rename, lifted, ih]

theorem raise_raise (term : Lambda) (count : Nat) : (term.raise 1).raise count = term.raise
    (count + 1) := by
  rw [raise, raise, rename_rename]
  refine congrArg (fun change => term.rename change) (funext fun index => ?_)
  exact Nat.add_right_comm index 1 count

theorem inst_subst (body arg : Lambda) (images : Nat → Lambda) :
    (body.inst arg).subst images = (body.subst (up images)).inst (arg.subst images) := by
  rw [inst, inst, subst_subst, subst_subst]
  refine congrArg body.subst (funext fun index => ?_)
  cases index with
  | zero => rfl
  | succ index => exact (raise_inst _ _).symm

theorem rename_eq_subst (term : Lambda) (change : Nat → Nat) : term.rename change = term.subst
    (var ∘ change) := by
  rw [← subst_rename, subst_var]

end Substitution

section Reduction

/-- Some functions that have an argument are given it, anywhere in a term. -/
inductive Par : Lambda → Lambda → Prop where
  | var (index : Nat) : Par (var index) (var index)
  | atom (label : Label) : Par (atom label) (atom label)
  | app {fn fn' arg arg' : Lambda} (fst : Par fn fn') (snd : Par arg arg') :
      Par (app fn arg) (app fn' arg')
  | lam (last : Bool) {body body' : Lambda} (inside : Par body body') : Par (lam last body)
      (lam last body')
  | beta (last : Bool) {body body' arg arg' : Lambda} (inside : Par body body')
      (given : Par arg arg') : Par (app (lam last body) arg) (body'.inst arg')

theorem Par.refl : ∀ term : Lambda, Par term term
  | .var index => .var index
  | .atom label => .atom label
  | .app fn arg => .app (refl fn) (refl arg)
  | .lam last body => .lam last (refl body)

theorem Par.subst (par : Par term term') (each : ∀ index, Par (images index) (images' index)) :
    Par (term.subst images) (term'.subst images') := by
  have renamed : ∀ {term term' : Lambda} (change : Nat → Nat), Par term term' →
      Par (term.rename change) (term'.rename change) := by
    intro term term' change par
    induction par generalizing change with
    | var index => exact .var _
    | atom label => exact .atom label
    | app _ _ ihFn ihArg => exact .app (ihFn change) (ihArg change)
    | lam last _ ih => exact .lam last (ih _)
    | @beta last body body' arg arg' _ _ ihBody ihArg =>
      have lifted : up (Lambda.var ∘ change) = Lambda.var ∘ lift change := by
        funext index
        cases index <;> rfl
      rw [rename_eq_subst (body'.inst arg'), inst_subst, lifted, ← rename_eq_subst,
        ← rename_eq_subst]
      exact .beta last (ihBody _) (ihArg change)
  have below : ∀ {images images' : Nat → Lambda}, (∀ index, Par (images index) (images' index)) →
      ∀ index, Par (up images index) (up images' index) := by
    intro images images' each index
    cases index with
    | zero => exact .var 0
    | succ index => exact renamed _ (each index)
  induction par generalizing images images' with
  | var index => exact each index
  | atom label => exact .atom label
  | app _ _ ihFn ihArg => exact .app (ihFn each) (ihArg each)
  | lam last _ ih => exact .lam last (ih (below each))
  | beta last _ _ ihBody ihArg =>
    rw [inst_subst]
    exact .beta last (ihBody (below each)) (ihArg each)

theorem Par.inst (inside : Par body body') (given : Par arg arg') :
    Par (body.inst arg) (body'.inst arg') := by
  refine inside.subst fun index => ?_
  cases index with
  | zero => exact given
  | succ index => exact .var index

/-- Every function that has an argument is given it. -/
def complete : Lambda → Lambda
  | var index => var index
  | atom label => atom label
  | lam last body => lam last (complete body)
  | app (lam _ body) arg => (complete body).inst (complete arg)
  | app fn arg => app (complete fn) (complete arg)

theorem Par.complete (par : Par term term') : Par term' term.complete := by
  induction par with
  | var index => exact .var index
  | atom label => exact .atom label
  | lam last _ ih => exact .lam last ih
  | beta last _ _ ihBody ihArg => exact ihBody.inst ihArg
  | @app fn fn' arg arg' fst _ ihFn ihArg =>
    cases fst with
    | lam last inside =>
      cases ihFn with
      | lam _ inside' => exact .beta last inside' ihArg
    | var _ | atom _ | app _ _ | beta _ _ _ => exact .app ihFn ihArg

/-- Terms that are the same once functions are given their arguments. -/
inductive Equal : Lambda → Lambda → Prop where
  | beta (last : Bool) (body arg : Lambda) : Equal (app (lam last body) arg) (body.inst arg)
  | refl (term : Lambda) : Equal term term
  | symm {first second : Lambda} (same : Equal first second) : Equal second first
  | trans {first second third : Lambda} (same : Equal first second) (same' : Equal second third) :
      Equal first third
  | app {fn fn' arg arg' : Lambda} (fst : Equal fn fn') (snd : Equal arg arg') :
      Equal (app fn arg) (app fn' arg')
  | lam (last : Bool) {body body' : Lambda} (inside : Equal body body') : Equal (lam last body)
      (lam last body')

theorem Equal.of_eq (same : first = second) : Equal first second := same ▸ .refl first

open Relation in
theorem Equal.join (equal : Equal first second) : Join (ReflTransGen Par) first second := by
  have diamond : ∀ first second third : Lambda, Par first second → Par first third →
      ∃ last, ReflGen Par second last ∧ ReflTransGen Par third last := fun first _ _ left right =>
    ⟨first.complete, .single left.complete, .single right.complete⟩
  induction equal with
  | beta last body arg => exact ⟨_, .single (.beta last (.refl body) (.refl arg)), .refl⟩
  | refl term => exact ⟨term, .refl, .refl⟩
  | symm _ ih =>
    obtain ⟨reduct, left, right⟩ := ih
    exact ⟨reduct, right, left⟩
  | trans _ _ ihFirst ihSecond =>
    obtain ⟨reduct, left, middle⟩ := ihFirst
    obtain ⟨reduct', middle', right⟩ := ihSecond
    obtain ⟨last, fst, snd⟩ := church_rosser diamond middle middle'
    exact ⟨last, left.trans fst, right.trans snd⟩
  | @app fn fn' arg arg' _ _ ihFn ihArg =>
    obtain ⟨reduct, left, right⟩ := ihFn
    obtain ⟨reduct', left', right'⟩ := ihArg
    refine ⟨.app reduct reduct', ?_, ?_⟩
    · exact (left.lift (Lambda.app · arg) fun _ _ par => .app par (.refl _)).trans
        (left'.lift (Lambda.app reduct) fun _ _ => .app (.refl _))
    · exact (right.lift (Lambda.app · arg') fun _ _ par => .app par (.refl _)).trans
        (right'.lift (Lambda.app reduct) fun _ _ => .app (.refl _))
  | lam last _ ih =>
    obtain ⟨reduct, left, right⟩ := ih
    exact ⟨.lam last reduct, left.lift _ fun _ _ => .lam last, right.lift _ fun _ _ => .lam last⟩

def Reduced : Lambda → Prop
  | var _ | atom _ => True
  | lam _ body => body.Reduced
  | app fn arg => fn.Reduced ∧ arg.Reduced ∧ ∀ last body, fn ≠ lam last body

theorem Par.eq_of_reduced (par : Par term term') (reduced : term.Reduced) : term' = term := by
  induction par with
  | var _ | atom _ => rfl
  | app _ _ ihFn ihArg => rw [ihFn reduced.1, ihArg reduced.2.1]
  | lam last _ ih => rw [ih reduced]
  | beta last _ _ _ _ => exact absurd rfl (reduced.2.2 last _)

theorem Equal.eq_of_reduced (equal : Equal first second) (reduced : first.Reduced)
    (reduced' : second.Reduced) : first = second := by
  have stays : ∀ {term reduct : Lambda}, term.Reduced → Relation.ReflTransGen Par term reduct →
      reduct = term := by
    intro term reduct reduced steps
    induction steps with
    | refl => rfl
    | tail _ par ih => exact (par.eq_of_reduced (ih.symm ▸ reduced)).trans ih
  obtain ⟨reduct, left, right⟩ := equal.join
  exact (stays reduced left).symm.trans (stays reduced' right)

end Reduction

section Lams

variable {ν : Type} {params others : List ν} {term term' : Lambda}

def lams : List ν → Lambda → Lambda
  | [], body => body
  | _ :: ps, body => lam ps.isEmpty (lams ps body)

theorem lams_inj (some : params ≠ []) (some' : others ≠ [])
    (same : lams params term = lams others term') :
    params.length = others.length ∧ term = term' := by
  induction params generalizing others with
  | nil => exact absurd rfl some
  | cons p params ih =>
    obtain ⟨q, others, rfl⟩ := List.exists_cons_of_ne_nil some'
    obtain ⟨last, bodies⟩ := Lambda.lam.inj same
    cases params with
    | nil =>
      obtain rfl : others = [] := List.isEmpty_iff.mp last.symm
      exact ⟨rfl, bodies⟩
    | cons r params =>
      have further : others ≠ [] := fun none_ => by
        rw [none_] at last
        cases last
      exact (ih (List.cons_ne_nil r params) further bodies).imp_left (congrArg Nat.succ)

theorem Equal.lams (equal : Equal term term') (params : List ν) : Equal (lams params term)
    (lams params term') := by
  induction params with
  | nil => exact equal
  | cons _ _ ih => exact .lam _ ih

end Lams

section Names

variable {ν : Type} [DecidableEq ν] {meaning meaning' : ν → Lambda} {params : List ν} {v : ν}

def enter (param : ν) (meaning : ν → Lambda) : ν → Lambda :=
  fun v => if v = param then var 0 else (meaning v).raise 1

def enterAll : List ν → (ν → Lambda) → ν → Lambda
  | [], meaning => meaning
  | p :: ps, meaning => enterAll ps (enter p meaning)

/-- Names that are given terms. Of two terms for one name the later one counts. -/
def assign : List ν → List Lambda → (ν → Lambda) → ν → Lambda
  | p :: ps, arg :: args, meaning => assign ps args (Function.update meaning p arg)
  | _, _, meaning => meaning

theorem enterAll_of_not_mem (outer : v ∉ params) :
    enterAll params meaning v = (meaning v).raise params.length := by
  induction params generalizing meaning with
  | nil => exact (raise_zero _).symm
  | cons p params ih =>
    obtain ⟨different, outer⟩ := not_or.mp (mt List.mem_cons.mpr outer)
    rw [enterAll, ih outer, enter, if_neg different, raise_raise, List.length_cons]

theorem enterAll_of_mem (inner : v ∈ params) : enterAll params meaning v = var
    (params.reverse.idxOf v) := by
  induction params generalizing meaning with
  | nil => cases inner
  | cons p params ih =>
    rw [enterAll, List.reverse_cons]
    by_cases later : v ∈ params
    · rw [ih later, List.idxOf_append_of_mem (List.mem_reverse.mpr later)]
    · obtain rfl := (List.mem_cons.mp inner).resolve_right later
      rw [enterAll_of_not_mem later, enter, if_pos rfl,
        List.idxOf_append_of_notMem (mt List.mem_reverse.mp later), List.idxOf_cons_self,
        List.length_reverse]
      exact congrArg var (Nat.add_comm _ _)

theorem enterAll_congr (same : v ∉ params → meaning v = meaning' v) :
    enterAll params meaning v = enterAll params meaning' v := by
  by_cases inner : v ∈ params
  · rw [enterAll_of_mem inner, enterAll_of_mem inner]
  · rw [enterAll_of_not_mem inner, enterAll_of_not_mem inner, same inner]

theorem enter_subst (param : ν) (meaning : ν → Lambda) (images : Nat → Lambda) :
    (fun v => (enter param meaning v).subst (up images)) = enter param fun v =>
    (meaning v).subst images := by
  funext v
  rw [enter, enter]
  split
  · rfl
  · exact up_raise _ _

theorem enter_inst (param : ν) (meaning : ν → Lambda) (arg : Lambda) :
    (fun v => (enter param meaning v).subst (only arg)) = Function.update meaning param arg := by
  funext v
  rw [enter, Function.update_apply]
  split
  · rfl
  · exact raise_inst _ arg

/-- A term that depends on what names stand for, wherever it is put. -/
def Natural (term : (ν → Lambda) → Lambda) : Prop :=
  ∀ meaning images, (term meaning).subst images = term fun v => (meaning v).subst images

theorem Natural.lams {term : (ν → Lambda) → Lambda} (natural : Natural term) (params : List ν) :
    Natural fun meaning => lams params (term (enterAll params meaning)) := by
  induction params with
  | nil => exact natural
  | cons p params ih =>
    intro meaning images
    refine congrArg (lam params.isEmpty) ((ih _ _).trans ?_)
    rw [enter_subst]
    rfl

end Names

section Spine

variable {fn fn' arg : Lambda} {args args' : List Lambda} {images : Nat → Lambda}

def spine (fn : Lambda) (args : List Lambda) : Lambda := args.foldl app fn

@[simp] theorem spine_nil (fn : Lambda) : spine fn [] = fn := rfl

@[simp] theorem spine_cons (fn arg : Lambda) (args : List Lambda) : spine fn (arg :: args) = spine
    (app fn arg) args := rfl

theorem spine_append (fn : Lambda) (args args' : List Lambda) : spine fn (args ++ args') = spine
    (spine fn args) args' :=
  List.foldl_append

theorem subst_spine (fn : Lambda) (args : List Lambda) (images : Nat → Lambda) :
    (spine fn args).subst images = spine (fn.subst images) (args.map (subst images)) := by
  induction args generalizing fn with
  | nil => rfl
  | cons arg args ih => exact ih _

theorem Equal.spine (fst : Equal fn fn') (each : List.Forall₂ Equal args args') :
    Equal (spine fn args) (spine fn' args') := by
  induction each generalizing fn fn' with
  | nil => exact fst
  | cons first _ ih => exact ih (.app fst first)

theorem Equal.spine_left (fst : Equal fn fn') (args : List Lambda) : Equal (Lambda.spine fn args)
    (Lambda.spine fn' args) :=
  fst.spine (List.forall₂_same.mpr fun arg _ => .refl arg)

theorem Natural.equal_spine {ν : Type} [DecidableEq ν] {term : (ν → Lambda) → Lambda}
    (natural : Natural term) (params : List ν) (args : List Lambda) (meaning : ν → Lambda) :
    Equal (Lambda.spine (Lambda.lams params (term (enterAll params meaning))) args)
      (Lambda.spine (Lambda.lams (params.drop args.length)
        (term (enterAll (params.drop args.length) (assign params args meaning))))
        (args.drop params.length)) := by
  induction params generalizing args meaning with
  | nil => cases args <;> exact .refl _
  | cons p params ih =>
    cases args with
    | nil => exact .refl _
    | cons arg args =>
      refine .trans (Equal.spine_left (.beta _ _ arg) args) ?_
      have replaced := natural.lams params (enter p meaning) (only arg)
      rw [enter_inst] at replaced
      rw [inst, enterAll, replaced]
      exact ih args _

end Spine

section Heads

def head : Lambda → Lambda
  | app fn _ => fn.head
  | other => other

def operands : Lambda → List Lambda
  | app fn arg => fn.operands ++ [arg]
  | _ => []

theorem head_spine (fn : Lambda) (args : List Lambda) : (spine fn args).head = fn.head := by
  induction args generalizing fn with
  | nil => rfl
  | cons arg args ih => exact ih _

theorem operands_spine (fn : Lambda) (args : List Lambda) :
    (spine fn args).operands = fn.operands ++ args := by
  induction args generalizing fn with
  | nil => exact (List.append_nil _).symm
  | cons arg args ih =>
    rw [spine_cons, ih, operands, List.append_assoc]
    rfl

theorem spine_head_operands (term : Lambda) : spine term.head term.operands = term := by
  induction term with
  | app fn arg ih _ =>
    rw [head, operands, spine_append, ih]
    rfl
  | var _ | atom _ | lam _ _ => rfl

def demand : Lambda → Nat
  | atom .arrow => 2
  | atom (.tuple count) | atom (.nominal _ count) => count
  | _ => 0

/-- What variables stand for in the end: an index or a name. -/
inductive IsLeaf : Lambda → Prop where
  | var (index : Nat) : IsLeaf (var index)
  | named (name : Name) : IsLeaf (atom (.named name))

inductive Form where
  | var
  | arrow
  | tuple (count : Nat)
  | nominal (template : TemplateId) (count : Nat)
  | quantified
  | app

def form (term : Lambda) : Form :=
  if term.operands.length = term.head.demand then
    match term.head with
    | atom .arrow => .arrow
    | atom (.tuple count) => .tuple count
    | atom (.nominal template count) => .nominal template count
    | lam _ _ => .quantified
    | _ => .var
  else .app

theorem IsLeaf.raise {term : Lambda} (leaf : term.IsLeaf) (count : Nat) :
    (term.raise count).IsLeaf := by
  cases leaf with
  | var index => exact .var _
  | named name => exact .named name

theorem IsLeaf.operands {term : Lambda} (leaf : term.IsLeaf) :
    term.operands.length = term.head.demand := by
  cases leaf <;> rfl

theorem IsLeaf.form {term : Lambda} (leaf : term.IsLeaf) : term.form = .var := by
  cases leaf <;> rfl

theorem IsLeaf.reduced {term : Lambda} (leaf : term.IsLeaf) : term.Reduced := by
  cases leaf <;> trivial

theorem reduced_spine {fn : Lambda} {args : List Lambda} (reduced : fn.Reduced)
    (plain : ∀ last body, fn ≠ .lam last body)
    (each : ∀ arg ∈ args, arg.Reduced) : (spine fn args).Reduced := by
  induction args generalizing fn with
  | nil => exact reduced
  | cons arg args ih =>
    obtain ⟨first, rest⟩ := List.forall_mem_cons.mp each
    exact ih ⟨reduced, first, plain⟩ nofun rest

theorem reduced_lams {ν : Type} {params : List ν} {body : Lambda} (reduced : body.Reduced) :
    (lams params body).Reduced := by
  induction params with
  | nil => exact reduced
  | cons _ _ ih => exact ih

theorem isLeaf_enterAll {ν : Type} [DecidableEq ν] {meaning : ν → Lambda}
    (leaves : ∀ v, (meaning v).IsLeaf)
    (params : List ν) (v : ν) : (enterAll params meaning v).IsLeaf := by
  by_cases inner : v ∈ params
  · rw [enterAll_of_mem inner]
    exact .var _
  · rw [enterAll_of_not_mem inner]
    exact (leaves v).raise _

end Heads

end Lambda

end PolyCheck
