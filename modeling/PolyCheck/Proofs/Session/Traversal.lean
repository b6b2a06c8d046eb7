import PolyCheck.Proofs.Run
import PolyCheck.Proofs.Subst.Links
import PolyCheck.Session.Toplevel

/-! What every check keeps. The checks change cells and definitions by few operations only, so what
these operations keep survives every unit up to the point where it ends or fails. The scopes are
always left as they were found. -/
namespace PolyCheck

open Run

section Unify

variable {inv : Subst → Prop}

theorem Unify.keeps_finished {α : Type} (result : Option α) :
    Keeps inv anything (Unify.finished result) := by
  cases result with
  | none => exact .throw _
  | some value => exact .pure trivial

theorem Subst.pushMany_induction {cell : Cell}
    (pushed : ∀ {subst}, inv subst → inv (subst.push cell).2)
    {subst : Subst} (holds : inv subst) (count : Nat) : inv (subst.pushMany cell count).2 := by
  induction count generalizing subst with
  | zero => exact holds
  | succ count ih => exact ih (pushed holds)

section Written

variable (written : ∀ {subst} (v : TyVar) (cell : Cell), subst.isRigid v = false → inv subst →
  inv (subst.write v cell))
include written

theorem Unify.keeps_vars (x y : TyVar) : Keeps inv anything (Unify.vars x y) := by
  refine Keeps.get.bind fun {subst} holds => ?_
  split
  · exact .pure trivial
  · split
    · rename_i flexible
      exact .set (written x (.link y) (by simpa using flexible) holds)
    · split
      · rename_i flexible
        exact .set (written y (.link x) (by simpa using flexible) holds)
      · exact .throw _

theorem Unify.keeps_varWith (depth : Nat) (x : TyVar) (ty : Ty) :
    Keeps inv anything (Unify.varWith depth x ty) := by
  refine Keeps.get.bind fun {subst} holds => ?_
  split
  · exact .throw _
  · rename_i flexible
    refine (keeps_finished _).bind fun {occurs} _ => ?_
    split
    · exact .throw _
    · exact .set (written x (.bound ty) (by simpa using flexible) holds)

end Written

variable (pushed : ∀ {subst} {cell : Cell}, cell.IsNew → inv subst → inv (subst.push cell).2)
include pushed

theorem Unify.keeps_skolems (count : Nat) : Keeps inv anything (Unify.skolems count) :=
  fun _ holds => ⟨Subst.pushMany_induction (pushed (Cell.isNew_rigid none)) holds count, trivial⟩

theorem Unify.keeps_etaExpand? (ty : Ty) (count : Nat) :
    Keeps inv anything (Unify.etaExpand? ty count) := by
  unfold Unify.etaExpand?
  split
  · exact .pure trivial
  · split
    · exact .pure trivial
    · exact (keeps_skolems pushed count).bind fun _ => .pure trivial

variable (written : ∀ {subst} (v : TyVar) (cell : Cell), subst.isRigid v = false → inv subst →
  inv (subst.write v cell))
include written

theorem Unify.keeps_step (depth : Nat) (pair : Ty × Ty) :
    Keeps inv anything (Unify.step depth pair) := by
  refine Keeps.get.bind fun {subst} _ => ?_
  refine (keeps_finished _).bind fun {left} _ => (keeps_finished _).bind fun {right} _ => ?_
  split
  · exact (keeps_vars written _ _).bind fun _ => .pure trivial
  · exact (keeps_varWith written _ _ _).bind fun _ => .pure trivial
  · exact (keeps_varWith written _ _ _).bind fun _ => .pure trivial
  · exact .pure trivial
  · split
    · exact .pure trivial
    · exact .throw _
  · split
    · exact .pure trivial
    · exact .throw _
  · split
    · refine (keeps_skolems pushed _).bind fun _ => Keeps.get.bind fun _ => ?_
      exact (keeps_finished _).bind fun _ => (keeps_finished _).bind fun _ => .pure trivial
    · exact .throw _
  · exact .pure trivial
  · refine (keeps_etaExpand? pushed _ _).bind fun {expanded} _ => ?_
    cases expanded with
    | none => exact .throw _
    | some _ => exact .pure trivial
  · refine (keeps_etaExpand? pushed _ _).bind fun {expanded} _ => ?_
    cases expanded with
    | none => exact .throw _
    | some _ => exact .pure trivial
  · exact .throw _

theorem Subst.keeps_unify (left right : Ty) : Keeps inv anything (Subst.unify left right) :=
  Keeps.get.bind fun _ =>
    .walk (.throw _) (fun depth pair => Unify.keeps_step pushed written depth pair) _

end Unify

/-- What new variables and new integer types do not break. -/
structure Growing (inv : Subst → Registry → Prop) : Prop where
  push : ∀ {subst registry} {cell : Cell}, cell.IsNew → inv subst registry →
    inv (subst.push cell).2 registry
  int : ∀ {subst registry} (width : Nat), inv subst registry →
    inv subst (registry.intTemplate width).2

/-- What no operation on cells and no new integer type breaks. Cells of rigid variables are not
written. -/
structure Solving (inv : Subst → Registry → Prop) : Prop extends Growing inv where
  write : ∀ {subst registry} (v : TyVar) (cell : Cell), subst.isRigid v = false →
    inv subst registry → inv (subst.write v cell) registry

/-- A definition that is still being written; a sealed one keeps its cases. -/
structure Template.Revises (old new : Template) : Prop where
  builtin : new.builtin = old.builtin
  params : new.paramVars = old.paramVars
  isSealed : old.isSealed = true → new.isSealed = true ∧ new.cases = old.cases

/-- What declarations of types do not break up to the point where their constructors are registered.
Definitions are changed only while they are the unit's own. -/
structure Declaring (inv : Subst → Registry → Prop) (own : TemplateId → Prop) : Prop
    extends Growing inv where
  alloc : ∀ {subst registry} {template : Template}, template.builtin = none →
    template.paramVars.Nodup → inv subst registry →
    inv subst (registry.alloc template).2 ∧ own (registry.alloc template).1
  modify : ∀ {subst registry} {id : TemplateId} {change : Template → Template}, own id →
    (∀ template, registry.template? id = some template → template.Revises (change template)) →
    inv subst registry → inv subst (registry.modifyTemplate id change)
  defineData : ∀ {subst registry} (name : Name) (id : TemplateId), inv subst registry →
    inv subst (registry.defineType name (.data id))

structure Lasting (inv : Subst → Registry → Prop) (own : TemplateId → Prop) : Prop
    extends Declaring inv own, Solving inv where
  defineSynonym : ∀ {subst registry} (name : Name) (ty : Ty) (kind : Kind), inv subst registry →
    inv subst (registry.defineType name (.synonym ty kind))
  defineCtor : ∀ {subst registry} (info : CtorInfo), inv subst registry →
    inv subst (registry.defineCtor info)

namespace Check

variable {inv : Subst → Registry → Prop} {own : TemplateId → Prop} {α β τ : Type}

/-- A session with given scopes and options, and with the names minted so far or more. -/
structure Around (inv : Subst → Registry → Prop) (env : Env) (options : Options)
    (names : NameSupply) (session : Session) : Prop where
  env : session.env = env
  options : session.options = options
  names : names.next ≤ session.names.next
  holds : inv session.subst session.registry

/-- A check that keeps an invariant of cells and definitions, and that leaves scopes and options as
they are. -/
def Steady (inv : Subst → Registry → Prop) (post : α → Prop) (check : Check α) : Prop :=
  ∀ env options names, Keeps (Around inv env options names) post check

namespace Steady

variable {post : α → Prop} {post' : β → Prop} {check : Check α} {next : α → Check β}

theorem bind (first : Steady inv post check)
    (then_ : ∀ {value}, post value → Steady inv post' (next value)) :
    Steady inv post' (check >>= next) :=
  fun env options names => (first env options names).bind fun holds => then_ holds env options names

theorem pure {value : α} (holds : post value) : Steady inv post (Pure.pure value : Check α) :=
  fun _ _ _ => .pure holds

theorem throw (error : TypeError) : Steady inv post (throw error : Check α) :=
  fun _ _ _ => .throw error

theorem fail (cause : ErrorCause) (span : Span) :
    Steady inv post (Check.fail cause span : Check α) :=
  throw _

theorem get : Steady inv anything (get : Check Session) :=
  fun _ _ _ => Keeps.get.weaken

theorem map (steady : Steady inv post check) (change : α → β) :
    Steady inv anything (change <$> check) :=
  fun env options names => (steady env options names).map change

theorem forM {items : List α} {visit : α → Check PUnit}
    (each : ∀ item ∈ items, Steady inv anything (visit item)) :
    Steady inv anything (forM items visit) :=
  fun env options names => .forM fun item member => each item member env options names

theorem mapM {items : List α} {visit : α → Check β}
    (each : ∀ item ∈ items, Steady inv post' (visit item)) :
    Steady inv (fun results => ∀ result ∈ results, post' result) (items.mapM visit) :=
  fun env options names => .mapM fun item member => each item member env options names

theorem onSubst {change : Subst → α × Subst}
    (changed : ∀ {subst registry}, inv subst registry → inv (change subst).2 registry) :
    Steady inv anything (Check.onSubst change) :=
  fun _ _ _ _ around => ⟨⟨around.env, around.options, around.names, changed around.holds⟩, trivial⟩

theorem onRegistry {change : Registry → α × Registry}
    (changed : ∀ {subst registry}, inv subst registry →
      inv subst (change registry).2 ∧ post (change registry).1) :
    Steady inv post (Check.onRegistry change) :=
  fun _ _ _ _ around => ⟨⟨around.env, around.options, around.names, (changed around.holds).1⟩,
    (changed around.holds).2⟩

theorem mint (stem : String) : Steady inv anything (Check.mint stem) :=
  fun _ _ _ _ around =>
    ⟨⟨around.env, around.options, Nat.le_succ_of_le around.names, around.holds⟩, trivial⟩

theorem foldl_bind_pop (bindings : List (Name × Scheme)) (env : Env) (scope : Scope) :
    (bindings.foldl (fun (env : Env) (name, scheme) => env.bind name scheme)
      { env with inner := scope :: env.inner }).pop.2 = env := by
  induction bindings generalizing scope with
  | nil => rfl
  | cons binding bindings ih => exact ih _

/-- The scope that is entered is left again, with whatever the body did to it undone. -/
theorem inScope (steady : Steady inv post check) (bindings : List (Name × Scheme)) :
    Steady inv post (Check.inScope bindings check) := by
  intro env options names session ⟨sameEnv, sameOptions, later, holds⟩
  subst sameEnv
  have after := steady _ options names { session with
    env := bindings.foldl (fun env (name, scheme) => env.bind name scheme) session.env.push }
    ⟨rfl, sameOptions, later, holds⟩
  simp only [Check.inScope]
  have popped := foldl_bind_pop bindings session.env .empty
  cases result : check _ with
  | ok value after' =>
    rw [result] at after
    obtain ⟨⟨env', options', later', holds'⟩, described⟩ := after
    exact ⟨⟨env' ▸ popped, options', later', holds'⟩, described⟩
  | error error after' =>
    rw [result] at after
    obtain ⟨env', options', later', holds'⟩ := after
    exact ⟨env' ▸ popped, options', later', holds'⟩

theorem keeps (steady : Steady inv post check) :
    Keeps (fun session => inv session.subst session.registry) post check := by
  intro session holds
  have after :=
    steady session.env session.options session.names session ⟨rfl, rfl, Nat.le_refl _, holds⟩
  cases result : check session with
  | ok value after' =>
    rw [result] at after
    exact ⟨after.1.holds, after.2⟩
  | error error after' =>
    rw [result] at after
    exact after.holds

end Steady

def SteadyWith (inv : Subst → Registry → Prop) (post : α → Prop)
    (check : StateT τ Check α) : Prop :=
  ∀ state, Steady inv (fun result => post result.1) (check state)

namespace SteadyWith

variable {post : α → Prop} {post' : β → Prop} {check : StateT τ Check α}
  {next : α → StateT τ Check β}

theorem bind (first : SteadyWith inv post check)
    (then_ : ∀ {value}, post value → SteadyWith inv post' (next value)) :
    SteadyWith inv post' (check >>= next) :=
  fun state => (first state).bind fun holds => then_ holds _

theorem pure {value : α} (holds : post value) :
    SteadyWith inv post (Pure.pure value : StateT τ Check α) :=
  fun _ => .pure holds

theorem describe {described : α → Prop} (steady : SteadyWith inv post check)
    (shown : ∀ {state state' session after value},
      check state session = .ok (value, state') after → described value) :
    SteadyWith inv described check := by
  intro state env options names session around
  have after := steady state env options names session around
  cases result : check state session with
  | ok value after' =>
    rw [result] at after
    exact ⟨after.1, shown result⟩
  | error error after' =>
    rw [result] at after
    exact after

theorem lift {check : Check α} (steady : Steady inv post check) :
    SteadyWith inv post (liftM check : StateT τ Check α) :=
  fun _ => steady.bind fun holds => .pure holds

theorem get : SteadyWith inv anything (get : StateT τ Check τ) :=
  fun _ => .pure trivial

theorem getSession {next : Session → StateT τ Check β}
    (then_ : ∀ session state env options names, Around inv env options names session →
      match next session state session with
      | .ok value after => Around inv env options names after ∧ post' value.1
      | .error _ after => Around inv env options names after) :
    SteadyWith inv post' ((getThe Session : StateT τ Check Session) >>= next) := by
  intro state env options names session around
  have read : ((getThe Session : StateT τ Check Session) >>= next) state session =
      next session state session := rfl
  have after := then_ session state env options names around
  rw [read]
  cases result : next session state session with
  | ok value after' =>
    rw [result] at after
    exact after
  | error error after' =>
    rw [result] at after
    exact after

theorem set (state : τ) : SteadyWith inv anything (set state : StateT τ Check PUnit) :=
  fun _ => .pure trivial

theorem modify (change : τ → τ) : SteadyWith inv anything (modify change : StateT τ Check PUnit) :=
  fun _ => .pure trivial

theorem modifyGet (change : τ → α × τ) :
    SteadyWith inv anything (modifyGet change : StateT τ Check α) :=
  fun _ => .pure trivial

theorem forM {items : List α} {visit : α → StateT τ Check PUnit}
    (each : ∀ item ∈ items, SteadyWith inv anything (visit item)) :
    SteadyWith inv anything (forM items visit) := by
  induction items with
  | nil => exact .pure trivial
  | cons item items ih =>
    rw [List.forM_cons]
    exact (each item List.mem_cons_self).bind fun _ =>
      ih fun other member => each other (List.mem_cons_of_mem item member)

theorem mapM {items : List α} {visit : α → StateT τ Check β}
    (each : ∀ item ∈ items, SteadyWith inv post' (visit item)) :
    SteadyWith inv (fun results => ∀ result ∈ results, post' result) (items.mapM visit) := by
  induction items with
  | nil => exact .pure nofun
  | cons item items ih =>
    rw [List.mapM_cons]
    refine (each item List.mem_cons_self).bind fun {value} first => ?_
    refine (ih fun other member => each other (List.mem_cons_of_mem item member)).bind
      fun {values} rest => .pure fun result member => ?_
    rcases List.mem_cons.mp member with rfl | member
    · exact first
    · exact rest result member

theorem run (steady : SteadyWith inv post check) (state : τ) :
    Steady inv (fun result => post result.1) (check.run state) :=
  steady state

theorem run' (steady : SteadyWith inv post check) (state : τ) :
    Steady inv post (check.run' state) :=
  fun env options names session around => by
    have after := steady state env options names session around
    simp only [StateT.run', map_apply]
    cases result : check state session with
    | ok value after' =>
      rw [result] at after
      exact after
    | error error after' =>
      rw [result] at after
      exact after

end SteadyWith

end Check

end PolyCheck
