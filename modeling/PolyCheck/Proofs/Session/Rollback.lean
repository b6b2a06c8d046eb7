import PolyCheck.Proofs.Journal
import PolyCheck.Proofs.Session.Lasting

/-! Units take effect as a whole or not at all. Between two units no snapshot is open and the
journals are empty. While a unit is checked everything it does can be undone, wherever it stops; so
after a failure the session is the one before it, except for findings and minted names. -/
namespace PolyCheck

open Run

namespace Session

inductive Reachable (options : Options) : Session → Prop where
  | start : Reachable options (Session.start options)
  | decl {session after : Session} (before : Reachable options session) (written : Surface.Decl)
    (result : (∃ checked, Check.decl written session = .ok checked after) ∨
      ∃ error, Check.decl written session = .error error after) : Reachable options after

structure Settled (session : Session) : Prop where
  substOpened : session.subst.opened = 0
  substJournal : session.subst.journal = []
  registryOpened : session.registry.opened = 0
  registryJournal : session.registry.journal = []

end Session

namespace Check

variable {base : Subst} {base' : Registry}

theorem lasting_undoable (isOpen : 0 < base.opened) (isOpen' : 0 < base'.opened) :
    Lasting (fun subst registry => base.Undoable subst ∧ base'.Undoable registry)
      (fun id => base'.templates.size ≤ id.index) where
  push _ holds := ⟨holds.1.push _, holds.2⟩
  write v cell _ holds := ⟨holds.1.write isOpen v cell, holds.2⟩
  int width holds := ⟨holds.1, holds.2.intTemplate isOpen' width⟩
  alloc _ _ holds := ⟨⟨holds.1, holds.2.alloc _⟩, holds.2.size_le⟩
  modify isOwn _ holds := ⟨holds.1, holds.2.modifyTemplate isOwn _⟩
  defineData name id holds := ⟨holds.1, holds.2.defineType isOpen' name (.data id)⟩
  defineSynonym name ty kind holds := ⟨holds.1, holds.2.defineType isOpen' name (.synonym ty kind)⟩
  defineCtor info holds := ⟨holds.1, holds.2.defineCtor isOpen' info⟩

/-- The session in which the checks of a unit run. -/
def opened (session : Session) : Session :=
  { session with
    registry := session.registry.checkpoint.2
    subst := session.subst.snapshot.2 }

structure Undoable (session after : Session) : Prop where
  env : after.env = session.env
  options : after.options = session.options
  names : session.names.next ≤ after.names.next
  subst : (opened session).subst.Undoable after.subst
  registry : (opened session).registry.Undoable after.registry

theorem unit_undoable (written : Surface.Decl) (session : Session) :
    match unit written (opened session) with
    | .ok _ after => Undoable session after
    | .error _ after => Undoable session after := by
  have lasting := @lasting_undoable (opened session).subst (opened session).registry
    (Nat.succ_pos _) (Nat.succ_pos _)
  have after :=
    steady_unit lasting written session.env session.options session.names (opened session)
    ⟨rfl, rfl, Nat.le_refl _, Subst.undoable_refl _, Registry.undoable_refl _⟩
  cases result : unit written (opened session) with
  | ok checked after' =>
    rw [result] at after
    obtain ⟨⟨env, options, names, undoable, undoable'⟩, -⟩ := after
    exact ⟨env, options, names, undoable, undoable'⟩
  | error error after' =>
    rw [result] at after
    obtain ⟨env, options, names, undoable, undoable'⟩ := after
    exact ⟨env, options, names, undoable, undoable'⟩

variable {written : Surface.Decl} {session reached after : Session} {found checked : CheckedDecl}
  {error : TypeError}

theorem resolvedUnit_eq_ok : resolvedUnit written session = .ok found reached ↔
    unit written session = .ok found reached ∧ found.resolves reached.subst = true := by
  unfold resolvedUnit
  rw [bind_eq_ok]
  constructor
  · rintro ⟨checked, middle, run, rest⟩
    obtain ⟨ends, finish⟩ := ending_bind_eq_ok.mp rest
    obtain ⟨rfl, rfl⟩ := pure_eq_ok.mp finish
    exact ⟨run, ends⟩
  · rintro ⟨run, ends⟩
    exact ⟨found, reached, run, ending_bind_eq_ok.mpr ⟨ends, rfl⟩⟩

/-- A unit stops in one of its checks, or at its end because of a type that cannot be resolved. -/
theorem resolvedUnit_eq_error (run : resolvedUnit written session = .error error reached) :
    unit written session = .error error reached ∨ ∃ found,
      unit written session = .ok found reached := by
  unfold resolvedUnit at run
  rcases bind_eq_error.mp run with early | ⟨found, middle, whole, late⟩
  · exact .inl early
  · rw [bind_apply, ending_apply] at late
    cases ends : found.resolves middle.subst with
    | true => simp [ends, pure_apply] at late
    | false =>
      rw [ends] at late
      obtain ⟨-, rfl⟩ := EStateM.Result.error.inj late
      exact .inr ⟨found, whole⟩

theorem undoable_of_ok (run : unit written (opened session) = .ok found reached) :
    Undoable session reached := by
  have undoable := unit_undoable written session
  rwa [run] at undoable

theorem undoable_of_error (run : resolvedUnit written (opened session) = .error error reached) :
    Undoable session reached := by
  have undoable := unit_undoable written session
  rcases resolvedUnit_eq_error run with early | ⟨found, whole⟩
  · rwa [early] at undoable
  · rwa [whole] at undoable

theorem decl_of_ok (run : resolvedUnit written (opened session) = .ok found reached) :
    decl written session = .ok (found.zonk reached.subst) { reached with
      env := (found.zonk reached.subst).definitions.foldl (fun env definition =>
        env.bindGlobal definition.name definition.scheme) reached.env
      registry := reached.registry.commit
      subst := reached.subst.commit } := by
  unfold opened at run
  simp only [decl, run]

theorem decl_of_error (run : resolvedUnit written (opened session) = .error error reached) :
    decl written session = .error error { reached with
      registry := reached.registry.rollback session.registry.checkpoint.1
      subst := reached.subst.rollback session.subst.snapshot.1
      env := reached.env.truncate session.env.depth } := by
  unfold opened at run
  simp only [decl, run]

theorem exists_unit_of_ok (accepted : decl written session = .ok checked after) :
    ∃ found reached, unit written (opened session) = .ok found reached ∧
      checked = found.zonk reached.subst ∧ after = { reached with
        env := checked.definitions.foldl (fun env definition =>
          env.bindGlobal definition.name definition.scheme) reached.env
        registry := reached.registry.commit
        subst := reached.subst.commit } := by
  cases run : resolvedUnit written (opened session) with
  | ok found reached =>
    rw [decl_of_ok run] at accepted
    obtain ⟨rfl, rfl⟩ := EStateM.Result.ok.inj accepted
    exact ⟨found, reached, (resolvedUnit_eq_ok.mp run).1, rfl, rfl⟩
  | error error reached => simp [decl_of_error run] at accepted

theorem exists_unit_of_error (refused : decl written session = .error error after) :
    ∃ reached, resolvedUnit written (opened session) = .error error reached ∧ after = { reached with
      registry := reached.registry.rollback session.registry.checkpoint.1
      subst := reached.subst.rollback session.subst.snapshot.1
      env := reached.env.truncate session.env.depth } := by
  cases run : resolvedUnit written (opened session) with
  | ok found reached => simp [decl_of_ok run] at refused
  | error error reached =>
    rw [decl_of_error run] at refused
    obtain ⟨rfl, rfl⟩ := EStateM.Result.error.inj refused
    exact ⟨reached, rfl, rfl⟩

end Check

namespace Session

open Check

theorem Settled.restored {session after : Session} (settled : session.Settled)
    {written : Surface.Decl} {error : TypeError}
    (failed : Check.decl written session = .error error after) :
    after = { session with names := after.names, pending := after.pending } := by
  obtain ⟨reached, run, rfl⟩ := exists_unit_of_error failed
  have undoable := undoable_of_error run
  have subst : reached.subst.rollback session.subst.snapshot.1 = session.subst :=
    undoable.subst.rollback.trans
      (Subst.close_snapshot settled.substOpened settled.substJournal)
  have registry : reached.registry.rollback session.registry.checkpoint.1 = session.registry :=
    undoable.registry.rollback.trans
      (Registry.close_checkpoint settled.registryOpened settled.registryJournal)
  have env : reached.env.truncate session.env.depth = session.env := by
    simp [Env.truncate, Env.depth, undoable.env]
  simp only [subst, registry, env, undoable.options]

theorem settled_start (options : Options) : (Session.start options).Settled :=
  ⟨rfl, rfl, rfl, rfl⟩

theorem Settled.decl {session after : Session} (settled : session.Settled)
    {written : Surface.Decl} {checked : CheckedDecl}
    (accepted : Check.decl written session = .ok checked after) : after.Settled := by
  obtain ⟨found, reached, run, -, rfl⟩ := exists_unit_of_ok accepted
  have undoable := undoable_of_ok run
  have once : reached.subst.opened = 1 := by
    rw [undoable.subst.opened]
    simp [opened, Subst.snapshot, settled.substOpened]
  have once' : reached.registry.opened = 1 := by
    rw [undoable.registry.opened]
    simp [opened, Registry.checkpoint, settled.registryOpened]
  constructor <;> simp [Subst.commit, Subst.close, Registry.commit, Registry.close, once, once']

theorem Reachable.settled {options : Options} {session : Session}
    (reachable : session.Reachable options) : session.Settled := by
  induction reachable with
  | start => exact settled_start options
  | decl _ written result settled =>
    rcases result with ⟨checked, accepted⟩ | ⟨error, failed⟩
    · exact settled.decl accepted
    · rw [settled.restored failed]
      exact ⟨settled.substOpened, settled.substJournal, settled.registryOpened,
        settled.registryJournal⟩

/-- What accepted units keep holds after any units, when it does not speak of findings and minted
names: they are all that a refused unit leaves behind. -/
theorem Reachable.keeps {options : Options} {session : Session}
    (reachable : session.Reachable options)
    (holds : Session → Prop) (start : holds (Session.start options))
    (accepted : ∀ {session after : Session} {written : Surface.Decl} {checked : CheckedDecl},
      holds session → Check.decl written session = .ok checked after → holds after)
    (refused : ∀ {session : Session} (names : NameSupply) (pending : List Diagnostic),
      holds session → holds { session with names, pending }) : holds session := by
  induction reachable with
  | start => exact start
  | decl before _ result ih =>
    rcases result with ⟨checked, run⟩ | ⟨error, run⟩
    · exact accepted ih run
    · rw [before.settled.restored run]
      exact refused _ _ ih

/-- After a failed unit, cells, definitions, tables, scopes, journals and counters are those before
it, in every session that units can lead to. -/
theorem failed_unit_restores {options : Options} {session after : Session}
    (reachable : session.Reachable options) {written : Surface.Decl} {error : TypeError}
    (failed : Check.decl written session = .error error after) :
    after = { session with names := after.names, pending := after.pending } :=
  reachable.settled.restored failed

/-- The pair of a number and an unknown name: the integers it needed are gone again. -/
theorem failed_pair_restores :
    ∃ error after, Check.decl (.eval default (.tuple default
        [.lit default (.int 1 none), .ident default "x"])) (Session.start .standard) =
          .error error after ∧
      after = { Session.start .standard with names := after.names, pending := after.pending } := by
  obtain ⟨error, after, failed⟩ : ∃ error after, Check.decl (.eval default (.tuple default
      [.lit default (.int 1 none), .ident default "x"])) (Session.start .standard) =
        .error error after := ⟨_, _, rfl⟩
  exact ⟨error, after, failed, failed_unit_restores .start failed⟩

end Session

end PolyCheck
