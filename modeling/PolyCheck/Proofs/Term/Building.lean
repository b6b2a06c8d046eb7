import Mathlib
import PolyCheck.Proofs.Term.Mentions

/-! Evaluation while a recursive group is built. The names of the group stand for placeholders,
which may be stored but not used: not applied, not passed to a function, not matched. A recursive
let inside is evaluated in the same way; its own names stand for what their definitions give, which
is evaluated when it is used. The depth bounds a run. -/
namespace PolyCheck

/-- What a term gives while the group is built. -/
inductive Draft where
  | bool (value : Bool)
  | int (value : Int)
  | str (bytes : Bytes)
  | tuple (elems : List Draft)
  | ctor (index : Nat) (arg : Option Draft)
  | closure (param : Name) (body : Term) (env : List (Name × Draft))
  /-- The placeholder of a name of the group. -/
  | pending (name : Name)
  /-- A name of a recursive let inside, with the definitions of this let. -/
  | member (definitions : List Definition) (env : List (Name × Draft)) (name : Name)

/-- Names with what they stand for, the latest first. -/
abbrev Drafts := List (Name × Draft)

inductive Halt where
  | stuck
  | premature
  | unfinished
deriving DecidableEq

def Draft.ofConstant : Constant → Draft
  | .bool value => .bool value
  | .int _ value => .int value
  | .str bytes => .str bytes

/-- The names of a recursive let inside stand for its definitions. -/
def Drafts.knot (definitions : List Definition) (env : Drafts) : Drafts :=
  definitions.map (fun definition => (definition.name, .member definitions env definition.name)) ++
  env

namespace Draft

variable (settle : Draft → Except Halt Draft)

def demandWith (draft : Draft) : Except Halt Draft := do
  match ← settle draft with
  | pending _ => .error .premature
  | settled => .ok settled

def unpackWith : Nat → Option Draft → Except Halt (List Draft)
  | 0, none => .ok []
  | 1, some draft => .ok [draft]
  | _, some draft => do
    match ← demandWith settle draft with
    | tuple fields => .ok fields
    | _ => .error .stuck
  | _, none => .error .stuck

end Draft

namespace Pat

variable (settle : Draft → Except Halt Draft)

mutual

/-- What a pattern captures of what it matches. What the pattern looks into is used. -/
def matchWith : Pat → Draft → Except Halt (Option Drafts)
  | wild none, _ => .ok (some [])
  | wild (some name), draft => .ok (some [(name, draft)])
  | bool expected, draft => do
    match ← draft.demandWith settle with
    | .bool value => .ok (if expected = value then some [] else none)
    | _ => .error .stuck
  | int _ expected, draft => do
    match ← draft.demandWith settle with
    | .int value => .ok (if expected = value then some [] else none)
    | _ => .error .stuck
  | str expected, draft => do
    match ← draft.demandWith settle with
    | .str bytes => .ok (if expected = bytes then some [] else none)
    | _ => .error .stuck
  | tuple elems, draft => do
    match ← draft.demandWith settle with
    | .tuple fields => matchAllWith elems fields
    | _ => .error .stuck
  | ctor _ _ expected args, draft => do
    match ← draft.demandWith settle with
    | .ctor index arg =>
      if expected = index then do
        let fields ← Draft.unpackWith settle args.length arg
        matchAllWith args fields
      else .ok none
    | _ => .error .stuck
  | oneOf alternatives, draft => matchFirstWith alternatives draft

def matchAllWith : List Pat → List Draft → Except Halt (Option Drafts)
  | [], [] => .ok (some [])
  | p :: ps, draft :: drafts => do
    let first ← matchWith p draft
    let rest ← matchAllWith ps drafts
    pure (do pure ((← rest) ++ (← first)))
  | _, _ => .error .stuck

def matchFirstWith : List Pat → Draft → Except Halt (Option Drafts)
  | [], _ => .ok none
  | p :: ps, draft => do
    match ← matchWith p draft with
    | some captured => .ok (some captured)
    | none => matchFirstWith ps draft

end

end Pat

/-- The first case that matches, with the names that are known in its body. What a case captures
hides what is around it. -/
def Arm.selectWith (settle : Draft → Except Halt Draft) (env : Drafts) (draft : Draft) :
    List Arm → Except Halt (Drafts × Term)
  | [] => .error .stuck
  | ⟨pat, body⟩ :: arms => do
    match ← pat.matchWith settle draft with
    | some captured => .ok (captured ++ env.filter (·.1 ∉ pat.captures), body)
    | none => selectWith settle env draft arms

mutual

/-- What a term gives, call by value and from left to right. -/
def Term.draft : Nat → Drafts → Term → Except Halt Draft
  | 0, _, _ => .error .unfinished
  | depth + 1, env, term =>
    match term with
    | .var name _ =>
      match env.lookup name with
      | some draft => .ok draft
      | none => .error .stuck
    | .lit constant _ => .ok (.ofConstant constant)
    | .tuple elems _ => do
      let drafts ← elems.mapM (Term.draft depth env)
      pure (.tuple drafts)
    | .ctor _ _ index none _ => .ok (.ctor index none)
    | .ctor _ _ index (some arg) _ => do
      let arg ← Term.draft depth env arg
      pure (.ctor index (some arg))
    | .lambda param _ body _ => .ok (.closure param body env)
    | .app func arg _ => do
      let func ← Term.draft depth env func
      match ← func.demandWith (Draft.settle depth) with
      | .closure param body inner =>
        let arg ← Term.draft depth env arg
        let arg ← arg.demandWith (Draft.settle depth)
        Term.draft depth ((param, arg) :: inner) body
      | _ => .error .stuck
    | .letIn recursive definitions body _ => do
      let inner := if recursive then Drafts.knot definitions env else env
      let drafts ← definitions.mapM fun definition => do
        let draft ← Term.draft depth inner definition.value
        pure (definition.name, draft)
      Term.draft depth (drafts.reverse ++ env) body
    | .matchOn scrutinee arms _ => do
      let draft ← Term.draft depth env scrutinee
      let draft ← draft.demandWith (Draft.settle depth)
      let (env, body) ← Arm.selectWith (Draft.settle depth) env draft arms
      Term.draft depth env body
    | .failure _ => .error .stuck

/-- What a name of a recursive let stands for. -/
def Draft.settle : Nat → Draft → Except Halt Draft
  | 0, .member _ _ _ => .error .unfinished
  | depth + 1, .member definitions env name =>
    match definitions.find? (·.name = name) with
    | some definition => do
      let draft ← Term.draft depth (Drafts.knot definitions env) definition.value
      Draft.settle depth draft
    | none => .error .stuck
  | _, draft => .ok draft

end

def Safe {α : Type} (holds : α → Prop) : Except Halt α → Prop
  | .ok a => holds a
  | .error halt => halt ≠ .premature

section Safe

variable {α β : Type} {holds : α → Prop} {holds' : β → Prop}

theorem Safe.bind {run : Except Halt α} {next : α → Except Halt β} (safe : Safe holds run)
    (step : ∀ a, holds a → Safe holds' (next a)) : Safe holds' (run >>= next) := by
  cases run with
  | ok a => exact step a safe
  | error _ => exact safe

theorem Safe.imp {stronger : α → Prop} {run : Except Halt α} (safe : Safe stronger run)
    (weaker : ∀ a, stronger a → holds a) : Safe holds run := by
  cases run with
  | ok a => exact weaker a safe
  | error _ => exact safe

/-- What is given by the items of a list is what one of them gives, and each gives something. -/
def FromEach (related : α → β → Prop) (as : List α) (bs : List β) : Prop :=
  (∀ b ∈ bs, ∃ a ∈ as, related a b) ∧ ∀ a ∈ as, ∃ b ∈ bs, related a b

theorem Safe.mapM {related : α → β → Prop} {run : α → Except Halt β} {as : List α}
    (safe : ∀ a ∈ as, Safe (related a) (run a)) : Safe (FromEach related as) (as.mapM run) := by
  induction as with
  | nil => exact ⟨nofun, nofun⟩
  | cons a as ih =>
    obtain ⟨here, rest⟩ := List.forall_mem_cons.mp safe
    rw [List.mapM_cons]
    refine here.bind fun b given => (ih rest).bind fun bs others => ⟨?_, ?_⟩
    · refine List.forall_mem_cons.mpr ⟨⟨a, List.mem_cons_self, given⟩, fun other member => ?_⟩
      obtain ⟨source, inside, holds⟩ := others.1 other member
      exact ⟨source, List.mem_cons_of_mem a inside, holds⟩
    · refine List.forall_mem_cons.mpr ⟨⟨b, List.mem_cons_self, given⟩, fun other member => ?_⟩
      obtain ⟨target, inside, holds⟩ := others.2 other member
      exact ⟨target, List.mem_cons_of_mem b inside, holds⟩

end Safe

/-- Nothing that can be reached in it is a placeholder of the group. -/
inductive Draft.Clean : Draft → Prop where
  | bool {value : Bool} : Clean (.bool value)
  | int {value : Int} : Clean (.int value)
  | str {bytes : Bytes} : Clean (.str bytes)
  | tuple {elems : List Draft} (all : ∀ draft ∈ elems, Clean draft) : Clean (.tuple elems)
  | bare {index : Nat} : Clean (.ctor index none)
  | ctor {index : Nat} {arg : Draft} (inside : Clean arg) : Clean (.ctor index (some arg))
  | closure {param : Name} {body : Term} {env : Drafts}
      (reads : ∀ name draft, name ≠ param → body.Reads name → env.lookup name = some draft →
        Clean draft) :
      Clean (.closure param body env)
  | member {definitions : List Definition} {env : Drafts} {name : Name}
      (reads : ∀ other draft, other ∉ definitions.map (·.name) →
        Term.ReadsDefinitions other definitions →
        env.lookup other = some draft → Clean draft) : Clean (.member definitions env name)

def Drafts.CleanFor (env : Drafts) (reads : Name → Prop) : Prop :=
  ∀ name draft, reads name → env.lookup name = some draft → draft.Clean

section Lookup

variable {env front : Drafts} {name : Name} {draft : Draft}

theorem lookup_append_cases (found : List.lookup name (front ++ env) = some draft) :
    (name, draft) ∈ front ∨ name ∉ front.map (·.1) ∧ env.lookup name = some draft := by
  induction front with
  | nil => exact .inr ⟨List.not_mem_nil, found⟩
  | cons pair front ih =>
    obtain ⟨other, value⟩ := pair
    rw [List.cons_append, List.lookup_cons] at found
    by_cases same : name = other
    · rw [same, beq_self_eq_true] at found
      exact .inl (same ▸ Option.some.inj found ▸ List.mem_cons_self)
    · rw [beq_false_of_ne same] at found
      rcases ih found with member | ⟨absent, behind⟩
      · exact .inl (List.mem_cons_of_mem _ member)
      · exact .inr ⟨by simp only [List.map_cons, List.mem_cons, not_or]; exact ⟨same,
            absent⟩, behind⟩

theorem lookup_hidden {names : List Name}
    (found : List.lookup name (env.filter (·.1 ∉ names)) = some draft) :
    name ∉ names ∧ env.lookup name = some draft := by
  induction env with
  | nil => cases found
  | cons pair env ih =>
    obtain ⟨other, value⟩ := pair
    rw [List.filter_cons] at found
    rw [List.lookup_cons]
    by_cases hidden : other ∉ names
    · rw [if_pos (decide_eq_true hidden), List.lookup_cons] at found
      by_cases same : name = other
      · rw [same, beq_self_eq_true] at found ⊢
        exact ⟨hidden, found⟩
      · rw [beq_false_of_ne same] at found ⊢
        exact ih found
    · rw [if_neg (by simpa using hidden)] at found
      obtain ⟨outside, behind⟩ := ih found
      have different : name ≠ other := by
        rintro rfl
        exact hidden outside
      rw [beq_false_of_ne different]
      exact ⟨outside, behind⟩

theorem lookup_knot_cases {definitions : List Definition}
    (found : List.lookup name (Drafts.knot definitions env) = some draft) :
    name ∈ definitions.map (·.name) ∧ draft = .member definitions env name ∨
      name ∉ definitions.map (·.name) ∧ env.lookup name = some draft := by
  rcases lookup_append_cases found with member | ⟨absent, behind⟩
  · obtain ⟨definition, inside, same⟩ := List.mem_map.mp member
    obtain ⟨rfl, rfl⟩ := Prod.mk.inj same
    exact .inl ⟨List.mem_map_of_mem inside, rfl⟩
  · rw [List.map_map] at absent
    exact .inr ⟨absent, behind⟩

end Lookup

section Clean

variable {settle : Draft → Except Halt Draft}

def Draft.KeptBy (settle : Draft → Except Halt Draft) : Prop :=
  ∀ draft : Draft, draft.Clean → Safe Draft.Clean (settle draft)

def Drafts.Clean (drafts : Drafts) : Prop := ∀ pair ∈ drafts, pair.2.Clean

theorem clean_ite (same : Prop) [Decidable same] :
    ∀ drafts ∈ (if same then some [] else none : Option Drafts), drafts.Clean := by
  split
  · rintro drafts ⟨⟩
    exact List.forall_mem_nil _
  · exact nofun

theorem Draft.Clean.demandWith (keeps : Draft.KeptBy settle) {draft : Draft} (clean : draft.Clean) :
    Safe Draft.Clean (draft.demandWith settle) := by
  refine (keeps draft clean).bind fun settled clean => ?_
  cases clean with
  | bool => exact .bool
  | int => exact .int
  | str => exact .str
  | tuple all => exact .tuple all
  | bare => exact .bare
  | ctor inside => exact .ctor inside
  | closure reads => exact .closure reads
  | member reads => exact .member reads

theorem Draft.Clean.unpackWith (keeps : Draft.KeptBy settle) {arg : Option Draft}
    (clean : ∀ draft ∈ arg, draft.Clean) (count : Nat) :
    Safe (fun fields : List Draft => ∀ field ∈ fields, field.Clean)
    (Draft.unpackWith settle count arg) := by
  cases arg with
  | none =>
    match count with
    | 0 => exact List.forall_mem_nil _
    | 1 | _ + 2 => exact nofun
  | some draft =>
    have inside := clean draft rfl
    have tupled : Safe (fun fields : List Draft => ∀ field ∈ fields, field.Clean) (do
        match ← draft.demandWith settle with
        | .tuple fields => .ok fields
        | _ => .error .stuck) := by
      refine (inside.demandWith keeps).bind fun settled clean => ?_
      cases clean with
      | tuple all => exact all
      | _ => exact nofun
    match count with
    | 0 => exact tupled
    | 1 => exact List.forall_mem_singleton.mpr inside
    | _ + 2 => exact tupled

mutual

theorem Draft.Clean.matchWith (keeps : Draft.KeptBy settle) {draft : Draft} (clean : draft.Clean) :
    ∀ pat : Pat,
    Safe (fun captured : Option Drafts => ∀ drafts ∈ captured, drafts.Clean)
    (pat.matchWith settle draft)
  | .wild none => by
    rintro drafts ⟨⟩
    exact List.forall_mem_nil _
  | .wild (some name) => by
    rintro drafts ⟨⟩
    exact List.forall_mem_singleton.mpr clean
  | .bool expected => by
    refine (clean.demandWith keeps).bind fun settled _ => ?_
    cases settled with
    | bool value => exact clean_ite (expected = value)
    | _ => exact nofun
  | .int _ expected => by
    refine (clean.demandWith keeps).bind fun settled _ => ?_
    cases settled with
    | int value => exact clean_ite (expected = value)
    | _ => exact nofun
  | .str expected => by
    refine (clean.demandWith keeps).bind fun settled _ => ?_
    cases settled with
    | str value => exact clean_ite (expected = value)
    | _ => exact nofun
  | .tuple elems => by
    refine (clean.demandWith keeps).bind fun settled clean => ?_
    cases clean with
    | tuple all => exact Draft.Clean.matchAllWith keeps elems all
    | _ => exact nofun
  | .ctor _ _ expected args => by
    refine (clean.demandWith keeps).bind fun settled clean => ?_
    cases clean with
    | @bare index =>
      dsimp only
      split
      · exact (Draft.Clean.unpackWith keeps (by simp) args.length).bind fun fields all =>
          Draft.Clean.matchAllWith keeps args all
      · exact nofun
    | @ctor index arg inside =>
      dsimp only
      split
      · have inside : ∀ draft ∈ some arg, draft.Clean := by
          rintro draft ⟨⟩
          exact inside
        exact (Draft.Clean.unpackWith keeps inside args.length).bind fun fields all =>
          Draft.Clean.matchAllWith keeps args all
      · exact nofun
    | _ => exact nofun
  | .oneOf alternatives => Draft.Clean.matchFirstWith keeps clean alternatives

theorem Draft.Clean.matchAllWith (keeps : Draft.KeptBy settle) :
    ∀ (pats : List Pat) {drafts : List Draft}, (∀ draft ∈ drafts, draft.Clean) →
    Safe (fun captured : Option Drafts => ∀ drafts ∈ captured, drafts.Clean)
      (Pat.matchAllWith settle pats drafts)
  | [], [], _ => by
    rintro drafts ⟨⟩
    exact List.forall_mem_nil _
  | pat :: pats, draft :: drafts, clean => by
    obtain ⟨here, rest⟩ := List.forall_mem_cons.mp clean
    refine (Draft.Clean.matchWith keeps here pat).bind fun first cleanFirst => ?_
    refine (Draft.Clean.matchAllWith keeps pats rest).bind fun others cleanOthers => ?_
    rintro captured member
    obtain ⟨behind, found, member⟩ := Option.bind_eq_some_iff.mp member
    obtain ⟨front, found', member⟩ := Option.bind_eq_some_iff.mp member
    cases member
    exact List.forall_mem_append.mpr ⟨cleanOthers behind found, cleanFirst front found'⟩
  | [], _ :: _, _ | _ :: _, [], _ => nofun

theorem Draft.Clean.matchFirstWith (keeps : Draft.KeptBy settle) {draft : Draft}
    (clean : draft.Clean) : ∀ pats : List Pat,
    Safe (fun captured : Option Drafts => ∀ drafts ∈ captured, drafts.Clean)
      (Pat.matchFirstWith settle pats draft)
  | [] => nofun
  | pat :: pats => by
    refine (Draft.Clean.matchWith keeps clean pat).bind fun first cleanFirst => ?_
    cases first with
    | some captured => exact cleanFirst
    | none => exact Draft.Clean.matchFirstWith keeps clean pats

end

/-- The body of the case that is taken reads clean drafts only, when the cases do. -/
theorem safe_selectWith (keeps : Draft.KeptBy settle) {env : Drafts} {draft : Draft}
    (clean : draft.Clean) {arms : List Arm}
    (reads : env.CleanFor fun name => Term.ReadsArms name arms) :
    Safe (fun next : Drafts × Term => next.1.CleanFor next.2.Reads)
    (Arm.selectWith settle env draft arms) := by
  induction arms with
  | nil => exact nofun
  | cons arm arms ih =>
    obtain ⟨pat, body⟩ := arm
    refine (clean.matchWith keeps pat).bind fun captured cleanCaptured => ?_
    cases captured with
    | some captured =>
      intro name value read found
      rcases lookup_append_cases found with member | ⟨-, behind⟩
      · exact cleanCaptured captured rfl (name, value) member
      · obtain ⟨outside, behind⟩ := lookup_hidden behind
        exact reads name value (.inl ⟨outside, read⟩) behind
    | none => exact ih fun name value read => reads name value (.inr read)

theorem clean_ofConstant (constant : Constant) : (Draft.ofConstant constant).Clean := by
  cases constant with
  | bool => exact .bool
  | int => exact .int
  | str => exact .str

/-- The names of a recursive let that reads clean drafts only stand for clean drafts. -/
theorem Drafts.CleanFor.knot {definitions : List Definition} {env : Drafts}
    (clean : env.CleanFor fun name =>
      name ∉ definitions.map (·.name) ∧ Term.ReadsDefinitions name definitions) :
    (Drafts.knot definitions env).CleanFor fun name => Term.ReadsDefinitions name definitions := by
  intro name draft read found
  rcases lookup_knot_cases found with ⟨-, rfl⟩ | ⟨outside, behind⟩
  · exact .member fun other value absent reads => clean other value ⟨absent, reads⟩
  · exact clean name draft ⟨outside, read⟩ behind

def Given (holds : Definition → Draft → Prop) (definition : Definition)
    (pair : Name × Draft) : Prop :=
  pair.1 = definition.name ∧ holds definition pair.2

theorem safe_definitions {definitions : List Definition} {run : Term → Except Halt Draft}
    {holds : Definition → Draft → Prop}
    (safe : ∀ definition ∈ definitions, Safe (holds definition) (run definition.value)) :
    Safe (FromEach (Given holds) definitions) (definitions.mapM fun definition => do
      let draft ← run definition.value
      pure (definition.name, draft)) :=
  Safe.mapM fun definition member => (safe definition member).bind fun _ given => ⟨rfl, given⟩

theorem lookup_given {holds : Definition → Draft → Prop} {definitions : List Definition}
    {drafts env : Drafts}
    (given : FromEach (Given holds) definitions drafts) {name : Name} {draft : Draft}
    (found : List.lookup name (drafts.reverse ++ env) = some draft) :
    (∃ definition ∈ definitions, definition.name = name ∧ holds definition draft) ∨
      name ∉ definitions.map (·.name) ∧ env.lookup name = some draft := by
  rcases lookup_append_cases found with member | ⟨absent, behind⟩
  · obtain ⟨definition, inside, same, holding⟩ := given.1 (name, draft) (List.mem_reverse.mp member)
    exact .inl ⟨definition, inside, same.symm, holding⟩
  · refine .inr ⟨fun bound => absent ?_, behind⟩
    obtain ⟨definition, inside, rfl⟩ := List.mem_map.mp bound
    obtain ⟨pair, member, same, -⟩ := given.2 definition inside
    exact same ▸ List.mem_map_of_mem (List.mem_reverse.mpr member)

/-- A term that reads clean drafts only uses no placeholder and gives a clean draft. -/
theorem clean_of_reads (depth : Nat) :
    (∀ (env : Drafts) (term : Term), env.CleanFor term.Reads →
      Safe Draft.Clean (term.draft depth env)) ∧ Draft.KeptBy (Draft.settle depth) := by
  induction depth with
  | zero =>
    refine ⟨fun env term _ => nofun, fun draft clean => ?_⟩
    cases draft with
    | member => exact nofun
    | _ => exact clean
  | succ depth ih =>
    obtain ⟨ih, keeps⟩ := ih
    refine ⟨fun env term clean => ?_, fun draft clean => ?_⟩
    · cases term with
      | var name ty =>
        rw [Term.draft]
        split
        · exact clean name _ rfl ‹_›
        · exact nofun
      | lit constant ty => exact clean_ofConstant constant
      | tuple elems ty =>
        have each : ∀ elem ∈ elems, Safe Draft.Clean (elem.draft depth env) := fun elem member =>
          ih env elem fun name draft read =>
            clean name draft (Term.readsAny_iff.mpr ⟨elem, member, read⟩)
        refine (Safe.mapM each).bind fun drafts given => .tuple fun draft member => ?_
        obtain ⟨-, -, inside⟩ := given.1 draft member
        exact inside
      | ctor name template index arg ty =>
        cases arg with
        | none => exact .bare
        | some arg => exact (ih env arg clean).bind fun draft inside => .ctor inside
      | lambda param paramTy body ty =>
        exact .closure fun name draft other read => clean name draft ⟨other, read⟩
      | app func arg ty =>
        refine (ih env func fun name draft read => clean name draft (.inl read)).bind fun func
          cleanFunc => ?_
        refine (cleanFunc.demandWith keeps).bind fun func cleanFunc => ?_
        cases cleanFunc with
        | @closure param body inner reads =>
          refine (ih env arg fun name draft read => clean name draft (.inr read)).bind fun arg
            cleanArg => ?_
          refine (cleanArg.demandWith keeps).bind fun arg cleanArg =>
            ih _ body fun name draft read found => ?_
          rcases @lookup_append_cases inner [(param, arg)] name draft
            found with member | ⟨other, behind⟩
          · obtain ⟨rfl, rfl⟩ := Prod.mk.inj (List.mem_singleton.mp member)
            exact cleanArg
          · exact reads name draft (by simpa using other) read behind
        | _ => exact nofun
      | letIn recursive definitions body ty =>
        have inner : (if recursive then Drafts.knot definitions env else env).CleanFor
            fun name => Term.ReadsDefinitions name definitions := by
          cases recursive with
          | true => exact .knot fun name draft read => clean name draft (.inl
              ⟨fun _ => read.1, read.2⟩)
          | false => exact fun name draft read => clean name draft (.inl ⟨nofun, read⟩)
        have each : ∀ definition ∈ definitions, Safe Draft.Clean
            (definition.value.draft depth
              (if recursive then Drafts.knot definitions env else env)) :=
          fun definition member => ih _ _ fun name draft read =>
            inner name draft (Term.readsDefinitions_iff.mpr ⟨definition, member, read⟩)
        refine (safe_definitions each).bind fun drafts given =>
          ih _ body fun name draft read found => ?_
        rcases lookup_given given found with ⟨-, -, -, inside⟩ | ⟨absent, behind⟩
        · exact inside
        · exact clean name draft (.inr ⟨absent, read⟩) behind
      | matchOn scrutinee arms ty =>
        refine (ih env scrutinee fun name draft read => clean name draft (.inl read)).bind fun draft
          cleanDraft => ?_
        refine (cleanDraft.demandWith keeps).bind fun draft cleanDraft => ?_
        refine (safe_selectWith keeps cleanDraft fun name draft read =>
          clean name draft (.inr read)).bind fun next reads => ?_
        exact ih next.1 next.2 reads
      | failure ty => exact nofun
    · cases draft with
      | member definitions env name =>
        cases clean with
        | member reads =>
          have inner : (Drafts.knot definitions env).CleanFor fun name => Term.ReadsDefinitions name
              definitions :=
            .knot fun other draft read => reads other draft read.1 read.2
          rw [Draft.settle]
          split
          · rename_i definition found
            have member := List.mem_of_find?_eq_some found
            exact (ih _ definition.value fun other draft read => inner other draft
              (Term.readsDefinitions_iff.mpr ⟨definition, member, read⟩)).bind keeps
          · exact nofun
      | _ => exact clean

end Clean

end PolyCheck
