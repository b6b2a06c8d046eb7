import PolyCheck.Proofs.Term.Mentions
import PolyCheck.Proofs.Term.Renaming

/-! Terms that differ only in the names of what they bind. The names bound on the way to a place are
kept in pairs; a name stands for the same thing on both sides when the innermost pairs that bind it
say so. -/
namespace PolyCheck

/-- Names bound on the way to a place in two terms, in pairs, the innermost first. -/
abbrev Binders := List (Name × Name)

namespace Binders

/-- The names stand for the same thing. A name that neither side binds stands for itself. -/
def Match : Binders → Name → Name → Prop
  | [], x, y => x = y
  | (a, b) :: outer, x, y => x = a ∧ y = b ∨ x ≠ a ∧ y ≠ b ∧ Match outer x y

/-- Names bound together, of which the last ones count. -/
def together (names names' : List Name) : Binders := (names.zip names').reverse

variable {binders inner outer : Binders} {names names' : List Name} {x y : Name}

theorem Match.swap {binders : Binders} (matched : binders.Match x y) :
    Match (binders.map Prod.swap) y x := by
  induction binders with
  | nil => exact matched.symm
  | cons pair binders ih =>
    rcases matched with ⟨here, here'⟩ | ⟨other, other', matched⟩
    · exact .inl ⟨here', here⟩
    · exact .inr ⟨other', other, ih matched⟩

/-- A name that the inner pairs do not bind on one side is not bound by them on the other side
either. -/
theorem Match.outside {inner : Binders} (unbound : x ∉ inner.map (·.1))
    (matched : Match (inner ++ outer) x y) : y ∉ inner.map (·.2) ∧ outer.Match x y := by
  induction inner with
  | nil => exact ⟨List.not_mem_nil, matched⟩
  | cons pair inner ih =>
    obtain ⟨other, unbound⟩ := not_or.mp (mt List.mem_cons.mpr unbound)
    rcases matched with ⟨here, -⟩ | ⟨-, other', matched⟩
    · exact absurd here other
    · obtain ⟨unbound', matched⟩ := ih unbound matched
      exact ⟨fun member => (List.mem_cons.mp member).elim other' unbound', matched⟩

theorem Match.same {binders : Binders} (unbound : x ∉ binders.map (·.1))
    (matched : binders.Match x y) : x = y := by
  rw [← List.append_nil binders] at matched
  exact (matched.outside unbound).2

theorem Match.cases {binders : Binders} (matched : binders.Match x y) :
    (x, y) ∈ binders ∨ x = y ∧ x ∉ binders.map (·.1) ∧ y ∉ binders.map (·.2) := by
  induction binders with
  | nil => exact .inr ⟨matched, List.not_mem_nil, List.not_mem_nil⟩
  | cons pair binders ih =>
    obtain ⟨a, b⟩ := pair
    rcases matched with ⟨rfl, rfl⟩ | ⟨other, other', matched⟩
    · exact .inl List.mem_cons_self
    · refine (ih matched).imp (List.mem_cons_of_mem _) fun ⟨same, unbound, unbound'⟩ =>
        ⟨same, ?_, ?_⟩
      · exact fun member => (List.mem_cons.mp member).elim other unbound
      · exact fun member => (List.mem_cons.mp member).elim other' unbound'

theorem swap_append : (inner ++ outer).map Prod.swap = inner.map Prod.swap ++ outer.map Prod.swap :=
  List.map_append

theorem swap_together : (together names names').map Prod.swap = together names' names := by
  rw [together, List.map_reverse, List.zip_swap, together]

theorem mem_fst_together (aligned : names.length = names'.length) :
    x ∈ (together names names').map (·.1) ↔ x ∈ names := by
  rw [together, List.map_reverse, List.mem_reverse, List.map_fst_zip (Nat.le_of_eq aligned)]

theorem mem_snd_together (aligned : names.length = names'.length) :
    y ∈ (together names names').map (·.2) ↔ y ∈ names' := by
  rw [together, List.map_reverse, List.mem_reverse, List.map_snd_zip (Nat.le_of_eq aligned.symm)]

theorem Match.beyond (aligned : names.length = names'.length) (unbound : x ∉ names)
    (matched : Match (together names names' ++ outer) x y) : y ∉ names' ∧ outer.Match x y := by
  obtain ⟨unbound', matched⟩ := matched.outside (mt (mem_fst_together aligned).mp unbound)
  exact ⟨mt (mem_snd_together aligned).mpr unbound', matched⟩

end Binders

namespace Term

def paired (definitions definitions' : List Definition) : Binders :=
  .together (definitions.map (·.name)) (definitions'.map (·.name))

mutual

/-- The terms differ in the names of what they bind only. Patterns that differ so can be renamed
into each other. -/
inductive Alike : Binders → Term → Term → Prop
  | var {binders : Binders} {x y : Name} {ty : Ty} : binders.Match x y →
      Alike binders (.var x ty) (.var y ty)
  | lit {binders : Binders} {value : Constant} {ty : Ty} : Alike binders (.lit value ty)
      (.lit value ty)
  | failure {binders : Binders} {ty : Ty} : Alike binders (.failure ty) (.failure ty)
  | tuple {binders : Binders} {elems elems' : List Term} {ty : Ty} : AlikeAll binders elems elems' →
    Alike binders (.tuple elems ty) (.tuple elems' ty)
  | bare {binders : Binders} {name : Name} {template : TemplateId} {index : Nat} {ty : Ty} :
    Alike binders (.ctor name template index none ty) (.ctor name template index none ty)
  | ctor {binders : Binders} {name : Name} {template : TemplateId} {index : Nat}
      {arg arg' : Term} {ty : Ty} : Alike binders arg arg' →
    Alike binders (.ctor name template index (some arg) ty)
      (.ctor name template index (some arg') ty)
  | lambda {binders : Binders} {param param' : Name} {paramTy ty : Ty} {body body' : Term} :
    Alike ((param, param') :: binders) body body' →
    Alike binders (.lambda param paramTy body ty) (.lambda param' paramTy body' ty)
  | app {binders : Binders} {func func' arg arg' : Term} {ty : Ty} : Alike binders func func' →
    Alike binders arg arg' → Alike binders (.app func arg ty) (.app func' arg' ty)
  | letIn {binders : Binders} {recursive : Bool} {definitions definitions' : List Definition}
      {body body' : Term} {ty : Ty} :
    AlikeDefinitions (if recursive then paired definitions definitions' ++ binders else binders)
      definitions definitions' →
    Alike (paired definitions definitions' ++ binders) body body' →
    Alike binders (.letIn recursive definitions body ty) (.letIn recursive definitions' body' ty)
  | matchOn {binders : Binders} {scrutinee scrutinee' : Term} {arms arms' : List Arm} {ty : Ty} :
    Alike binders scrutinee scrutinee' → AlikeArms binders arms arms' →
    Alike binders (.matchOn scrutinee arms ty) (.matchOn scrutinee' arms' ty)

inductive AlikeAll : Binders → List Term → List Term → Prop
  | nil {binders : Binders} : AlikeAll binders [] []
  | cons {binders : Binders} {term term' : Term} {terms terms' : List Term} :
      Alike binders term term' →
    AlikeAll binders terms terms' → AlikeAll binders (term :: terms) (term' :: terms')

inductive AlikeDefinitions : Binders → List Definition → List Definition → Prop
  | nil {binders : Binders} : AlikeDefinitions binders [] []
  | cons {binders : Binders} {name name' : Name} {scheme : Scheme} {value value' : Term}
    {rest rest' : List Definition} : Alike binders value value' →
    AlikeDefinitions binders rest rest' →
    AlikeDefinitions binders (⟨name, scheme, value⟩ :: rest) (⟨name', scheme, value'⟩ :: rest')

inductive AlikeArms : Binders → List Arm → List Arm → Prop
  | nil {binders : Binders} : AlikeArms binders [] []
  | cons {binders : Binders} {pat pat' : Pat} {body body' : Term} {rest rest' : List Arm}
      {naming naming' : Renaming} : pat' = pat.rename naming → pat = pat'.rename naming' →
    Alike (.together pat.captures pat'.captures ++ binders) body body' →
      AlikeArms binders rest rest' →
    AlikeArms binders (⟨pat, body⟩ :: rest) (⟨pat', body'⟩ :: rest')

end

variable {binders : Binders}

theorem swap_paired {definitions definitions' : List Definition} :
    (paired definitions definitions').map Prod.swap = paired definitions' definitions :=
  Binders.swap_together

theorem AlikeDefinitions.aligned {definitions definitions' : List Definition}
    (alike : AlikeDefinitions binders definitions definitions') :
    (definitions.map (·.name)).length = (definitions'.map (·.name)).length := by
  rw [List.length_map, List.length_map]
  induction definitions generalizing definitions' with
  | nil => cases alike; rfl
  | cons definition definitions ih =>
    cases alike with
    | cons _ alike => exact congrArg (· + 1) (ih alike)

mutual

theorem Alike.swap : ∀ {binders : Binders} {term term' : Term}, Alike binders term term' →
    Alike (binders.map Prod.swap) term' term
  | _, _, _, .var matched => .var matched.swap
  | _, _, _, .lit => .lit
  | _, _, _, .failure => .failure
  | _, _, _, .tuple alike => .tuple alike.swap
  | _, _, _, .bare => .bare
  | _, _, _, .ctor alike => .ctor alike.swap
  | _, _, _, .lambda alike => .lambda alike.swap
  | _, _, _, .app func arg => .app func.swap arg.swap
  | _, _, _, @Alike.letIn binders recursive _ _ _ _ _ definitions body => by
    have definitions := definitions.swap
    have body := body.swap
    rw [Binders.swap_append, swap_paired] at body
    refine .letIn ?_ body
    cases recursive with
    | true =>
      rw [if_pos rfl, Binders.swap_append, swap_paired] at definitions
      rwa [if_pos rfl]
    | false =>
      rw [if_neg Bool.false_ne_true] at definitions
      rwa [if_neg Bool.false_ne_true]
  | _, _, _, .matchOn scrutinee arms => .matchOn scrutinee.swap arms.swap

theorem AlikeAll.swap : ∀ {binders : Binders} {terms terms' : List Term},
    AlikeAll binders terms terms' → AlikeAll (binders.map Prod.swap) terms' terms
  | _, _, _, .nil => .nil
  | _, _, _, .cons alike rest => .cons alike.swap rest.swap

theorem AlikeDefinitions.swap : ∀ {binders : Binders} {definitions definitions' : List Definition},
    AlikeDefinitions binders definitions definitions' →
    AlikeDefinitions (binders.map Prod.swap) definitions' definitions
  | _, _, _, .nil => .nil
  | _, _, _, .cons alike rest => .cons alike.swap rest.swap

theorem AlikeArms.swap : ∀ {binders : Binders} {arms arms' : List Arm},
    AlikeArms binders arms arms' → AlikeArms (binders.map Prod.swap) arms' arms
  | _, _, _, .nil => .nil
  | _, _, _, .cons renamed renamed' alike rest => by
    have alike := alike.swap
    rw [Binders.swap_append, Binders.swap_together] at alike
    exact .cons renamed' renamed alike rest.swap

end

mutual

theorem Alike.reads : ∀ {binders : Binders} {term term' : Term} {x : Name},
    Alike binders term term' → term.Reads x → ∃ y, binders.Match x y ∧ term'.Reads y
  | _, _, _, _, .var matched, reads => by
    obtain rfl : _ = _ := reads
    exact ⟨_, matched, rfl⟩
  | _, _, _, _, .lit, reads => reads.elim
  | _, _, _, _, .failure, reads => reads.elim
  | _, _, _, _, .tuple alike, reads => by
    unfold Reads at reads
    obtain ⟨y, matched, reads⟩ := alike.reads reads
    refine ⟨y, matched, ?_⟩
    unfold Reads
    exact reads
  | _, _, _, _, .bare, reads => reads.elim
  | _, _, _, _, .ctor alike, reads => alike.reads reads
  | _, _, _, _, .lambda alike, ⟨other, reads⟩ => by
    obtain ⟨y, matched, reads⟩ := alike.reads reads
    rcases matched with ⟨here, -⟩ | ⟨-, other', matched⟩
    · exact absurd here other
    · exact ⟨y, matched, other', reads⟩
  | _, _, _, _, .app func arg, reads => by
    rcases reads with reads | reads
    · obtain ⟨y, matched, reads⟩ := func.reads reads
      exact ⟨y, matched, .inl reads⟩
    · obtain ⟨y, matched, reads⟩ := arg.reads reads
      exact ⟨y, matched, .inr reads⟩
  | _, _, _, _, @Alike.letIn binders recursive _ _ _ _ _ definitions body, reads => by
    have aligned := definitions.aligned
    rcases reads with ⟨unbound, reads⟩ | ⟨unbound, reads⟩
    · obtain ⟨y, matched, reads⟩ := definitions.reads reads
      cases recursive with
      | true =>
        obtain ⟨unbound', matched⟩ := Binders.Match.beyond aligned (unbound rfl) matched
        exact ⟨y, matched, .inl ⟨fun _ => unbound', reads⟩⟩
      | false => exact ⟨y, matched, .inl ⟨nofun, reads⟩⟩
    · obtain ⟨y, matched, reads⟩ := body.reads reads
      obtain ⟨unbound', matched⟩ := Binders.Match.beyond aligned unbound matched
      exact ⟨y, matched, .inr ⟨unbound', reads⟩⟩
  | _, _, _, _, .matchOn scrutinee arms, reads => by
    rcases reads with reads | reads
    · obtain ⟨y, matched, reads⟩ := scrutinee.reads reads
      exact ⟨y, matched, .inl reads⟩
    · obtain ⟨y, matched, reads⟩ := arms.reads reads
      exact ⟨y, matched, .inr reads⟩

theorem AlikeAll.reads : ∀ {binders : Binders} {terms terms' : List Term} {x : Name},
    AlikeAll binders terms terms' → ReadsAny x terms → ∃ y, binders.Match x y ∧ ReadsAny y terms'
  | _, _, _, _, .nil, reads => reads.elim
  | _, _, _, _, .cons alike rest, reads => by
    rcases reads with reads | reads
    · obtain ⟨y, matched, reads⟩ := alike.reads reads
      exact ⟨y, matched, .inl reads⟩
    · obtain ⟨y, matched, reads⟩ := rest.reads reads
      exact ⟨y, matched, .inr reads⟩

theorem AlikeDefinitions.reads :
    ∀ {binders : Binders} {definitions definitions' : List Definition} {x : Name},
    AlikeDefinitions binders definitions definitions' → ReadsDefinitions x definitions →
    ∃ y, binders.Match x y ∧ ReadsDefinitions y definitions'
  | _, _, _, _, .nil, reads => reads.elim
  | _, _, _, _, .cons alike rest, reads => by
    rcases reads with reads | reads
    · obtain ⟨y, matched, reads⟩ := alike.reads reads
      exact ⟨y, matched, .inl reads⟩
    · obtain ⟨y, matched, reads⟩ := rest.reads reads
      exact ⟨y, matched, .inr reads⟩

theorem AlikeArms.reads : ∀ {binders : Binders} {arms arms' : List Arm} {x : Name},
    AlikeArms binders arms arms' → ReadsArms x arms → ∃ y, binders.Match x y ∧ ReadsArms y arms'
  | _, _, _, _, .nil, reads => reads.elim
  | _, _, _, _, .cons renamed _ alike rest, reads => by
    rcases reads with ⟨unbound, reads⟩ | reads
    · obtain ⟨y, matched, reads⟩ := alike.reads reads
      have aligned :=
        congrArg List.length ((congrArg Pat.captures renamed).trans (Pat.captures_rename _))
      rw [List.length_map] at aligned
      obtain ⟨unbound', matched⟩ := Binders.Match.beyond aligned.symm unbound matched
      exact ⟨y, matched, .inl ⟨unbound', reads⟩⟩
    · obtain ⟨y, matched, reads⟩ := rest.reads reads
      exact ⟨y, matched, .inr reads⟩

end

theorem Alike.mentions {group : List Name} {term term' : Term} (alike : Alike binders term term')
    (apart : ∀ pair ∈ binders, pair.1 ∉ group ∧ pair.2 ∉ group) :
    term.mentions group [] = term'.mentions group [] := by
  have transfer : ∀ {binders : Binders} {term term' : Term}, Alike binders term term' →
      (∀ pair ∈ binders, pair.1 ∉ group) → term.mentions group [] = true →
      term'.mentions group [] = true := by
    intro binders term term' alike apart mentioned
    obtain ⟨x, member, shown, reads⟩ := (mentions_iff term group []).mp mentioned
    obtain ⟨y, matched, reads⟩ := alike.reads reads
    have unbound : x ∉ binders.map (·.1) := fun bound => by
      obtain ⟨pair, inBinders, rfl⟩ := List.mem_map.mp bound
      exact apart pair inBinders member
    obtain rfl := matched.same unbound
    exact (mentions_iff term' group []).mpr ⟨x, member, shown, reads⟩
  refine Bool.eq_iff_iff.mpr ⟨transfer alike fun pair member => (apart pair member).1,
    transfer alike.swap ?_⟩
  intro pair member
  obtain ⟨pair', member', rfl⟩ := List.mem_map.mp member
  exact (apart pair' member').2

end Term

end PolyCheck
