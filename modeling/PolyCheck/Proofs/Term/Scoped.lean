import PolyCheck.Proofs.Term.Lowering
import PolyCheck.Proofs.Term.Shallow

/-! The switches and the scope of decision trees. Where patterns suit the type of what they are
matched against, a switch has different heads and a wildcard only at its end, minted names are read
only below the case that binds them, and what an action captures is bound on every way to it: a line
that captures a name has recorded where, or still has the pattern that will. -/
namespace PolyCheck

namespace Decision

variable {subst : Subst} {registry : Registry} {ty : Ty} {arms : List Arm}

section Scope

variable {before after fields : List Term} {source : Term} {lines : List Line} {line result : Line}
  {columns columns' inserted : List Ty} {column : Ty} {p : Pat} {head : Head} {name : Name}
  {supply supply' : NameSupply} {tested : List (Pat × Problem)} {problem : Problem}

/-- A pattern for values of a type, whose alternatives capture the same names. -/
def Suits (subst : Subst) (registry : Registry) (p : Pat) (ty : Ty) : Prop :=
  p.HasType subst registry ty ∧ p.Uniform

/-- A line with patterns for its columns. What the case of its action captures, the line has
recorded, or one of its patterns captures it. -/
structure Line.Fits (subst : Subst) (registry : Registry) (arms : List Arm) (columns : List Ty)
    (line : Line) : Prop where
  suits : List.Forall₂ (Suits subst registry) line.pats columns
  binds : ∀ arm ∈ arms[line.action]?, ∀ name ∈ arm.pat.captures,
    name ∈ line.captured.map (·.1) ∨ ∃ p ∈ line.pats, name ∈ p.captures

def Problem.Fits (subst : Subst) (registry : Registry) (arms : List Arm)
    (problem : Problem) : Prop :=
  ∀ line ∈ problem.lines, line.Fits subst registry arms (problem.sources.map Term.ty)

theorem suits_anys (types : List Ty) : List.Forall₂ (Suits subst registry)
    (Pat.anys types.length) types := by
  induction types with
  | nil => exact .nil
  | cons ty types ih => exact .cons ⟨.wild none ty, fun _ _ same => Pat.noConfusion same⟩ ih

theorem Suits.inFields (suits : Suits subst registry p column) (own : p.head? = some head) :
    List.Forall₂ (Suits subst registry) p.fields
    ((Family.of column subst registry).fieldTypes registry head) :=
  ((List.forall₂_and_left _ _).mpr ⟨fun _ member => suits.2.fields member,
      (suits.1.hasHead own).2⟩).imp fun _ _ holds => ⟨holds.2, holds.1⟩

theorem Line.Fits.expand (fits : line.Fits subst registry arms (columns ++ column :: columns'))
    (member : result ∈ line.expand columns.length) :
    result.Fits subst registry arms (columns ++ column :: columns') := by
  refine ⟨Line.rel_expand fits.suits (fun suits inside => ⟨suits.1.alternatives inside,
    suits.2.alternatives inside⟩) member, ?_⟩
  obtain ⟨row, p, row', pats, length, -, here, -⟩ := Line.split_column fits.suits
  rw [Line.expand, ← length, Line.at_column pats] at member
  obtain ⟨q, inside, rfl⟩ := List.mem_map.mp member
  intro arm found name captured
  refine (fits.binds arm found name captured).imp_right ?_
  rw [pats]
  rintro ⟨r, inRow, captures⟩
  rcases List.mem_append.mp inRow with first | last
  · exact ⟨r, by simp [first], captures⟩
  · rcases List.mem_cons.mp last with rfl | last
    · exact ⟨q, by simp, (here.2.mem_captures inside).mpr captures⟩
    · exact ⟨r, by simp [last], captures⟩

theorem Line.Fits.replace {row : Row}
    (fits : line.Fits subst registry arms (columns ++ column :: columns'))
    (suits : List.Forall₂ (Suits subst registry) row inserted)
    (kept : ∀ name ∈ (line.at columns.length).captures,
      line.at columns.length = .wild (some name) ∨ ∃ q ∈ row, name ∈ q.captures) :
    (line.replace columns.length source row).Fits subst registry arms
    (columns ++ inserted ++ columns') := by
  refine ⟨Line.rel_replace fits.suits suits, fun arm found name captured => ?_⟩
  obtain ⟨row₁, p, row₂, pats, length, -⟩ := Line.split_column fits.suits
  have atColumn : line.at columns.length = p := length ▸ Line.at_column pats
  have shown : (line.replace columns.length source row).pats = row₁ ++ row ++ row₂ :=
    length ▸ Line.pats_replace pats row
  rw [atColumn] at kept
  rw [shown]
  rcases fits.binds arm found name captured with old | ⟨r, inRow, captures⟩
  · obtain ⟨entry, inside, rfl⟩ := List.mem_map.mp old
    exact .inl (List.mem_map_of_mem (mem_captured_of_mem row inside))
  · rw [pats] at inRow
    rcases List.mem_append.mp inRow with first | last
    · exact .inr ⟨r, by simp [first], captures⟩
    · rcases List.mem_cons.mp last with rfl | last
      · rcases kept name captures with same | ⟨q, inside, captures⟩
        · exact .inl (List.mem_map_of_mem (mem_captured_of_at row (atColumn.trans same)))
        · exact .inr ⟨q, by simp [inside], captures⟩
      · exact .inr ⟨r, by simp [last], captures⟩

theorem Line.Fits.specialize? (fits : line.Fits subst registry arms (columns ++ column :: columns'))
    (found : line.specialize? columns.length source head
      ((Family.of column subst registry).fieldTypes registry head).length = some result) :
    result.Fits subst registry arms
      (columns ++ (Family.of column subst registry).fieldTypes registry head ++ columns') := by
  obtain ⟨row, p, row', pats, length, -, here, -⟩ := Line.split_column fits.suits
  have atColumn : line.at columns.length = p := length ▸ Line.at_column pats
  rw [Line.specialize?, atColumn] at found
  split at found
  · next wild =>
    obtain rfl := Option.some.inj found
    refine fits.replace (suits_anys _) fun name captured => .inl ?_
    rw [atColumn] at captured ⊢
    exact Pat.eq_of_mem_captures wild captured
  · split at found
    · next own =>
      obtain rfl := Option.some.inj found
      refine fits.replace (here.inFields own) fun name captured => .inr ?_
      rw [atColumn] at captured
      exact (Pat.mem_captures own).mp captured
    · simp at found

theorem Line.Fits.default? (fits : line.Fits subst registry arms (columns ++ column :: columns'))
    (found : line.default? columns.length source = some result) :
    result.Fits subst registry arms (columns ++ columns') := by
  rw [Line.default?] at found
  split at found
  · next wild =>
    obtain rfl := Option.some.inj found
    have replaced := @Line.Fits.replace subst registry arms source line columns columns' [] column
      [] fits .nil fun name captured => .inl (Pat.eq_of_mem_captures wild captured)
    rwa [List.append_nil] at replaced
  · simp at found

theorem Problem.Fits.inColumn
    (fits : Problem.Fits subst registry arms ⟨before ++ source :: after, lines⟩)
    (member : line ∈ lines) :
    line.Fits subst registry arms (before.map Term.ty ++ source.ty :: after.map Term.ty) := by
  have inLine := fits line member
  rwa [List.map_append, List.map_cons] at inLine

theorem Problem.Fits.inside (fits : problem.Fits subst registry arms)
    (member : line ∈ problem.lines) {col : Nat}
    (column : Problem.column? line = some col) : col < problem.sources.length := by
  obtain ⟨inside, -⟩ := List.findIdx?_eq_some_iff_getElem.mp column
  rwa [(fits line member).suits.length_eq, List.length_map] at inside

theorem Problem.Fits.expand
    (fits : Problem.Fits subst registry arms ⟨before ++ source :: after, lines⟩) :
    (Problem.expand ⟨before ++ source :: after, lines⟩ before.length).Fits subst registry arms := by
  intro line member
  obtain ⟨line', inside, expanded⟩ := List.mem_flatMap.mp member
  have below := @Line.Fits.expand subst registry arms line' line _ _ _ (fits.inColumn inside)
    (by rwa [List.length_map])
  rwa [Problem.expand, List.map_append, List.map_cons]

theorem Problem.Fits.specialize
    (fits : Problem.Fits subst registry arms ⟨before ++ source :: after, lines⟩)
    (types : fields.map Term.ty = (Family.of source.ty subst registry).fieldTypes registry head) :
    (Problem.specialize ⟨before ++ source :: after, lines⟩ before.length head fields).Fits subst
      registry arms := by
  intro line member
  obtain ⟨line', inside, found⟩ := List.mem_filterMap.mp member
  have below := @Line.Fits.specialize? subst registry arms
    (Problem.sourceAt ⟨before ++ source :: after, lines⟩ before.length) line' line _ _ _ head
      (fits.inColumn inside)
    (by rwa [List.length_map, ← types, List.length_map])
  rwa [Problem.specialize, splice_column, List.map_append, List.map_append, types]

theorem Problem.Fits.default
    (fits : Problem.Fits subst registry arms ⟨before ++ source :: after, lines⟩) :
    (Problem.default ⟨before ++ source :: after, lines⟩ before.length).Fits subst
      registry arms := by
  intro line member
  obtain ⟨line', inside, found⟩ := List.mem_filterMap.mp member
  have below := @Line.Fits.default? subst registry arms
    (Problem.sourceAt ⟨before ++ source :: after, lines⟩ before.length) line' line _ _ _
      (fits.inColumn inside)
    (by rwa [List.length_map])
  rwa [Problem.default, splice_column, List.append_nil, List.map_append]

theorem Problem.Fits.has
    (fits : Problem.Fits subst registry arms ⟨before ++ source :: after, lines⟩)
    (member : head ∈ Problem.heads ⟨before ++ source :: after, lines⟩ before.length) :
    (Family.of source.ty subst registry).Has registry head := by
  obtain ⟨line, inside, own⟩ := mem_heads.mp member
  obtain ⟨row, p, row', pats, length, -, here, -⟩ := Line.split_column (fits.inColumn inside).suits
  rw [List.length_map] at length
  rw [← length, Line.at_column pats] at own
  exact (here.1.hasHead own).1

/-- A switch tests the different heads of a column, and has a case without a test at most at its
end. -/
theorem isSwitch_parts {family : Family} {col : Nat} {heads : List Head}
    (each : List.Forall₂ (IsBranch registry family problem col supply supply') heads tested)
    (has : ∀ head ∈ heads, family.Has registry head) (distinct : heads.Nodup) :
    Pat.IsSwitch ((tested ++ fallback registry family problem col).map Prod.fst) := by
  have own : List.Forall₂ (fun head part => part.1.head? = some head) heads tested :=
    ((List.forall₂_and_left _ _).mpr ⟨has, each⟩).imp fun _ _ holds => (holds.2.shape holds.1).1
  have heads_eq : (tested.map Prod.fst).filterMap Pat.head? = heads := by
    clear has distinct each
    induction own with
    | nil => rfl
    | cons first _ ih => rw [List.map_cons, List.filterMap_cons_some first, ih]
  have tests : ∀ p ∈ tested.map Prod.fst, p.isWild = false := by
    intro p member
    obtain ⟨part, inside, rfl⟩ := List.mem_map.mp member
    obtain ⟨head, -, shown⟩ := forall₂_of_mem own.flip inside
    cases pattern : part.1 with
    | wild _ => simp [pattern, Pat.head?] at shown
    | bool _ | int _ _ | str _ | tuple _ | ctor _ _ _ _ | oneOf _ => rfl
  rw [fallback, List.map_append]
  split
  · refine ⟨?_, ?_⟩
    · rw [List.filterMap_append, heads_eq]
      exact (List.append_nil heads).symm ▸ distinct
    · rwa [List.map_singleton, List.dropLast_concat]
  · refine ⟨?_, ?_⟩
    · rwa [List.map_nil, List.append_nil, heads_eq]
    · rw [List.map_nil, List.append_nil]
      exact fun p member => tests p (List.mem_of_mem_dropLast member)

theorem Line.Fits.captures_leaf {sources : List Term}
    (fits : line.Fits subst registry arms (sources.map Term.ty))
    (wild : Problem.column? line = none) :
    ∀ arm ∈ arms[line.action]?, ∀ name ∈ arm.pat.captures,
      name ∈ (line.allCaptured sources).map (·.1) := by
  intro arm found name captured
  rw [Line.allCaptured, List.map_append, List.mem_append]
  rcases fits.binds arm found name captured with before | ⟨p, inRow, captures⟩
  · exact .inl before
  refine .inr ?_
  have noTest : p.isWild = true := by
    have all := List.findIdx?_eq_none_iff.mp wild p inRow
    simpa using all
  obtain rfl := Pat.eq_of_mem_captures noTest captures
  obtain ⟨index, inside, shown⟩ := List.getElem_of_mem inRow
  have inside' : index < sources.length := by rwa [fits.suits.length_eq, List.length_map] at inside
  have inZip : (Pat.wild (some name), sources[index]) ∈ line.pats.zip sources := by
    rw [← shown]
    exact List.mem_iff_getElem.mpr ⟨index, by simpa using ⟨inside, inside'⟩, List.getElem_zip⟩
  exact List.mem_map.mpr ⟨(name, sources[index]), List.mem_filterMap.mpr ⟨_, inZip, rfl⟩, rfl⟩

/-- Where the lines fit the sources, the switches of a tree are switches, and a tree reads what its
problem takes values from and what the cases read beside their own captures. -/
theorem Problem.Fits.build (fits : problem.Fits subst registry arms) (supply : NameSupply) :
    ((∀ arm ∈ arms, arm.body.IsSwitching) → problem.Takes Term.IsSwitching →
      (build subst registry (arms.map Arm.body) ty problem supply).1.IsSwitching) ∧
    ∀ name : Name, (∀ arm ∈ arms, name ∉ arm.pat.captures → ¬ arm.body.Reads name) →
      problem.Takes (¬ ·.Reads name) →
      ¬ (build subst registry (arms.map Arm.body) ty problem supply).1.Reads name := by
  refine @build_induction subst registry (arms.map Arm.body) ty
    (fun problem tree => problem.Fits subst registry arms →
      ((∀ arm ∈ arms, arm.body.IsSwitching) →
        problem.Takes Term.IsSwitching →
        tree.IsSwitching) ∧
      ∀ name : Name, (∀ arm ∈ arms, name ∉ arm.pat.captures → ¬ arm.body.Reads name) →
        problem.Takes (¬ ·.Reads name) → ¬ tree.Reads name)
    (fun _ _ => ⟨fun _ _ => trivial, fun _ _ _ => id⟩) ?_ ?_ ?_ problem supply fits
  · intro problem line member wild fits
    have one : ∀ {p : Pat}, Pat.IsSwitch [p] :=
      fun {p} => ⟨by cases shown : p.head? <;> simp [shown], nofun⟩
    refine ⟨fun each takes => ?_, fun name each takes reads => ?_⟩
    · exact eachMatch_leafTerm (fun _ => one) (List.forall_mem_map.mpr each) takes member
    · rcases reads_leafTerm reads with ⟨entry, inside, reads⟩ | ⟨outside, action, found, reads⟩
      · exact takes.allCaptured member entry inside reads
      · rw [List.getElem?_map] at found
        obtain ⟨arm, inArms, rfl⟩ := Option.map_eq_some_iff.mp found
        exact each arm (List.mem_of_getElem? inArms)
          (fun captured => outside ((fits line member).captures_leaf wild arm inArms name captured))
            reads
  · intro problem line col tree member column holds fits
    have inside := fits.inside member column
    obtain ⟨sources, lines⟩ := problem
    obtain ⟨before, source, after, rfl, rfl⟩ := exists_column inside
    obtain ⟨shape, scope⟩ := holds fits.expand
    exact ⟨fun each takes => shape each (takes.expand _),
      fun name each takes => scope name each (takes.expand _)⟩
  · intro problem line col supply supply' tested arms' member column branches built fits
    have inside := fits.inside member column
    obtain ⟨sources, lines⟩ := problem
    obtain ⟨before, source, after, rfl, rfl⟩ := exists_column inside
    rw [sourceAt_column] at branches built ⊢
    have inSources : source ∈ before ++ source :: after := by simp
    refine ⟨fun each takes => ⟨takes.sources source inSources, ?_,
        Term.eachMatchArms_iff.mpr fun arm inArms => ?_⟩, fun name each takes reads => ?_⟩
    · rw [map_pat_of_below built]
      exact isSwitch_parts branches (fun head inHeads => fits.has inHeads)
        (Family.nodup_eraseDups _)
    · have none : (Term.failure .unit).IsSwitching := trivial
      obtain ⟨part, inParts, -, holds⟩ := forall₂_of_mem built.flip inArms
      rcases exists_branch branches inParts with ⟨head, inHeads, branch⟩ | rfl
      · obtain ⟨-, names, length, -, below⟩ := branch.shape (fits.has inHeads)
        rw [below] at holds
        refine (holds (fits.specialize (types_fields length))).1 each
          (takes.specialize none (fun field inFields => ?_) head)
        obtain ⟨_, -, _, rfl⟩ := mem_fields inFields
        trivial
      · exact (holds fits.default).1 each (takes.default none)
    · rcases reads with reads | reads
      · exact takes.sources source inSources reads
      obtain ⟨arm, inArms, outside, reads⟩ := Term.readsArms_iff.mp reads
      have none : ¬ (Term.failure .unit).Reads name := id
      obtain ⟨part, inParts, pat, holds⟩ := forall₂_of_mem built.flip inArms
      rcases exists_branch branches inParts with ⟨head, inHeads, branch⟩ | rfl
      · obtain ⟨-, names, length, captures, below⟩ := branch.shape (fits.has inHeads)
        rw [below] at holds
        rw [pat, captures] at outside
        refine (holds (fits.specialize (types_fields length))).2 name each
          (takes.specialize none (fun field inFields => ?_) head) reads
        obtain ⟨other, inNames, _, rfl⟩ := mem_fields inFields
        rintro rfl
        exact outside inNames
      · exact (holds fits.default).2 name each (takes.default none) reads

end Scope

section Compile

variable {scrutinee : Term} {holds : Term → Prop}

theorem fits_start {name : Name} {sourceTy : Ty}
    (suits : ∀ arm ∈ arms, Suits subst registry arm.pat sourceTy) : Problem.Fits subst registry arms
      ⟨[.var name sourceTy], arms.zipIdx.map fun (arm, action) => ⟨[arm.pat], [], action⟩⟩ := by
  intro line member
  obtain ⟨⟨arm, action⟩, inside, rfl⟩ := List.mem_map.mp member
  have found : arms[action]? = some arm := List.mem_zipIdx_iff_getElem?.mp inside
  refine ⟨.cons (suits arm (List.mem_of_getElem? found)) .nil, fun other same name captured => ?_⟩
  obtain rfl := Option.some.inj (found.symm.trans same)
  exact .inr ⟨_, List.mem_cons_self, captured⟩

/-- Where the patterns fit, the switches of a match are switches, and its tree reads what the match
reads. -/
theorem scoped_compile
    (suits : ∀ arm ∈ arms, Suits subst registry arm.pat (subst.zonk scrutinee.ty))
    (supply : NameSupply) :
    (scrutinee.IsSwitching →
      (∀ arm ∈ arms, arm.body.IsSwitching) →
      (compile subst registry scrutinee arms ty supply).1.IsSwitching) ∧
    ∀ name : Name, (compile subst registry scrutinee arms ty supply).1.Reads name →
      (Term.matchOn scrutinee arms ty).Reads name := by
  have built := @Problem.Fits.build subst registry ty arms _
    (@fits_start subst registry arms (supply.mint "m").1 _ suits) (supply.mint "m").2
  refine ⟨fun inScrutinee inArms => ⟨⟨inScrutinee, trivial⟩, ?_⟩, fun name reads => ?_⟩
  · exact built.1 inArms (takes_start trivial arms)
  · rcases reads with ⟨-, reads⟩ | ⟨outside, reads⟩
    · exact .inl (reads.resolve_right id)
    · by_contra none
      refine built.2 name (fun arm member captured inBody => ?_) (takes_start ?_ arms) reads
      · exact none (.inr (Term.readsArms_iff.mpr ⟨arm, member, captured, inBody⟩))
      · exact fun same => outside (List.mem_singleton.mpr same)

end Compile

end Decision

namespace Term

open Decision

variable {subst : Subst} {registry : Registry}

/-- Every match has patterns of the type of its scrutinee, as far as this type is known. -/
def PatternsFit (subst : Subst) (registry : Registry) (term : Term) : Prop :=
  term.EachMatch fun ty pats => ∀ p ∈ pats, p.HasType subst registry (subst.zonk ty)

/-- Every match has patterns of the type of its scrutinee, and none of them captures a name
twice. -/
def Suited (subst : Subst) (registry : Registry) (term : Term) : Prop :=
  term.EachMatch fun ty pats => (∀ p ∈ pats, p.HasType subst registry (subst.zonk ty)) ∧
  ∀ p ∈ pats, p.Linear

/-- What a term is lowered to: shallow matches only, and where its patterns suit their scrutinees,
switches only, and no other free names. -/
structure Flat (subst : Subst) (registry : Registry) (term lowered : Term) : Prop where
  ty : lowered.ty = term.ty
  shallow : lowered.IsShallow
  switches : term.Suited subst registry → lowered.IsSwitching
  reads : term.Suited subst registry → ∀ name : Name, lowered.Reads name → term.Reads name

theorem flat_same {term : Term} (none : ∀ holds, term.EachMatch holds) :
    Flat subst registry term term :=
  ⟨rfl, none _, fun _ => none _, fun _ _ => id⟩

section Parts

variable {ty : Ty} {terms terms' : List Term} {definitions definitions' : List Definition}
  {arms arms' : List Arm} {term lowered : Term}

def FlatDefinition (subst : Subst) (registry : Registry) (definition lowered : Definition) : Prop :=
  lowered.name = definition.name ∧ Flat subst registry definition.value lowered.value

def FlatArm (subst : Subst) (registry : Registry) (arm lowered : Arm) : Prop :=
  lowered.pat = arm.pat ∧ Flat subst registry arm.body lowered.body

theorem names_of_flat
    (each : List.Forall₂ (FlatDefinition subst registry) definitions definitions') :
    definitions'.map (·.name) = definitions.map (·.name) := by
  induction each with
  | nil => rfl
  | cons first _ ih => rw [List.map_cons, List.map_cons, first.1, ih]

theorem flat_tuple (each : List.Forall₂ (Flat subst registry) terms terms') :
    Flat subst registry (.tuple terms ty) (.tuple terms' ty) where
  ty := rfl
  shallow := eachMatchAll_iff.mpr fun term member =>
    let ⟨_, _, flat⟩ := forall₂_of_mem each.flip member
    flat.shallow
  switches fits := eachMatchAll_iff.mpr fun term member =>
    let ⟨_, inTerms, flat⟩ := forall₂_of_mem each.flip member
    flat.switches (eachMatchAll_iff.mp fits _ inTerms)
  reads fits name reads := by
    obtain ⟨term, member, reads⟩ := readsAny_iff.mp reads
    obtain ⟨term', inTerms, flat⟩ := forall₂_of_mem each.flip member
    exact readsAny_iff.mpr ⟨term', inTerms,
      flat.reads (eachMatchAll_iff.mp fits _ inTerms) name reads⟩

theorem flat_letIn {recursive : Bool}
    (each : List.Forall₂ (FlatDefinition subst registry) definitions definitions')
    (flat : Flat subst registry term lowered) :
    Flat subst registry (.letIn recursive definitions term ty)
    (.letIn recursive definitions' lowered ty) where
  ty := rfl
  shallow := ⟨eachMatchDefinitions_iff.mpr fun definition member =>
    let ⟨_, _, _, flat⟩ := forall₂_of_mem each.flip member
    flat.shallow, flat.shallow⟩
  switches fits := ⟨eachMatchDefinitions_iff.mpr fun definition member =>
    let ⟨_, inside, _, flat⟩ := forall₂_of_mem each.flip member
    flat.switches (eachMatchDefinitions_iff.mp fits.1 _ inside), flat.switches fits.2⟩
  reads fits name reads := by
    rw [Reads, names_of_flat each] at reads
    refine reads.imp (fun ⟨hidden, reads⟩ => ⟨hidden, ?_⟩) fun ⟨outside, reads⟩ =>
      ⟨outside, flat.reads fits.2 name reads⟩
    obtain ⟨definition, member, reads⟩ := readsDefinitions_iff.mp reads
    obtain ⟨other, inside, -, flat⟩ := forall₂_of_mem each.flip member
    exact readsDefinitions_iff.mpr
      ⟨other, inside, flat.reads (eachMatchDefinitions_iff.mp fits.1 _ inside) name reads⟩

theorem suits_lowered {scrutinee scrutinee' : Term}
    (flat : Flat subst registry scrutinee scrutinee')
    (each : List.Forall₂ (FlatArm subst registry) arms arms')
    (fits : Suited subst registry (.matchOn scrutinee arms ty)) :
    ∀ arm ∈ arms', Suits subst registry arm.pat (subst.zonk scrutinee'.ty) := by
  intro arm member
  obtain ⟨other, inArms, pat, -⟩ := forall₂_of_mem each.flip member
  rw [pat, flat.ty]
  have inPats : other.pat ∈ arms.map Arm.pat := List.mem_map_of_mem inArms
  exact ⟨fits.2.1.1 _ inPats, (fits.2.1.2 _ inPats).uniform⟩

theorem flat_matchOn {scrutinee scrutinee' : Term} (flat : Flat subst registry scrutinee scrutinee')
    (each : List.Forall₂ (FlatArm subst registry) arms arms') (supply : NameSupply) :
    Flat subst registry (.matchOn scrutinee arms ty)
    (compile subst registry scrutinee' arms' ty supply).1 where
  ty := rfl
  shallow := shallow_compile flat.shallow (fun arm member =>
    let ⟨_, _, _, flat⟩ := forall₂_of_mem each.flip member
    flat.shallow) supply
  switches fits := by
    refine (scoped_compile (suits_lowered flat each fits) supply).1 (flat.switches fits.1) fun arm
      member => ?_
    obtain ⟨other, inArms, -, flat⟩ := forall₂_of_mem each.flip member
    exact flat.switches (eachMatchArms_iff.mp fits.2.2 other inArms)
  reads fits name reads := by
    refine ((scoped_compile (suits_lowered flat each fits) supply).2 name reads).imp
      (flat.reads fits.1 name) fun reads => ?_
    obtain ⟨arm, member, outside, reads⟩ := readsArms_iff.mp reads
    obtain ⟨other, inArms, pat, flat⟩ := forall₂_of_mem each.flip member
    rw [pat] at outside
    exact readsArms_iff.mpr
      ⟨other, inArms, outside, flat.reads (eachMatchArms_iff.mp fits.2.2 other inArms) name reads⟩

end Parts

mutual

theorem flat_lower : ∀ (term : Term) (supply : NameSupply),
    Flat subst registry term (lower subst registry term supply).1
  | .var _ _, _ => flat_same fun _ => trivial
  | .lit _ _, _ => flat_same fun _ => trivial
  | .failure _, _ => flat_same fun _ => trivial
  | .tuple elems _, supply => flat_tuple (flat_lowerAll elems supply)
  | .ctor _ _ _ none _, _ => flat_same fun _ => trivial
  | .ctor _ _ _ (some arg) _, supply =>
    let flat := flat_lower arg supply
    ⟨rfl, flat.shallow, flat.switches, flat.reads⟩
  | .lambda _ _ body _, supply =>
    let flat := flat_lower body supply
    ⟨rfl, flat.shallow, flat.switches,
      fun fits name reads => ⟨reads.1, flat.reads fits name reads.2⟩⟩
  | .app func arg _, supply =>
    let flat := flat_lower func supply
    let flat' := flat_lower arg (lower subst registry func supply).2
    ⟨rfl, ⟨flat.shallow, flat'.shallow⟩, fun fits => ⟨flat.switches fits.1, flat'.switches fits.2⟩,
      fun fits name => Or.imp (flat.reads fits.1 name) (flat'.reads fits.2 name)⟩
  | .letIn _ definitions body _, supply =>
    flat_letIn (flat_lowerDefinitions definitions supply)
      (flat_lower body (lowerDefinitions subst registry definitions supply).2)
  | .matchOn scrutinee arms _, supply =>
    flat_matchOn (flat_lower scrutinee supply)
      (flat_lowerArms arms (lower subst registry scrutinee supply).2) _

theorem flat_lowerAll : ∀ (terms : List Term) (supply : NameSupply),
    List.Forall₂ (Flat subst registry) terms (lowerAll subst registry terms supply).1
  | [], _ => .nil
  | term :: terms, supply =>
    .cons (flat_lower term supply) (flat_lowerAll terms (lower subst registry term supply).2)

theorem flat_lowerDefinitions : ∀ (definitions : List Definition) (supply : NameSupply),
    List.Forall₂ (FlatDefinition subst registry) definitions
      (lowerDefinitions subst registry definitions supply).1
  | [], _ => .nil
  | ⟨_, _, value⟩ :: rest, supply =>
    .cons ⟨rfl, flat_lower value supply⟩
      (flat_lowerDefinitions rest (lower subst registry value supply).2)

theorem flat_lowerArms : ∀ (arms : List Arm) (supply : NameSupply),
    List.Forall₂ (FlatArm subst registry) arms (lowerArms subst registry arms supply).1
  | [], _ => .nil
  | ⟨_, body⟩ :: rest, supply =>
    .cons ⟨rfl, flat_lower body supply⟩ (flat_lowerArms rest (lower subst registry body supply).2)

end

end Term

end PolyCheck
