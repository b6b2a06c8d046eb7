import PolyCheck.Proofs.Name
import PolyCheck.Proofs.Pat.Family
import PolyCheck.Proofs.Term.Evaluation
import PolyCheck.Term.Decision

/-! A decision tree selects the first case that matches. A problem is read as its lines tried from
the first to the last; expanding a column, splitting it by the head of a value and leaving it out
for the other values do not change which line is selected and what it captures, up to the order of
the captures. Names minted for fields hide nothing that was there before. -/
namespace PolyCheck.Decision

open Pat (match? matchAll? matchFirst?)

section Rows

variable {before after inserted : Row} {p : Pat} {values others fields : List Value} {value : Value}

/-- What three stretches of a row capture together. -/
def around (first middle last : Option Bindings) : Option Bindings :=
  first.bind fun a => middle.bind fun b => last.map fun c => a ++ b ++ c

theorem matchAll?_splice (length : before.length = values.length)
    (length' : inserted.length = fields.length) :
    matchAll? (before ++ inserted ++ after) (values ++ fields ++ others) =
      around (matchAll? before values) (matchAll? inserted fields) (matchAll? after others) := by
  rw [List.append_assoc, List.append_assoc, Pat.matchAll?_append length,
    Pat.matchAll?_append length', around]
  cases matchAll? before values with
  | none => rfl
  | some a =>
    cases matchAll? inserted fields with
    | none => rfl
    | some b => cases matchAll? after others <;> simp

theorem matchAll?_column (length : before.length = values.length) :
    matchAll? (before ++ p :: after) (values ++ value :: others) =
      around (matchAll? before values) (match? p value) (matchAll? after others) := by
  rw [Pat.matchAll?_append length, around]
  cases matchAll? before values with
  | none => rfl
  | some a =>
    simp only [Option.bind_some, matchAll?, Option.bind_eq_bind]
    cases match? p value with
    | none => rfl
    | some b => cases matchAll? after others <;> simp

theorem findSome?_around {α : Type} (first last : Option Bindings) (value : Value) (ps : List Pat)
    (shown : Bindings → α) :
    ps.findSome? (fun p => (around first (match? p value) last).map shown) =
      (around first (matchFirst? ps value) last).map shown := by
  induction ps with
  | nil => cases first <;> simp [around, matchFirst?]
  | cons p ps ih =>
    rw [List.findSome?_cons, ih, matchFirst?]
    cases first with
    | none => rfl
    | some a =>
      cases last with
      | none => cases match? p value <;> cases matchFirst? ps value <;> rfl
      | some c => cases match? p value <;> rfl

end Rows

section Columns

variable {α : Type} {items : List α} {col : Nat}

theorem exists_column (inside : col < items.length) :
    ∃ before item after, items = before ++ item :: after ∧ before.length = col :=
  ⟨items.take col, items[col], items.drop (col + 1), by simp, by simp; omega⟩

theorem splice_column (before after : List α) (item : α) (inserted : List α) :
    splice (before ++ item :: after) before.length inserted = before ++ inserted ++ after := by
  simp [splice]

theorem mem_splice {items inserted : List α} {col : Nat} {item : α}
    (member : item ∈ splice items col inserted) : item ∈ items ∨ item ∈ inserted := by
  rcases List.mem_append.mp member with before | after
  · exact (List.mem_append.mp before).imp List.mem_of_mem_take id
  · exact .inl (List.mem_of_mem_drop after)

theorem getElem?_column (before after : List α) (item : α) :
    (before ++ item :: after)[before.length]? = some item := by
  simp

end Columns

section Selection

def held? (env : Bindings) : Term → Option Value
  | .var name _ => env.value? name
  | _ => none

def Line.bindings (env : Bindings) (line : Line) : Bindings :=
  line.captured.filterMap fun (name, source) => (held? env source).map (name, ·)

/-- What a line captures of some values, if it matches them. -/
def Line.select? (env : Bindings) (values : List Value) (line : Line) : Option Bindings :=
  (matchAll? line.pats values).map (line.bindings env ++ ·)

def select? (env : Bindings) (values : List Value) (lines : List Line) : Option (Nat × Bindings) :=
  lines.findSome? fun line => (line.select? env values).map (line.action, ·)

def Agrees : Option (Nat × Bindings) → Option (Nat × Bindings) → Prop :=
  Option.Rel fun first second => first.1 = second.1 ∧ first.2.Perm second.2

/-- Lines of which some are dropped, those that do not match, and the others changed in what they
test, not in what they select. -/
theorem agrees_filterMap {env env' : Bindings} {values values' : List Value} {lines : List Line}
    {change : Line → Option Line}
    (each : ∀ line ∈ lines, match change line with
      | none => line.select? env values = none
      | some result => result.action = line.action ∧
        Option.Rel List.Perm (result.select? env' values') (line.select? env values)) :
    Agrees (select? env' values' (lines.filterMap change)) (select? env values lines) := by
  induction lines with
  | nil => exact .none
  | cons line lines ih =>
    have here := each line List.mem_cons_self
    have rest := ih fun other member => each other (List.mem_cons_of_mem line member)
    cases found : change line with
    | none =>
      rw [found] at here
      rw [List.filterMap_cons_none found, select?, select?, List.findSome?_cons, here]
      exact rest
    | some result =>
      rw [found] at here
      rw [List.filterMap_cons_some found, select?, select?, List.findSome?_cons,
        List.findSome?_cons]
      obtain ⟨action, same⟩ := here
      generalize result.select? env' values' = shown, line.select? env values = selected at same ⊢
      cases same with
      | none => exact rest
      | some perm => exact .some ⟨action, perm⟩

end Selection

section Steps

variable {env : Bindings} {values others fields : List Value} {value : Value} {line : Line}
  {before after inserted : Row} {p : Pat} {capture : Option Name} {source : Term} {head : Head}

theorem Line.at_column (pats : line.pats = before ++ p :: after) : line.at before.length = p := by
  rw [Line.at, pats, getElem?_column, Option.getD_some]

theorem Line.select?_column (pats : line.pats = before ++ p :: after)
    (length : before.length = values.length) :
    line.select? env (values ++ value :: others) =
      (around (matchAll? before values) (match? p value) (matchAll? after others)).map
        (line.bindings env ++ ·) := by
  rw [Line.select?, pats, matchAll?_column length]

theorem select?_expand (pats : line.pats = before ++ p :: after)
    (length : before.length = values.length) :
    select? env (values ++ value :: others) (line.expand before.length) =
      (line.select? env (values ++ value :: others)).map (line.action, ·) := by
  have shown : ∀ q, ({ line with pats := line.pats.set before.length q } : Line).select? env
      (values ++ value :: others) =
        (around (matchAll? before values) (match? q value) (matchAll? after others)).map
          (line.bindings env ++ ·) := fun q =>
    Line.select?_column (by simp [pats]) length
  rw [select?, Line.expand, Line.at_column pats, List.findSome?_map,
    Line.select?_column pats length, Option.map_map, ← Pat.matchFirst?_alternatives,
    ← findSome?_around]
  congr 1
  funext q
  simp only [Function.comp_apply, shown, Option.map_map]

theorem Line.bindings_replace (pats : line.pats = before ++ .wild capture :: after)
    (held : held? env source = some value) (inserted : Row) :
    (line.replace before.length source inserted).bindings env =
      line.bindings env ++ capture.toList.map (·, value) := by
  rw [Line.bindings, Line.replace, Line.at_column pats]
  cases capture with
  | none => simp [Line.bindings]
  | some name => simp [Line.bindings, held]

theorem Line.pats_replace (pats : line.pats = before ++ p :: after) (inserted : Row) :
    (line.replace before.length source inserted).pats = before ++ inserted ++ after := by
  rw [Line.replace]
  exact pats ▸ splice_column before after p inserted

theorem Line.select?_replace_wild (pats : line.pats = before ++ .wild capture :: after)
    (length : before.length = values.length) (held : held? env source = some value)
    (nothing : matchAll? inserted fields = some []) :
    Option.Rel List.Perm
      ((line.replace before.length source inserted).select? env (values ++ fields ++ others))
      (line.select? env (values ++ value :: others)) := by
  rw [Line.select?_column pats length, Line.select?, Line.pats_replace pats,
    matchAll?_splice length (Pat.length_of_matchAll? nothing), Line.bindings_replace pats held,
    nothing, Pat.match?_wild]
  cases matchAll? before values with
  | none => exact .none
  | some a =>
    cases matchAll? after others with
    | none => exact .none
    | some c =>
      refine .some ?_
      simp only [List.append_nil, List.append_assoc]
      exact (List.perm_append_comm_assoc _ _ _).append_left _

theorem Line.select?_replace_head (pats : line.pats = before ++ p :: after)
    (length : before.length = values.length) (own : p.head? = some head)
    (length' : p.fields.length = fields.length) :
    (line.replace before.length source p.fields).select? env (values ++ fields ++ others) =
      line.select? env (values ++ .build head fields :: others) := by
  have notWild : ∀ {name}, p ≠ .wild name := by
    rintro name rfl
    simp [Pat.head?] at own
  have bindings : (line.replace before.length source p.fields).bindings env =
      line.bindings env := by
    rw [Line.bindings, Line.replace, Line.at_column pats]
    cases p with
    | wild name => exact absurd rfl notWild
    | bool _ | int _ _ | str _ | tuple _ | ctor _ _ _ _ | oneOf _ => rfl
  rw [Line.select?_column pats length, Line.select?, Line.pats_replace pats,
    matchAll?_splice length length', bindings, Pat.match?_build own length']

end Steps

section Column

variable {α β : Type} {rel : α → β → Prop} {before after : List α} {item : α}

theorem forall₂_column {others : List β}
    (each : List.Forall₂ rel (before ++ item :: after) others) :
    ∃ before' item' after', others = before' ++ item' :: after' ∧ List.Forall₂ rel before before' ∧
      rel item item' ∧ List.Forall₂ rel after after' := by
  induction before generalizing others with
  | nil =>
    cases each with
    | @cons _ item' _ after' first rest => exact ⟨[], item', after', rfl, .nil, first, rest⟩
  | cons x before ih =>
    cases each with
    | @cons _ x' _ others first rest =>
      obtain ⟨before', item', after', rfl, inBefore, here, inAfter⟩ := ih rest
      exact ⟨x' :: before', item', after', rfl, .cons first inBefore, here, inAfter⟩

theorem forall₂_of_mem {items : List α} {others : List β} (each : List.Forall₂ rel items others)
    (member : item ∈ items) : ∃ other ∈ others, rel item other := by
  induction each with
  | nil => simp at member
  | @cons first other items others here _ ih =>
    rcases List.mem_cons.mp member with rfl | member
    · exact ⟨other, List.mem_cons_self, here⟩
    · obtain ⟨found, inside, holds⟩ := ih member
      exact ⟨found, List.mem_cons_of_mem other inside, holds⟩

end Column

section Suited

variable {β : Type} {rel : Pat → β → Prop} {before after insertedColumns : List β} {column : β}
  {line : Line}

theorem Line.split_column (each : List.Forall₂ rel line.pats (before ++ column :: after)) :
    ∃ row p row', line.pats = row ++ p :: row' ∧ row.length = before.length ∧
      List.Forall₂ rel row before ∧ rel p column ∧ List.Forall₂ rel row' after := by
  obtain ⟨row, p, row', pats, inRow, here, inRow'⟩ := forall₂_column each.flip
  exact ⟨row, p, row', pats, inRow.length_eq.symm, inRow.flip, here, inRow'.flip⟩

theorem Line.rel_expand (each : List.Forall₂ rel line.pats (before ++ column :: after))
    (goesDown : ∀ {p q : Pat}, rel p column → q ∈ p.alternatives → rel q column) {result : Line}
    (member : result ∈ line.expand before.length) :
    List.Forall₂ rel result.pats (before ++ column :: after) := by
  obtain ⟨row, p, row', pats, length, inRow, here, inRow'⟩ := Line.split_column each
  rw [Line.expand, ← length, Line.at_column pats] at member
  obtain ⟨q, inside, rfl⟩ := List.mem_map.mp member
  simp only [pats, List.set_append_right _ _ (Nat.le_refl _), Nat.sub_self, List.set_cons_zero]
  exact List.rel_append inRow (.cons (goesDown here inside) inRow')

theorem Line.rel_replace {source : Term} {inserted : Row}
    (each : List.Forall₂ rel line.pats (before ++ column :: after))
    (suited : List.Forall₂ rel inserted insertedColumns) :
    List.Forall₂ rel (line.replace before.length source inserted).pats
      (before ++ insertedColumns ++ after) := by
  obtain ⟨row, p, row', pats, length, inRow, -, inRow'⟩ := Line.split_column each
  rw [← length, Line.pats_replace pats]
  exact List.rel_append (List.rel_append inRow suited) inRow'

end Suited

section Problems

variable {subst : Subst} {registry : Registry} {supply supply' : NameSupply} {env hidden : Bindings}
  {source : Term} {value : Value} {line : Line} {types : List Ty}

/-- A source that the environment has a value of its type for, under a name that is not minted any
more. -/
inductive Holds (subst : Subst) (registry : Registry) (supply : NameSupply) (env : Bindings) :
    Term → Value → Prop where
  | var {name : Name} {ty : Ty} {value : Value} (spent : supply.Spent name)
    (found : env.value? name = some value) (typed : value.HasType subst registry ty) :
    Holds subst registry supply env (.var name ty) value

structure Line.Sound (subst : Subst) (registry : Registry) (supply : NameSupply) (env : Bindings)
    (types : List Ty) (line : Line) : Prop where
  typed : List.Forall₂ (Pat.HasType subst registry) line.pats types
  captured : ∀ entry ∈ line.captured, ∃ value, Holds subst registry supply env entry.2 value

/-- Typed lines over sources that stand for the given values. -/
structure Problem.Sound (subst : Subst) (registry : Registry) (supply : NameSupply) (env : Bindings)
    (problem : Problem) (values : List Value) : Prop where
  sources : List.Forall₂ (Holds subst registry supply env) problem.sources values
  lines : ∀ line ∈ problem.lines,
    line.Sound subst registry supply env (problem.sources.map Term.ty)

theorem value?_hidden {name : Name} (minted : ∀ entry ∈ hidden, ¬ supply.Spent entry.1)
    (spent : supply.Spent name) : (env ++ hidden).value? name = env.value? name := by
  have absent : hidden.value? name = none := by
    rw [Bindings.value?, List.lookup_eq_none_iff]
    rintro entry member
    rw [bne_iff_ne]
    rintro rfl
    exact minted entry (List.mem_reverse.mp member) spent
  rw [Bindings.value?_append, absent, Option.none_or]

theorem Holds.held (holds : Holds subst registry supply env source value) :
    held? env source = some value := by
  cases holds with
  | var _ found _ => exact found

theorem Holds.typed (holds : Holds subst registry supply env source value) :
    value.HasType subst registry source.ty := by
  cases holds with
  | var _ _ typed => exact typed

theorem Holds.later (holds : Holds subst registry supply env source value)
    (minted : ∀ entry ∈ hidden, ¬ supply.Spent entry.1) (le : supply.next ≤ supply'.next) :
    Holds subst registry supply' (env ++ hidden) source value := by
  cases holds with
  | var spent found typed =>
    exact .var (spent.mono le) ((value?_hidden minted spent).trans found) typed

theorem Problem.Sound.later {problem : Problem} {values : List Value}
    (sound : problem.Sound subst registry supply env values)
    (minted : ∀ entry ∈ hidden, ¬ supply.Spent entry.1) (le : supply.next ≤ supply'.next) :
    problem.Sound subst registry supply' (env ++ hidden) values where
  sources := sound.sources.imp fun _ _ holds => holds.later minted le
  lines line member :=
    ⟨(sound.lines line member).typed, fun entry inside =>
      let ⟨value, holds⟩ := (sound.lines line member).captured entry inside
      ⟨value, holds.later minted le⟩⟩

theorem select?_later {lines : List Line} {values : List Value}
    (sound : ∀ line ∈ lines, line.Sound subst registry supply env types)
    (minted : ∀ entry ∈ hidden, ¬ supply.Spent entry.1) :
    select? (env ++ hidden) values lines = select? env values lines := by
  have bindings : ∀ line ∈ lines, line.bindings (env ++ hidden) = line.bindings env := by
    intro line member
    refine List.filterMap_congr fun entry inside => ?_
    obtain ⟨name, source⟩ := entry
    obtain ⟨value, holds⟩ := (sound line member).captured _ inside
    simp only [holds.held, (holds.later minted (Nat.le_refl _)).held]
  induction lines with
  | nil => rfl
  | cons line lines ih =>
    rw [select?, select?, List.findSome?_cons, List.findSome?_cons, Line.select?, Line.select?,
      bindings line List.mem_cons_self]
    have rest := ih (fun other member => sound other (List.mem_cons_of_mem line member))
      fun other member => bindings other (List.mem_cons_of_mem line member)
    rw [select?, select?] at rest
    rw [rest]

variable {before after fieldSources : List Term} {values others fields : List Value}
  {lines : List Line} {head : Head}

theorem Line.Sound.column
    (sound : line.Sound subst registry supply env ((before ++ source :: after).map Term.ty)) :
    ∃ row p row', line.pats = row ++ p :: row' ∧ row.length = before.length ∧
      List.Forall₂ (Pat.HasType subst registry) row (before.map Term.ty) ∧
      p.HasType subst registry source.ty ∧
      List.Forall₂ (Pat.HasType subst registry) row' (after.map Term.ty) := by
  have typed := sound.typed
  rw [List.map_append, List.map_cons] at typed
  obtain ⟨row, p, row', pats, length, inRow, here, inRow'⟩ := Line.split_column typed
  exact ⟨row, p, row', pats, length.trans (List.length_map _), inRow, here, inRow'⟩

theorem sourceAt_column :
    Problem.sourceAt ⟨before ++ source :: after, lines⟩ before.length = source := by
  rw [Problem.sourceAt, getElem?_column, Option.getD_some]

theorem Line.Sound.expand
    (sound : line.Sound subst registry supply env ((before ++ source :: after).map Term.ty))
    {result : Line} (member : result ∈ line.expand before.length) :
    result.Sound subst registry supply env ((before ++ source :: after).map Term.ty) := by
  have typed := sound.typed
  rw [List.map_append, List.map_cons] at typed ⊢
  refine ⟨Line.rel_expand typed (fun here => here.alternatives) (by rwa [List.length_map]), ?_⟩
  obtain ⟨q, -, rfl⟩ := List.mem_map.mp member
  exact sound.captured

theorem Problem.Sound.expand
    (sound : Problem.Sound subst registry supply env ⟨before ++ source :: after, lines⟩
      (values ++ value :: others)) (length : before.length = values.length) :
    (Problem.expand ⟨before ++ source :: after, lines⟩ before.length).Sound subst
      registry supply env (values ++ value :: others) ∧
      select? env (values ++ value :: others)
        (Problem.expand ⟨before ++ source :: after, lines⟩ before.length).lines =
          select? env (values ++ value :: others) lines := by
  refine ⟨⟨sound.sources, fun line member => ?_⟩, ?_⟩
  · obtain ⟨line', inside, expanded⟩ := List.mem_flatMap.mp member
    exact (sound.lines line' inside).expand expanded
  · have each := sound.lines
    simp only [Problem.expand]
    clear sound
    induction lines with
    | nil => rfl
    | cons line lines ih =>
      obtain ⟨row, p, row', pats, length', -⟩ := (each line List.mem_cons_self).column
      have here :=
        @select?_expand env values others value line row row' p pats (length'.trans length)
      have rest := ih fun other member => each other (List.mem_cons_of_mem line member)
      rw [length'] at here
      rw [List.flatMap_cons, select?, List.findSome?_append, ← select?, ← select?, here, rest]
      simp only [select?, List.findSome?_cons]
      cases line.select? env (values ++ value :: others) <;> rfl

theorem Line.Sound.replace {inserted : Row} {insertedTypes : List Ty}
    (sound : line.Sound subst registry supply env ((before ++ source :: after).map Term.ty))
    (holds : ∃ value, Holds subst registry supply env source value)
    (typed : List.Forall₂ (Pat.HasType subst registry) inserted insertedTypes) :
    (line.replace before.length source inserted).Sound subst registry supply env
      (before.map Term.ty ++ insertedTypes ++ after.map Term.ty) := by
  have each := sound.typed
  rw [List.map_append, List.map_cons] at each
  have replaced := @Line.rel_replace Ty _ _ _ _ _ _ source _ each typed
  rw [List.length_map] at replaced
  refine ⟨replaced, fun entry member => ?_⟩
  rw [Line.replace] at member
  simp only at member
  split at member
  · rcases List.mem_append.mp member with member | member
    · exact sound.captured entry member
    · rw [List.mem_singleton.mp member]
      exact holds
  · exact sound.captured entry member

theorem hasType_anys (types : List Ty) :
    List.Forall₂ (Pat.HasType subst registry) (Pat.anys types.length) types := by
  induction types with
  | nil => exact .nil
  | cons ty types ih => exact .cons (.wild none ty) ih

theorem Problem.Sound.column
    (sound : Problem.Sound subst registry supply env ⟨before ++ source :: after, lines⟩
      (values ++ value :: others)) (length : before.length = values.length) :
    List.Forall₂ (Holds subst registry supply env) before values ∧
      Holds subst registry supply env source value ∧
      List.Forall₂ (Holds subst registry supply env) after others := by
  obtain ⟨_, _, _, same, inBefore, holds, inAfter⟩ := forall₂_column sound.sources
  obtain ⟨rfl, rest⟩ := List.append_inj same (length.symm.trans inBefore.length_eq)
  obtain ⟨rfl, rfl⟩ := List.cons.inj rest
  exact ⟨inBefore, holds, inAfter⟩

theorem Line.Sound.specialize? {result : Line}
    (sound : line.Sound subst registry supply env ((before ++ source :: after).map Term.ty))
    (holds : ∃ value, Holds subst registry supply env source value)
    (fieldTypes : fieldSources.map Term.ty =
      (Family.of source.ty subst registry).fieldTypes registry head)
    (found : line.specialize? before.length source head fieldSources.length = some result) :
    result.Sound subst registry supply env
      ((before ++ fieldSources ++ after).map Term.ty) := by
  obtain ⟨row, p, row', pats, length, -, here, -⟩ := sound.column
  rw [List.map_append, List.map_append, fieldTypes]
  simp only [Line.specialize?] at found
  split at found
  · obtain rfl := Option.some.inj found
    refine sound.replace holds ?_
    have length' : (fieldSources.map Term.ty).length = fieldSources.length := List.length_map _
    rw [← length', fieldTypes]
    exact hasType_anys _
  · split at found
    · rename_i own
      obtain rfl := Option.some.inj found
      rw [← length, Line.at_column pats] at own ⊢
      rw [length]
      exact sound.replace holds (here.hasHead own).2
    · simp at found

theorem Problem.Sound.specialize
    (sound : Problem.Sound subst registry supply env ⟨before ++ source :: after, lines⟩
      (values ++ .build head fields :: others)) (length : before.length = values.length)
    (single : ∀ line ∈ lines, (line.at before.length).isOneOf = false)
    (has : (Family.of source.ty subst registry).Has registry head)
    (fieldTypes : fieldSources.map Term.ty =
      (Family.of source.ty subst registry).fieldTypes registry head)
    (held : List.Forall₂ (Holds subst registry supply env) fieldSources fields) :
    (Problem.specialize ⟨before ++ source :: after, lines⟩ before.length head fieldSources).Sound
        subst registry supply env (values ++ fields ++ others) ∧
      Agrees (select? env (values ++ fields ++ others)
          (Problem.specialize ⟨before ++ source :: after, lines⟩ before.length head
            fieldSources).lines)
        (select? env (values ++ .build head fields :: others) lines) := by
  obtain ⟨inBefore, holds, inAfter⟩ := sound.column length
  have arity : fields.length = (Family.of source.ty subst registry).arity registry head := by
    rw [← Family.length_fieldTypes, ← fieldTypes, List.length_map, held.length_eq]
  refine ⟨⟨?_, fun line member => ?_⟩, ?_⟩
  · rw [Problem.specialize, splice_column]
    exact List.rel_append (List.rel_append inBefore held) inAfter
  · rw [Problem.specialize, splice_column]
    simp only [Problem.specialize, sourceAt_column] at member
    obtain ⟨line', inside, found⟩ := List.mem_filterMap.mp member
    exact (sound.lines line' inside).specialize? ⟨_, holds⟩ fieldTypes found
  · simp only [Problem.specialize, sourceAt_column]
    refine agrees_filterMap fun line member => ?_
    obtain ⟨row, p, row', pats, length', -, here, -⟩ := (sound.lines line member).column
    have atColumn : line.at before.length = p := length' ▸ Line.at_column pats
    have alone := single line member
    rw [atColumn] at alone
    simp only [Line.specialize?, atColumn]
    cases wild : p.isWild with
    | true =>
      cases p with
      | wild capture =>
        simp only [if_true]
        refine ⟨rfl, ?_⟩
        rw [← length']
        refine Line.select?_replace_wild pats (length'.trans length) holds.held ?_
        rw [held.length_eq]
        exact Pat.matchAll?_anys fields
      | bool _ | int _ _ | str _ | tuple _ | ctor _ _ _ _ | oneOf _ => simp [Pat.isWild] at wild
    | false =>
      obtain ⟨own, found⟩ := Pat.head?_of_not_wild wild alone
      simp only [Bool.false_eq_true, if_false, found]
      by_cases same : own = head
      · subst same
        have fieldsLength : p.fields.length = fields.length := by
          rw [arity, ← Family.length_fieldTypes, (here.hasHead found).2.length_eq]
        rw [if_pos rfl]
        refine ⟨rfl, ?_⟩
        rw [← length', Line.select?_replace_head pats (length'.trans length) found fieldsLength]
        cases line.select? env (values ++ .build own fields :: others) with
        | none => exact .none
        | some _ => exact .some (.refl _)
      · rw [if_neg (by simpa using same)]
        rw [Line.select?_column pats (length'.trans length),
          Pat.match?_build_of_ne found same fun count tuple => arity.trans (has.arity tuple)]
        cases matchAll? row values <;> rfl

/-- Leaving out a column whose value has a head that no line names. -/
theorem Problem.Sound.default
    (sound : Problem.Sound subst registry supply env ⟨before ++ source :: after, lines⟩
      (values ++ .build head fields :: others)) (length : before.length = values.length)
    (single : ∀ line ∈ lines, (line.at before.length).isOneOf = false)
    (unnamed : ∀ line ∈ lines, (line.at before.length).head? ≠ some head)
    (arity : ∀ count, head = .tuple count → fields.length = count) :
    (Problem.default ⟨before ++ source :: after, lines⟩ before.length).Sound subst
      registry supply env (values ++ others) ∧
      Agrees (select? env (values ++ others)
          (Problem.default ⟨before ++ source :: after, lines⟩ before.length).lines)
        (select? env (values ++ .build head fields :: others) lines) := by
  obtain ⟨inBefore, holds, inAfter⟩ := sound.column length
  refine ⟨⟨?_, fun line member => ?_⟩, ?_⟩
  · rw [Problem.default, splice_column, List.append_nil]
    exact List.rel_append inBefore inAfter
  · rw [Problem.default, splice_column]
    simp only [Problem.default, sourceAt_column] at member
    obtain ⟨line', inside, found⟩ := List.mem_filterMap.mp member
    simp only [Line.default?] at found
    split at found
    · obtain rfl := Option.some.inj found
      have replaced := (sound.lines line' inside).replace ⟨_, holds⟩ .nil
      simpa using replaced
    · simp at found
  · simp only [Problem.default, sourceAt_column]
    refine agrees_filterMap fun line member => ?_
    obtain ⟨row, p, row', pats, length', -⟩ := (sound.lines line member).column
    have atColumn : line.at before.length = p := length' ▸ Line.at_column pats
    have alone := single line member
    have other := unnamed line member
    rw [atColumn] at alone other
    simp only [Line.default?, atColumn]
    cases wild : p.isWild with
    | true =>
      cases p with
      | wild capture =>
        simp only [if_true]
        refine ⟨rfl, ?_⟩
        have nothing : matchAll? [] [] = some [] := by rw [matchAll?]
        have kept := @Line.select?_replace_wild env values others _ _ line row row' _ capture _ pats
          (length'.trans length) holds.held nothing
        rwa [List.append_nil, length'] at kept
      | bool _ | int _ _ | str _ | tuple _ | ctor _ _ _ _ | oneOf _ => simp [Pat.isWild] at wild
    | false =>
      obtain ⟨own, found⟩ := Pat.head?_of_not_wild wild alone
      rw [found] at other
      simp only [Bool.false_eq_true, if_false]
      rw [Line.select?_column pats (length'.trans length),
        Pat.match?_build_of_ne found (by simpa using other) arity]
      cases matchAll? row values <;> rfl

end Problems

end PolyCheck.Decision
