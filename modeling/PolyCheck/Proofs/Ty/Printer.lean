import PolyCheck.Proofs.Name
import PolyCheck.Proofs.Subst.Normal
import PolyCheck.Ty.Printer

/-! The text of a type tells the type. Variables and definitions are written as words, and a type
with a word at its head is the word with its arguments behind it; such a call, an arrow and a tuple
are the only forms. What may follow the text of a type depends on its place: the end, a closing
parenthesis or a comma anywhere, the sign of an arrow too behind its parameter, and a blank behind
an argument. With such rests the text of one type is never continued by another reading, so two
texts with rests that are the same have the same types and the same rests. -/
namespace PolyCheck

structure IsWord (text : List Char) : Prop where
  plain : ∀ c ∈ text, c ≠ ' ' ∧ c ≠ '(' ∧ c ≠ ')' ∧ c ≠ ','
  starts : ∃ first rest, text = first :: rest ∧ first ≠ '-'

def Breaks (rest : List Char) : Prop := ∀ c ∈ rest.head?, c = ' ' ∨ c = ')' ∨ c = ','

theorem IsWord.cancel {word word' rest rest' : List Char} (isWord : IsWord word)
    (isWord' : IsWord word')
    (breaks : Breaks rest) (breaks' : Breaks rest') (same : word ++ rest = word' ++ rest') :
    word = word' ∧ rest = rest' := by
  have whole : ∀ {word rest : List Char}, IsWord word → Breaks rest →
      (word ++ rest).takeWhile (fun c => c ≠ ' ' ∧ c ≠ ')' ∧ c ≠ ',') = word := by
    intro word rest isWord breaks
    rw [List.takeWhile_append_of_pos fun c member => by simpa using ⟨(isWord.plain c member).1,
      (isWord.plain c member).2.2⟩]
    cases rest with
    | nil => simp
    | cons c rest =>
      rw [List.takeWhile_cons_of_neg, List.append_nil]
      rcases breaks c rfl with rfl | rfl | rfl <;> decide
  have words : word = word' := by rw [← whole isWord breaks, same, whole isWord' breaks']
  subst words
  exact ⟨rfl, List.append_cancel_left same⟩

namespace Ty

inductive Head where
  | var (v : TyVar)
  | named (template : TemplateId)

/-- The type with that head and those arguments. -/
def Head.call : Head → List Ty → Ty
  | .var v, [] => .var v
  | .var v, arg :: args => .app (.var v) (arg :: args)
  | .named template, args => .nominal template args

/-- Types that are written without quantifiers: applications are of variables and have arguments,
and no tuple has one element. -/
inductive Displayable (known : TyVar → Prop) (defined : TemplateId → Prop) : Ty → Prop where
  | var {v : TyVar} (holds : known v) : Displayable known defined (.var v)
  | arrow {param result : Ty} (fst : Displayable known defined param)
      (snd : Displayable known defined result) : Displayable known defined (.arrow param result)
  | tuple {elems : List Ty} (several : elems.length ≠ 1) (each : ∀ t ∈ elems,
      Displayable known defined t) : Displayable known defined (.tuple elems)
  | nominal {template : TemplateId} {args : List Ty} (holds : defined template)
    (each : ∀ t ∈ args, Displayable known defined t) : Displayable known defined
      (.nominal template args)
  | app {v : TyVar} {args : List Ty} (holds : known v) (given : args ≠ [])
    (each : ∀ t ∈ args, Displayable known defined t) : Displayable known defined
      (.app (.var v) args)

/-- A head whose variable or definition is among some. -/
def Head.Among (known : TyVar → Prop) (defined : TemplateId → Prop) : Head → Prop
  | .var v => known v
  | .named template => defined template

inductive Grammatical (known : Head → Prop) : Ty → Prop where
  | call {head : Head} {args : List Ty} (holds : known head) (each : ∀ t ∈ args,
      Grammatical known t) : Grammatical known (head.call args)
  | arrow {param result : Ty} (fst : Grammatical known param) (snd : Grammatical known result) :
    Grammatical known (.arrow param result)
  | tuple {elems : List Ty} (several : elems.length ≠ 1) (each : ∀ t ∈ elems, Grammatical known t) :
    Grammatical known (.tuple elems)

theorem Displayable.grammatical {known : TyVar → Prop} {defined : TemplateId → Prop} {ty : Ty}
    (displayable : ty.Displayable known defined) : ty.Grammatical (Head.Among known defined) := by
  induction displayable with
  | @var v holds => exact @Grammatical.call _ (.var v) [] holds (List.forall_mem_nil _)
  | arrow _ _ ihParam ihResult => exact .arrow ihParam ihResult
  | tuple several _ ih => exact .tuple several ih
  | @nominal template args holds _ ih => exact @Grammatical.call _ (.named template) args holds ih
  | @app v args holds given _ ih =>
    cases args with
    | nil => exact absurd rfl given
    | cons arg args => exact @Grammatical.call _ (.var v) (arg :: args) holds ih

section Text

variable {varText : TyVar → String} {typeText : TemplateId → String} {place : Place} {head : Head}
  {param result ty : Ty} {args elems : List Ty}

theorem renderAll_eq_map (varText : TyVar → String) (typeText : TemplateId → String) (place : Place)
    (types : List Ty) : renderAll varText typeText place types = types.map
    (render varText typeText place) := by
  induction types with
  | nil => rfl
  | cons t types ih => rw [renderAll, ih, List.map_cons]

def spell (varText : TyVar → String) (typeText : TemplateId → String) (place : Place) (ty : Ty) :
    List Char :=
  (render varText typeText place ty).toList

def Head.word (varText : TyVar → String) (typeText : TemplateId → String) : Head → List Char
  | .var v => (varText v).toList
  | .named template => (typeText template).toList

def enclose (text : List Char) : List Char := '(' :: (text ++ [')'])

theorem enclose_append (text rest : List Char) :
    enclose text ++ rest = '(' :: (text ++ ')' :: rest) := by
  simp [enclose]

def spellAll (varText : TyVar → String) (typeText : TemplateId → String) (place : Place)
    (separator : List Char) (types : List Ty) : List Char :=
  types.flatMap fun t => separator ++ spell varText typeText place t

theorem intercalate_eq (separator first : List Char) (rest : List (List Char)) :
    separator.intercalate (first :: rest) =
      first ++ rest.flatMap fun text => separator ++ text := by
  induction rest generalizing first with
  | nil => simp
  | cons next rest ih => rw [List.intercalate_cons_cons, ih]; simp

theorem toList_intercalate_render (separator : String) (first : String) (types : List Ty) :
    (separator.intercalate (first :: renderAll varText typeText place types)).toList =
      first.toList ++ spellAll varText typeText place separator.toList types := by
  rw [String.toList_intercalate, List.map_cons, intercalate_eq, renderAll_eq_map, spellAll,
    List.map_map, List.flatMap_map]
  rfl

theorem toList_parens (needed : Bool) (text : String) :
    (parens needed text).toList = if needed then enclose text.toList else text.toList := by
  cases needed with
  | false => rfl
  | true => simp [parens, enclose]

theorem spell_arrow_top : spell varText typeText .top (.arrow param result) =
    spell varText typeText .arrowParam param ++ ' ' :: '-' :: '>' :: ' ' ::
      spell varText typeText .top result := by
  simp [spell, render, parens]

theorem spell_arrow (inside : place ≠ .top) : spell varText typeText place (.arrow param result) =
    enclose (spell varText typeText .top (.arrow param result)) := by
  cases place with
  | top => exact absurd rfl inside
  | arrowParam | argument => simp [spell, render, parens, enclose]

theorem spell_tuple (place : Place) : spell varText typeText place (.tuple elems) =
    enclose (", ".intercalate (renderAll varText typeText .top elems)).toList := by
  simp [spell, render, enclose]

theorem spell_call (bare : place = .argument → args = []) : spell varText typeText place
    (head.call args) =
    head.word varText typeText ++ spellAll varText typeText .argument [' '] args := by
  cases head with
  | var v =>
    cases args with
    | nil => simp [Head.call, spell, render, Head.word, spellAll]
    | cons arg args =>
      cases place with
      | argument => exact absurd (bare rfl) (by simp)
      | top | arrowParam =>
        rw [spell, Head.call, render, toList_parens, toList_intercalate_render]
        simp [Head.word, render]
  | named template =>
    have free : (place == .argument && !args.isEmpty) = false := by
      cases args with
      | nil => simp
      | cons arg args => cases place with
        | argument => exact absurd (bare rfl) (by simp)
        | top | arrowParam => rfl
    rw [spell, Head.call, render, toList_parens, free, toList_intercalate_render]
    simp [Head.word]

theorem spell_call_argument (given : args ≠ []) : spell varText typeText .argument
    (head.call args) = enclose (spell varText typeText .top (head.call args)) := by
  cases args with
  | nil => exact absurd rfl given
  | cons arg args => cases head <;> simp [spell, Head.call, render, parens, enclose]

end Text

inductive Follows : Place → List Char → Prop where
  | nothing (place : Place) : Follows place []
  | closing (place : Place) (rest : List Char) : Follows place (')' :: rest)
  | comma (place : Place) (rest : List Char) : Follows place (',' :: rest)
  | arrow (rest : List Char) : Follows .arrowParam (' ' :: '-' :: rest)
  | blank (rest : List Char) : Follows .argument (' ' :: rest)

theorem Follows.breaks {place : Place} {rest : List Char} (follows : Follows place rest) :
    Breaks rest := by
  intro c member
  cases follows with
  | nothing => cases member
  | closing | comma | arrow | blank =>
    obtain rfl := Option.some.inj member
    simp

theorem Follows.of_top {rest : List Char} (follows : Follows .top rest) (place : Place) :
    Follows place rest := by
  cases follows with
  | nothing => exact .nothing place
  | closing _ rest => exact .closing place rest
  | comma _ rest => exact .comma place rest

structure Spelling (varText : TyVar → String) (typeText : TemplateId → String)
    (known : Head → Prop) : Prop where
  isWord : ∀ head, known head → IsWord (head.word varText typeText)
  apart : ∀ head other, known head → known other → head.word varText typeText =
    other.word varText typeText → head = other

section Reading

variable {varText : TyVar → String} {typeText : TemplateId → String} {known : Head → Prop}
  {place : Place} {head : Head} {param result left right : Ty} {args elems : List Ty}

structure ReadsBack (varText : TyVar → String) (typeText : TemplateId → String)
    (known : Head → Prop) (place : Place) (left : Ty) : Prop where
  cancel : ∀ {right : Ty} {rest rest' : List Char}, right.Grammatical known → Follows place rest →
    Follows place rest' →
    spell varText typeText place left ++ rest = spell varText typeText place right ++ rest' →
    left = right ∧ rest = rest'

theorem Grammatical.spell_cases (grammatical : right.Grammatical known) (inside : place ≠ .top) :
    spell varText typeText place right = enclose (spell varText typeText .top right) ∨
      (∃ elems, right = .tuple elems ∧ elems.length ≠ 1 ∧ ∀ t ∈ elems, Grammatical known t) ∨
      ∃ head args, right = head.call args ∧ known head ∧ (∀ t ∈ args, Grammatical known t) ∧
        (place = .argument → args = []) := by
  cases grammatical with
  | arrow _ _ => exact .inl (spell_arrow inside)
  | tuple several each => exact .inr (.inl ⟨_, rfl, several, each⟩)
  | @call head args holds each =>
    cases place with
    | top => exact absurd rfl inside
    | arrowParam => exact .inr (.inr ⟨head, args, rfl, holds, each, nofun⟩)
    | argument =>
      by_cases given : args = []
      · exact .inr (.inr ⟨head, args, rfl, holds, each, fun _ => given⟩)
      · exact .inl (spell_call_argument given)

/-- The rest behind a list of types, each behind a separator: nothing of the list follows. -/
structure Stops (varText : TyVar → String) (typeText : TemplateId → String) (known : Head → Prop)
    (place : Place) (separator rest : List Char) : Prop where
  follows : Follows place rest
  ends : ∀ t more, Grammatical known t →
    rest ≠ separator ++ (spell varText typeText place t ++ more)

theorem spellAll_cons_append {separator rest : List Char} {t : Ty} {types : List Ty} :
    spellAll varText typeText place separator (t :: types) ++ rest =
      separator ++
      (spell varText typeText place t ++
      (spellAll varText typeText place separator types ++ rest)) := by
  simp [spellAll]

theorem readsBack_all {separator : List Char} {types types' : List Ty} {rest rest' : List Char}
    (each : ∀ t ∈ types, t.Grammatical known ∧ ReadsBack varText typeText known place t)
    (each' : ∀ t ∈ types', t.Grammatical known)
    (further : ∀ more, Follows place (separator ++ more))
    (stops : Stops varText typeText known place separator rest)
    (stops' : Stops varText typeText known place separator rest')
    (same : spellAll varText typeText place separator types ++ rest =
      spellAll varText typeText place separator types' ++ rest') : types = types' ∧
        rest = rest' := by
  have behind : ∀ {types : List Ty} {rest : List Char}, Follows place rest →
      Follows place (spellAll varText typeText place separator types ++ rest) := by
    intro types rest follows
    cases types with
    | nil => exact follows
    | cons t types => rw [spellAll_cons_append]; exact further _
  induction types generalizing types' with
  | nil =>
    cases types' with
    | nil => exact ⟨rfl, same⟩
    | cons t types' =>
      exact absurd (same.trans spellAll_cons_append) (stops.ends t _ (each' t List.mem_cons_self))
  | cons t types ih =>
    obtain ⟨⟨grammatical, reads⟩, eachRest⟩ := List.forall_mem_cons.mp each
    cases types' with
    | nil => exact absurd (same.symm.trans spellAll_cons_append) (stops'.ends t _ grammatical)
    | cons t' types' =>
      rw [spellAll_cons_append, spellAll_cons_append, List.append_cancel_left_eq] at same
      obtain ⟨first', eachRest'⟩ := List.forall_mem_cons.mp each'
      obtain ⟨rfl, more⟩ := reads.cancel first' (behind stops.follows) (behind stops'.follows) same
      obtain ⟨rfl, rests⟩ := ih eachRest eachRest' more
      exact ⟨rfl, rests⟩

variable (spelling : Spelling varText typeText known)

def Starts (text : List Char) : Prop :=
  ∃ first rest, text = first :: rest ∧ first ≠ '-' ∧ first ≠ ')'

theorem Starts.append {text : List Char} (starts : Starts text) (rest : List Char) :
    Starts (text ++ rest) := by
  obtain ⟨first, more, rfl, different⟩ := starts
  exact ⟨first, more ++ rest, rfl, different⟩

theorem starts_enclose (text : List Char) : Starts (enclose text) :=
  ⟨'(', _, rfl, by decide, by decide⟩

theorem Starts.ne_closing {text : List Char} (starts : Starts text) (rest : List Char) :
    text ≠ ')' :: rest := by
  rintro rfl
  obtain ⟨first, more, same, -, notClosing⟩ := starts
  exact notClosing (List.cons.inj same).1.symm

include spelling

theorem Spelling.starts_word (holds : known head) : Starts (head.word varText typeText) := by
  obtain ⟨first, rest, word, notHyphen⟩ := (spelling.isWord head holds).starts
  refine ⟨first, rest, word, notHyphen, ?_⟩
  exact ((spelling.isWord head holds).plain first (word ▸ List.mem_cons_self)).2.2.1

theorem Grammatical.starts (grammatical : right.Grammatical known) (place : Place) :
    Starts (spell varText typeText place right) := by
  induction grammatical generalizing place with
  | @call head args holds _ _ =>
    by_cases bare : place = .argument → args = []
    · rw [spell_call bare]
      exact (spelling.starts_word holds).append _
    · obtain ⟨rfl, given⟩ := Classical.not_imp.mp bare
      rw [spell_call_argument given]
      exact starts_enclose _
  | arrow _ _ ih _ =>
    by_cases atTop : place = .top
    · rw [atTop, spell_arrow_top]
      exact (ih .arrowParam).append _
    · rw [spell_arrow atTop]
      exact starts_enclose _
  | tuple _ _ _ =>
    rw [spell_tuple]
    exact starts_enclose _

theorem Spelling.word_ne_enclose {text rest rest' : List Char} (holds : known head) :
    head.word varText typeText ++ rest ≠ enclose text ++ rest' := by
  intro same
  obtain ⟨first, more, word, -⟩ := (spelling.isWord head holds).starts
  have plain := (spelling.isWord head holds).plain first (word ▸ List.mem_cons_self)
  rw [word] at same
  exact plain.2.1 (List.cons.inj same).1

theorem Spelling.stops_args {rest : List Char} (follows : Follows .arrowParam rest) :
    Stops varText typeText known .argument [' '] rest := by
  cases follows with
  | nothing => exact ⟨.nothing _, nofun⟩
  | closing _ rest => exact ⟨.closing _ rest, nofun⟩
  | comma _ rest => exact ⟨.comma _ rest, nofun⟩
  | arrow rest =>
    refine ⟨.blank _, fun t more grammatical same => ?_⟩
    obtain ⟨first, behind, text, notHyphen, -⟩ :=
      (grammatical.starts spelling .argument).append more
    rw [text] at same
    exact notHyphen (List.cons.inj (List.cons.inj same).2).1.symm

theorem ReadsBack.call (holds : known head)
    (each : ∀ t ∈ args, t.Grammatical known ∧ ReadsBack varText typeText known .argument t)
    (inside : place ≠ .top)
    (bare : place = .argument → args = []) : ReadsBack varText typeText known place
    (head.call args) := by
  refine ⟨fun {right rest rest'} grammatical follows follows' same => ?_⟩
  rw [spell_call bare, List.append_assoc] at same
  rcases grammatical.spell_cases inside with enclosed | ⟨elems, rfl, -, -⟩ | ⟨head', args', rfl,
    holds', each', bare'⟩
  · rw [enclosed] at same
    exact absurd same (spelling.word_ne_enclose holds)
  · rw [spell_tuple] at same
    exact absurd same (spelling.word_ne_enclose holds)
  · rw [spell_call bare', List.append_assoc] at same
    have breaks : ∀ {args : List Ty} {rest : List Char}, Follows place rest →
        Breaks (spellAll varText typeText .argument [' '] args ++ rest) := by
      intro args rest follows
      cases args with
      | nil => exact follows.breaks
      | cons arg args =>
        rintro _ ⟨⟩
        exact .inl rfl
    obtain ⟨words, behind⟩ :=
      (spelling.isWord head holds).cancel (spelling.isWord head' holds') (breaks follows)
      (breaks follows') same
    obtain rfl := spelling.apart head head' holds holds' words
    cases place with
    | top => exact absurd rfl inside
    | argument =>
      obtain rfl := bare rfl
      obtain rfl := bare' rfl
      exact ⟨rfl, behind⟩
    | arrowParam =>
      obtain ⟨rfl, rests⟩ := readsBack_all each each' Follows.blank (spelling.stops_args follows)
        (spelling.stops_args follows') behind
      exact ⟨rfl, rests⟩

section Elements

omit spelling in
theorem spell_elems (first : Ty) (elems : List Ty) :
    (", ".intercalate (renderAll varText typeText .top (first :: elems))).toList =
      spell varText typeText .top first ++ spellAll varText typeText .top [',', ' '] elems :=
  toList_intercalate_render ", " _ elems

omit spelling in
theorem stops_elems (rest : List Char) : Stops varText typeText known .top [',', ' ']
    (')' :: rest) :=
  ⟨.closing _ rest, nofun⟩

theorem elems_ne_closing {first : Ty} (grammatical : first.Grammatical known)
    (rest rest' : List Char) :
    (", ".intercalate (renderAll varText typeText .top (first :: elems))).toList ++ rest ≠
      ')' :: rest' := by
  rw [spell_elems, List.append_assoc]
  exact ((grammatical.starts spelling .top).append _).ne_closing rest'

theorem readsBack_elems {elems' : List Ty} {rest rest' : List Char}
    (each : ∀ t ∈ elems, t.Grammatical known ∧ ReadsBack varText typeText known .top t)
    (each' : ∀ t ∈ elems', t.Grammatical known)
    (same : (", ".intercalate (renderAll varText typeText .top elems)).toList ++ ')' :: rest =
      (", ".intercalate (renderAll varText typeText .top elems')).toList ++ ')' :: rest') :
    elems = elems' ∧ rest = rest' := by
  cases elems with
  | nil =>
    cases elems' with
    | nil => exact ⟨rfl, (List.cons.inj same).2⟩
    | cons first elems' =>
      exact absurd same.symm (elems_ne_closing spelling (each' first List.mem_cons_self) _ rest)
  | cons first elems =>
    cases elems' with
    | nil => exact absurd same (elems_ne_closing spelling (each first List.mem_cons_self).1 _ rest')
    | cons first' elems' =>
      rw [spell_elems, spell_elems, List.append_assoc, List.append_assoc] at same
      obtain ⟨types, rests⟩ :=
        readsBack_all each each' (fun more => .comma .top (' ' :: more)) (stops_elems rest)
        (stops_elems rest') (by rw [spellAll_cons_append, spellAll_cons_append, same])
      exact ⟨types, (List.cons.inj rests).2⟩

theorem enclosed_ne_tuple (grammatical : left.Grammatical known) (several : elems.length ≠ 1)
    (each : ∀ t ∈ elems, t.Grammatical known)
    (reads : ReadsBack varText typeText known .top left ∨ ∀ t ∈ elems,
      ReadsBack varText typeText known .top t)
    {rest rest' : List Char} : spell varText typeText .top left ++ ')' :: rest ≠
      (", ".intercalate (renderAll varText typeText .top elems)).toList ++ ')' :: rest' := by
  intro same
  match elems with
  | [] => exact ((grammatical.starts spelling .top).append _).ne_closing rest' same
  | [_] => exact several rfl
  | first :: second :: elems =>
    rw [spell_elems, List.append_assoc, spellAll_cons_append] at same
    have follows : ∀ more, Follows .top ([',', ' '] ++ more) :=
      fun more => .comma .top (' ' :: more)
    rcases reads with reads | reads
    · exact nomatch (reads.cancel (each first List.mem_cons_self) (.closing _ rest)
        (follows _) same).2
    · exact nomatch ((reads first List.mem_cons_self).cancel grammatical (follows _)
        (.closing _ rest) same.symm).2

end Elements

theorem ReadsBack.enclosed (reads : ReadsBack varText typeText known .top left)
    (grammatical : left.Grammatical known)
    (inside : place ≠ .top)
    (text : spell varText typeText place left = enclose (spell varText typeText .top left)) :
    ReadsBack varText typeText known place left := by
  refine ⟨fun {right rest rest'} grammatical' follows follows' same => ?_⟩
  rw [text] at same
  rcases grammatical'.spell_cases inside with enclosed | ⟨elems, rfl, several, each⟩ | ⟨head, args,
    rfl, holds, -, bare⟩
  · rw [enclosed, enclose_append, enclose_append] at same
    obtain ⟨types, rests⟩ :=
      reads.cancel grammatical' (.closing _ rest) (.closing _ rest') (List.cons.inj same).2
    exact ⟨types, (List.cons.inj rests).2⟩
  · rw [spell_tuple, enclose_append, enclose_append] at same
    exact absurd (List.cons.inj same).2
      (enclosed_ne_tuple spelling grammatical several each (.inl reads))
  · rw [spell_call bare, List.append_assoc] at same
    exact absurd same.symm (spelling.word_ne_enclose holds)

theorem ReadsBack.tuple (several : elems.length ≠ 1)
    (each : ∀ t ∈ elems, t.Grammatical known ∧ ReadsBack varText typeText known .top t)
    (inside : place ≠ .top) :
    ReadsBack varText typeText known place (.tuple elems) := by
  refine ⟨fun {right rest rest'} grammatical follows follows' same => ?_⟩
  rw [spell_tuple] at same
  rcases grammatical.spell_cases inside with enclosed | ⟨elems', rfl, -, each'⟩ | ⟨head, args, rfl,
    holds, -, bare⟩
  · rw [enclosed, enclose_append, enclose_append] at same
    exact absurd (List.cons.inj same).2.symm (enclosed_ne_tuple spelling grammatical several
      (fun t member => (each t member).1) (.inr fun t member => (each t member).2))
  · rw [spell_tuple, enclose_append, enclose_append] at same
    obtain ⟨rfl, rests⟩ := readsBack_elems spelling each each' (List.cons.inj same).2
    exact ⟨rfl, rests⟩
  · rw [spell_call bare, List.append_assoc] at same
    exact absurd same.symm (spelling.word_ne_enclose holds)

omit spelling
/-- Only an arrow is written otherwise at the top than in front of an arrow. -/
theorem Grammatical.spell_top_cases (varText : TyVar → String) (typeText : TemplateId → String)
    (grammatical : right.Grammatical known) :
    (∃ param result, right = .arrow param result ∧ param.Grammatical known ∧
      result.Grammatical known) ∨
      spell varText typeText .top right = spell varText typeText .arrowParam right := by
  cases grammatical with
  | arrow fst snd => exact .inl ⟨_, _, rfl, fst, snd⟩
  | tuple _ _ => exact .inr (by rw [spell_tuple, spell_tuple])
  | call _ _ => exact .inr (by rw [spell_call (by simp), spell_call (by simp)])

theorem ReadsBack.of_param (reads : ReadsBack varText typeText known .arrowParam left)
    (text : spell varText typeText .top left = spell varText typeText .arrowParam left) :
    ReadsBack varText typeText known .top left := by
  refine ⟨fun {right rest rest'} grammatical follows follows' same => ?_⟩
  rw [text] at same
  rcases grammatical.spell_top_cases varText typeText with ⟨param, result, rfl, fst, -⟩ | text'
  · rw [spell_arrow_top, List.append_assoc] at same
    obtain ⟨-, rests⟩ := reads.cancel fst (follows.of_top _) (.arrow _) same
    subst rests
    cases follows
  · rw [text'] at same
    exact reads.cancel grammatical (follows.of_top _) (follows'.of_top _) same

theorem ReadsBack.arrow (fst : ReadsBack varText typeText known .arrowParam param)
    (snd : ReadsBack varText typeText known .top result) :
    ReadsBack varText typeText known .top (.arrow param result) := by
  refine ⟨fun {right rest rest'} grammatical follows follows' same => ?_⟩
  rw [spell_arrow_top, List.append_assoc] at same
  rcases grammatical.spell_top_cases varText typeText with ⟨q, s, rfl, fst', snd'⟩ | text'
  · rw [spell_arrow_top, List.append_assoc] at same
    obtain ⟨rfl, behind⟩ := fst.cancel fst' (.arrow _) (.arrow _) same
    obtain ⟨rfl, rests⟩ := snd.cancel snd' follows follows' (by simpa using behind)
    exact ⟨rfl, rests⟩
  · rw [text'] at same
    obtain ⟨-, rests⟩ := fst.cancel grammatical (.arrow _) (follows'.of_top _) same
    subst rests
    cases follows'

theorem Grammatical.readsBack (spelling : Spelling varText typeText known)
    (grammatical : left.Grammatical known)
    (place : Place) : ReadsBack varText typeText known place left := by
  induction grammatical generalizing place with
  | @call head args holds each ih =>
    have below : ∀ t ∈ args, t.Grammatical known ∧ ReadsBack varText typeText known .argument t :=
      fun t member => ⟨each t member, ih t member .argument⟩
    have param : ReadsBack varText typeText known .arrowParam (head.call args) :=
      ReadsBack.call spelling holds below (by simp) (by simp)
    have top := param.of_param (by rw [spell_call (by simp), spell_call (by simp)])
    cases place with
    | top => exact top
    | arrowParam => exact param
    | argument =>
      by_cases given : args = []
      · exact ReadsBack.call spelling holds below (by simp) fun _ => given
      · exact top.enclosed spelling (.call holds each) (by simp) (spell_call_argument given)
  | arrow fst snd ihParam ihResult =>
    have top := ReadsBack.arrow (ihParam .arrowParam) (ihResult .top)
    by_cases atTop : place = .top
    · exact atTop ▸ top
    · exact top.enclosed spelling (.arrow fst snd) atTop (spell_arrow atTop)
  | @tuple elems several each ih =>
    have below : ∀ t ∈ elems, t.Grammatical known ∧ ReadsBack varText typeText known .top t :=
      fun t member => ⟨each t member, ih t member .top⟩
    by_cases atTop : place = .top
    · have param : ReadsBack varText typeText known .arrowParam (.tuple elems) :=
        ReadsBack.tuple spelling several below (by simp)
      exact atTop ▸ param.of_param (by rw [spell_tuple, spell_tuple])
    · exact ReadsBack.tuple spelling several below atTop

end Reading

end Ty

/-- A name that is one word and cannot be taken for a variable or an arrow, as no identifier can. -/
structure Name.IsIdentifier (name : Name) : Prop where
  plain : ∀ c ∈ name.toList, c ≠ ' ' ∧ c ≠ '(' ∧ c ≠ ')' ∧ c ≠ ','
  starts : ∃ first rest, name.toList = first :: rest ∧ first ≠ '\'' ∧ first ≠ '?' ∧ first ≠ '-'

/-- Among the variables and the definitions, those with names have identifiers for names, no two of
them the same. -/
structure Legible (subst : Subst) (registry : Registry) (known : TyVar → Prop)
    (defined : TemplateId → Prop) : Prop where
  definition : ∀ id, defined id → Name.IsIdentifier (registry.typeName id)
  distinct : ∀ id other, defined id → defined other → registry.typeName id =
    registry.typeName other → id = other
  rigid : ∀ v name, known v → subst.cell v = .rigid (some name) → name.IsIdentifier
  apart : ∀ v w name, known v → known w → subst.cell v = .rigid (some name) →
    subst.cell w = .rigid (some name) → v = w

section Display

variable {subst : Subst} {registry : Registry} {known : TyVar → Prop} {defined : TemplateId → Prop}
  {v w : TyVar} {ty left right : Ty}

theorem toDigits_inj {number number' : Nat}
    (same : Nat.toDigits 10 number = Nat.toDigits 10 number') : number = number' :=
  (@append_digits_inj [] [] _ _ nofun nofun same).2

theorem digits_plain {number : Nat} {c : Char} (member : c ∈ Nat.toDigits 10 number) :
    c ≠ ' ' ∧ c ≠ '(' ∧ c ≠ ')' ∧ c ≠ ',' := by
  have digit := Nat.isDigit_of_mem_toDigits (by decide) (by decide) member
  refine ⟨?_, ?_, ?_, ?_⟩ <;> rintro rfl <;> exact absurd digit (by decide)

namespace Subst

theorem toList_varText (isNew : (subst.cell v).IsNew) :
    subst.cell v = .unbound ∧ (subst.varText v).toList = '?' :: Nat.toDigits 10 v.index ∨
      (∃ name, subst.cell v = .rigid (some name) ∧ (subst.varText v).toList = '\'' :: name.toList) ∨
      subst.cell v = .rigid none ∧ (subst.varText v).toList = '\'' :: '?' ::
        Nat.toDigits 10 v.index := by
  rw [varText, root_of_isNew isNew]
  cases cell : subst.cell v with
  | unbound => exact .inl ⟨rfl, by simp⟩
  | rigid name? =>
    cases name? with
    | some name => exact .inr (.inl ⟨name, rfl, by simp⟩)
    | none => exact .inr (.inr ⟨rfl, by simp⟩)
  | link _ | bound _ => exact absurd isNew (by simp [cell, Cell.IsNew])

end Subst

namespace Legible

variable (legible : Legible subst registry known defined)
include legible

theorem isWord_varText (holds : known v) (isNew : (subst.cell v).IsNew) :
    IsWord (subst.varText v).toList := by
  rcases Subst.toList_varText isNew with ⟨-, text⟩ | ⟨name, cell, text⟩ | ⟨-, text⟩
  · rw [text]
    exact ⟨List.forall_mem_cons.mpr ⟨by decide, fun c => digits_plain⟩, _, _, rfl, by decide⟩
  · rw [text]
    exact ⟨List.forall_mem_cons.mpr ⟨by decide, (legible.rigid v name holds cell).plain⟩, _, _,
      rfl, by decide⟩
  · rw [text]
    refine ⟨List.forall_mem_cons.mpr ⟨by decide, ?_⟩, _, _, rfl, by decide⟩
    exact List.forall_mem_cons.mpr ⟨by decide, fun c => digits_plain⟩

theorem varText_inj (holds : known v) (holds' : known w) (isNew : (subst.cell v).IsNew)
    (isNew' : (subst.cell w).IsNew)
    (same : (subst.varText v).toList = (subst.varText w).toList) : v = w := by
  have index : v.index = w.index → v = w := fun same => by cases v; cases w; cases same; rfl
  have unnamed : ∀ {v name rest}, known v → subst.cell v = .rigid (some name) →
      name.toList ≠ '?' :: rest := by
    intro v name rest holds cell text
    obtain ⟨first, more, text', -, notMark, -⟩ := (legible.rigid v name holds cell).starts
    exact notMark (List.cons.inj (text'.symm.trans text)).1
  rcases Subst.toList_varText isNew with ⟨-, text⟩ | ⟨name, cell, text⟩ | ⟨-, text⟩ <;>
    rcases Subst.toList_varText isNew' with ⟨-, text'⟩ | ⟨name', cell', text'⟩ | ⟨-, text'⟩ <;>
    rw [text, text'] at same
  · exact index (toDigits_inj (List.cons.inj same).2)
  · cases (List.cons.inj same).1
  · cases (List.cons.inj same).1
  · cases (List.cons.inj same).1
  · obtain rfl := String.toList_inj.mp (List.cons.inj same).2
    exact legible.apart v w name holds holds' cell cell'
  · exact absurd (List.cons.inj same).2 (unnamed holds cell)
  · cases (List.cons.inj same).1
  · exact absurd (List.cons.inj same).2.symm (unnamed holds' cell')
  · exact index (toDigits_inj (List.cons.inj (List.cons.inj same).2).2)

theorem varText_ne_typeName {id : TemplateId} (isDefined : defined id)
    (isNew : (subst.cell v).IsNew) : (subst.varText v).toList ≠ (registry.typeName id).toList := by
  intro same
  obtain ⟨first, rest, text', notQuote, notMark, -⟩ := (legible.definition id isDefined).starts
  rcases Subst.toList_varText isNew with ⟨-, text⟩ | ⟨name, -, text⟩ | ⟨-, text⟩
  · exact notMark (List.cons.inj (text'.symm.trans (same.symm.trans text))).1
  · exact notQuote (List.cons.inj (text'.symm.trans (same.symm.trans text))).1
  · exact notQuote (List.cons.inj (text'.symm.trans (same.symm.trans text))).1

theorem spelling : Ty.Spelling subst.varText registry.typeName
    (Ty.Head.Among (fun v => known v ∧ (subst.cell v).IsNew) defined) where
  isWord head holds := by
    cases head with
    | var v => exact legible.isWord_varText holds.1 holds.2
    | named id =>
      obtain ⟨plain, first, rest, text, -, -, notHyphen⟩ := legible.definition id holds
      exact ⟨plain, first, rest, text, notHyphen⟩
  apart head other holds holds' same := by
    cases head with
    | var v =>
      cases other with
      | var w => rw [legible.varText_inj holds.1 holds'.1 holds.2 holds'.2 same]
      | named id => exact absurd same (legible.varText_ne_typeName holds' holds.2)
    | named id =>
      cases other with
      | var w => exact absurd same.symm (legible.varText_ne_typeName holds holds'.2)
      | named id' => rw [legible.distinct id id' holds holds' (String.toList_inj.mp same)]

end Legible

theorem Ty.Displayable.unsolved (displayable : ty.Displayable known defined)
    (zonked : subst.Normal ty) :
    ty.Displayable (fun v => known v ∧ (subst.cell v).IsNew) defined := by
  induction displayable with
  | var holds =>
    cases zonked with
    | var isNew => exact .var ⟨holds, isNew⟩
  | arrow _ _ ihParam ihResult =>
    cases zonked with
    | arrow fst snd => exact .arrow (ihParam fst) (ihResult snd)
  | tuple several _ ih =>
    cases zonked with
    | tuple each => exact .tuple several fun t member => ih t member (each t member)
  | nominal holds _ ih =>
    cases zonked with
    | nominal each => exact .nominal holds fun t member => ih t member (each t member)
  | app holds given _ ih =>
    cases zonked with
    | app _ fst _ each =>
      cases fst with
      | var isNew => exact .app ⟨holds, isNew⟩ given fun t member => ih t member (each t member)

/-- Resolved types are shown by the same text only if they are the same type. -/
theorem Ty.display_inj (legible : Legible subst registry known defined) (zonked : subst.Normal left)
    (zonked' : subst.Normal right) (displayable : left.Displayable known defined)
    (displayable' : right.Displayable known defined) :
    left.display subst registry = right.display subst registry ↔ left = right := by
  refine ⟨fun same => ?_, fun same => same ▸ rfl⟩
  rw [display, display, zonked.zonk, zonked'.zonk] at same
  have reads := (displayable.unsolved zonked).grammatical.readsBack legible.spelling .top
  refine (reads.cancel (displayable'.unsolved zonked').grammatical (.nothing .top)
    (.nothing .top) ?_).1
  rw [spell, spell, same]

/-- Functions of functions, and functions that give functions. -/
theorem Ty.display_arrow_ne :
    (Ty.arrow (.arrow (.var ⟨0⟩) (.var ⟨0⟩)) Registry.boolTy).display
    (Subst.empty.freshRigid "a").2 .initial ≠
      (Ty.arrow (.var ⟨0⟩) (.arrow (.var ⟨0⟩) Registry.boolTy)).display
      (Subst.empty.freshRigid "a").2 .initial := by
  have cell : (Subst.empty.freshRigid "a").2.cell ⟨0⟩ = .rigid (some "a") := rfl
  have isNew : ((Subst.empty.freshRigid "a").2.cell ⟨0⟩).IsNew := cell ▸ trivial
  have isName : ∀ {name : Name} first rest, name.toList = first :: rest →
      (∀ c ∈ first :: rest, c ≠ ' ' ∧ c ≠ '(' ∧ c ≠ ')' ∧ c ≠ ',') →
      first ≠ '\'' ∧ first ≠ '?' ∧ first ≠ '-' →
      name.IsIdentifier := fun _ _ text plain starts => ⟨text ▸ plain, _, _, text, starts⟩
  have legible : Legible (Subst.empty.freshRigid "a").2 .initial (· = ⟨0⟩)
      (· = Registry.boolId) := by
    refine ⟨?_, ?_, ?_, ?_⟩
    · rintro _ rfl
      exact isName 'b' ['o', 'o', 'l'] rfl (by simp) (by simp)
    · rintro _ _ rfl rfl _
      rfl
    · rintro _ name rfl found
      obtain rfl := Option.some.inj (Cell.rigid.inj (cell.symm.trans found))
      exact isName 'a' [] rfl (by simp) (by simp)
    · rintro _ _ _ rfl rfl _ _
      rfl
  have zonked : ∀ {t}, t = Registry.boolTy ∨ t = Ty.var ⟨0⟩ →
    (Subst.empty.freshRigid "a").2.Normal t ∧ t.Displayable (· = ⟨0⟩) (· = Registry.boolId) := by
    rintro _ (rfl | rfl)
    · exact ⟨.nominal (List.forall_mem_nil _), .nominal rfl (List.forall_mem_nil _)⟩
    · exact ⟨.var isNew, .var rfl⟩
  obtain ⟨boolNormal, boolDisplayable⟩ := zonked (.inl rfl)
  obtain ⟨varNormal, varDisplayable⟩ := zonked (.inr rfl)
  rw [Ne, Ty.display_inj legible (.arrow (.arrow varNormal varNormal) boolNormal)
    (.arrow varNormal (.arrow varNormal boolNormal))
      (.arrow (.arrow varDisplayable varDisplayable) boolDisplayable)
    (.arrow varDisplayable (.arrow varDisplayable boolDisplayable))]
  decide

end Display

end PolyCheck
