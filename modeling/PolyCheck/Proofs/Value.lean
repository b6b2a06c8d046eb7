import Mathlib
import PolyCheck.Pat.Family
import PolyCheck.Pat.Weight
import PolyCheck.Term

/-! Values and how patterns match them. A constructor holds nothing, its only field, or the tuple of
its fields. A match gives the captured names with their values from left to right; of several
alternatives the first that matches counts. -/
namespace PolyCheck

inductive Value where
  | bool (value : Bool)
  | int (value : Int)
  | str (bytes : Bytes)
  | tuple (elems : List Value)
  | ctor (index : Nat) (arg : Option Value)
  | closure (param : Name) (body : Term) (env : List (Name × Value))

/-- Names with their values, the latest last. -/
abbrev Bindings := List (Name × Value)

namespace Value

instance : Inhabited Value := ⟨bool false⟩

def pack : List Value → Option Value
  | [] => none
  | [value] => some value
  | values => some (tuple values)

/-- The fields in what a constructor holds, if there can be as many. -/
def unpack : Nat → Option Value → Option (List Value)
  | 0, none => some []
  | 1, some value => some [value]
  | _, some (tuple values) => some values
  | _, _ => none

@[simp] theorem unpack_pack (values : List Value) :
    unpack values.length (pack values) = some values := by
  match values with
  | [] => rfl
  | [_] => rfl
  | _ :: _ :: _ => rfl

/-- The value with a head over the given fields. -/
def build : Head → List Value → Value
  | .bool value, _ => bool value
  | .int value, _ => int value
  | .str bytes, _ => str bytes
  | .tuple _, fields => tuple fields
  | .variant index, fields => ctor index (pack fields)

end Value

namespace Pat

mutual

def match? : Pat → Value → Option Bindings
  | wild none, _ => some []
  | wild (some name), value => some [(name, value)]
  | bool expected, .bool value => if expected = value then some [] else none
  | int _ expected, .int value => if expected = value then some [] else none
  | str expected, .str bytes => if expected = bytes then some [] else none
  | tuple elems, .tuple values => matchAll? elems values
  | ctor _ _ expected args, .ctor index arg =>
    if expected = index then (Value.unpack args.length arg).bind (matchAll? args) else none
  | oneOf alternatives, value => matchFirst? alternatives value
  | _, _ => none

def matchAll? : List Pat → List Value → Option Bindings
  | [], [] => some []
  | p :: ps, value :: values => do
    let first ← match? p value
    let rest ← matchAll? ps values
    some (first ++ rest)
  | _, _ => none

def matchFirst? : List Pat → Value → Option Bindings
  | [], _ => none
  | p :: ps, value => (match? p value).or (matchFirst? ps value)

end

section Match

variable {p : Pat} {ps qs : List Pat} {value : Value} {values others : List Value} {head : Head}

theorem length_of_matchAll? {bindings : Bindings} (found : matchAll? ps values = some bindings) :
    ps.length = values.length := by
  induction ps generalizing values bindings with
  | nil =>
    cases values with
    | nil => rfl
    | cons _ _ => simp [matchAll?] at found
  | cons p ps ih =>
    cases values with
    | nil => simp [matchAll?] at found
    | cons value values =>
      simp only [matchAll?, Option.bind_eq_bind, Option.bind_eq_some_iff] at found
      obtain ⟨_, _, rest, found, _⟩ := found
      rw [List.length_cons, List.length_cons, ih found]

theorem matchAll?_append (length : ps.length = values.length) :
    matchAll? (ps ++ qs) (values ++ others) =
      (matchAll? ps values).bind fun first => (matchAll? qs others).map (first ++ ·) := by
  induction ps generalizing values with
  | nil =>
    cases values with
    | nil => simp [matchAll?]
    | cons _ _ => simp at length
  | cons p ps ih =>
    cases values with
    | nil => simp at length
    | cons value values =>
      simp only [List.cons_append, matchAll?, Option.bind_eq_bind, ih (Nat.succ.inj length)]
      cases match? p value with
      | none => rfl
      | some first =>
        cases matchAll? ps values with
        | none => rfl
        | some second => cases matchAll? qs others <;> simp

theorem matchAll?_anys (values : List Value) : matchAll? (anys values.length) values = some [] := by
  induction values with
  | nil => rfl
  | cons value values ih =>
    rw [anys] at ih
    rw [anys, List.length_cons, List.replicate_succ, matchAll?, ih]
    rfl

theorem matchFirst?_append (ps qs : List Pat) (value : Value) :
    matchFirst? (ps ++ qs) value = (matchFirst? ps value).or (matchFirst? qs value) := by
  induction ps with
  | nil => simp [matchFirst?]
  | cons p ps ih => simp [matchFirst?, ih, Option.or_assoc]

mutual

theorem matchFirst?_alternatives (value : Value) :
    ∀ p : Pat, matchFirst? p.alternatives value = match? p value
  | .oneOf ps => by
    rw [alternatives, matchFirst?_alternativesAll value ps]
    simp [match?]
  | .wild _ => by simp [alternatives, matchFirst?]
  | .bool _ => by simp [alternatives, matchFirst?]
  | .int _ _ => by simp [alternatives, matchFirst?]
  | .str _ => by simp [alternatives, matchFirst?]
  | .tuple _ => by simp [alternatives, matchFirst?]
  | .ctor _ _ _ _ => by simp [alternatives, matchFirst?]

theorem matchFirst?_alternativesAll (value : Value) :
    ∀ ps : List Pat, matchFirst? (alternativesAll ps) value = matchFirst? ps value
  | [] => rfl
  | p :: ps => by
    rw [alternativesAll, matchFirst?_append, matchFirst?_alternatives value p,
      matchFirst?_alternativesAll value ps, matchFirst?]

end

theorem match?_wild (capture : Option Name) (value : Value) :
    match? (wild capture) value = some (capture.toList.map (·, value)) := by
  cases capture <;> simp [match?]

theorem match?_build (same : p.head? = some head) (length : p.fields.length = values.length) :
    match? p (.build head values) = matchAll? p.fields values := by
  have empty : p.fields = [] → values = [] := fun none => by
    rw [none] at length
    exact List.eq_nil_of_length_eq_zero length.symm
  cases p with
  | wild _ => simp [head?] at same
  | oneOf _ => simp [head?] at same
  | bool _ =>
    obtain rfl := Option.some.inj same
    simp [Value.build, match?, fields, matchAll?, empty rfl]
  | int _ _ =>
    obtain rfl := Option.some.inj same
    simp [Value.build, match?, fields, matchAll?, empty rfl]
  | str _ =>
    obtain rfl := Option.some.inj same
    simp [Value.build, match?, fields, matchAll?, empty rfl]
  | tuple elems =>
    obtain rfl := Option.some.inj same
    simp [Value.build, match?, fields]
  | ctor _ _ index args =>
    obtain rfl := Option.some.inj same
    simp only [fields] at length
    simp [Value.build, match?, fields, length]

theorem match?_build_of_ne {head' : Head} (own : p.head? = some head') (different : head' ≠ head)
    (arity : ∀ count, head = .tuple count → values.length = count) :
    match? p (.build head values) = none := by
  cases p with
  | wild _ => simp [head?] at own
  | oneOf _ => simp [head?] at own
  | bool _ =>
    obtain rfl := Option.some.inj own
    cases head <;> simp_all [Value.build, match?]
  | int _ _ =>
    obtain rfl := Option.some.inj own
    cases head <;> simp_all [Value.build, match?]
  | str _ =>
    obtain rfl := Option.some.inj own
    cases head <;> simp_all [Value.build, match?]
  | tuple elems =>
    cases head with
    | tuple count =>
      simp only [Value.build, match?]
      refine Option.eq_none_iff_forall_ne_some.mpr fun bindings found => different ?_
      obtain rfl := Option.some.inj own
      rw [length_of_matchAll? found, arity count rfl]
    | bool _ => simp [Value.build, match?]
    | int _ => simp [Value.build, match?]
    | str _ => simp [Value.build, match?]
    | variant _ => simp [Value.build, match?]
  | ctor _ _ index args =>
    obtain rfl := Option.some.inj own
    cases head <;> simp_all [Value.build, match?]

end Match

def Matches (p : Pat) (value : Value) : Prop := (p.match? value).isSome

theorem matchFirst?_isSome {ps : List Pat} {value : Value} :
    (matchFirst? ps value).isSome ↔ ∃ p ∈ ps, p.Matches value := by
  induction ps with
  | nil => simp [matchFirst?]
  | cons p ps ih => simp [matchFirst?, Option.isSome_or, ih, Matches]

theorem matches_iff_alternatives {p : Pat} {value : Value} :
    p.Matches value ↔ ∃ q ∈ p.alternatives, q.Matches value := by
  rw [Matches, ← matchFirst?_alternatives, matchFirst?_isSome]

theorem matches_oneOf {ps : List Pat} {value : Value} :
    (oneOf ps).Matches value ↔ ∃ p ∈ ps, p.Matches value := by
  rw [Matches, match?, matchFirst?_isSome]

theorem matches_wild (capture : Option Name) (value : Value) : (wild capture).Matches value := by
  simp [Matches, match?_wild]

end Pat

namespace Row

open Pat

variable {p : Pat} {row first second : Row} {value : Value} {values others : List Value}

def Matches (row : Row) (values : List Value) : Prop := (matchAll? row values).isSome

theorem Matches.length (found : row.Matches values) : List.length row = values.length :=
  length_of_matchAll? (Option.isSome_iff_exists.mp found).choose_spec

theorem matches_cons : Matches (p :: row) (value :: values) ↔ p.Matches value ∧
    row.Matches values := by
  simp only [Matches, matchAll?, Pat.Matches, Option.bind_eq_bind]
  cases match? p value with
  | none => simp
  | some _ => cases matchAll? row values <;> simp

theorem matches_append (length : List.length first = values.length) :
    Matches (first ++ second) (values ++ others) ↔ first.Matches values ∧
      second.Matches others := by
  rw [Matches, matchAll?_append length, Matches, Matches]
  cases matchAll? first values with
  | none => simp
  | some _ => cases matchAll? second others <;> simp

theorem matches_anys (values : List Value) : Matches (anys values.length) values := by
  simp [Matches, matchAll?_anys]

theorem matches_anys_append :
    Matches (anys values.length ++ row) (values ++ others) ↔ row.Matches others := by
  rw [matches_append (by simp [anys])]
  exact and_iff_right (matches_anys values)

theorem matches_build {head : Head} (same : p.head? = some head)
    (length : p.fields.length = values.length) :
    p.Matches (.build head values) ↔ Matches p.fields values := by
  rw [Pat.Matches, match?_build same length, Matches]

end Row

end PolyCheck
