import PolyCheck.Proofs.Pat.Capture
import PolyCheck.Proofs.Session.Patterns

/-! The names that a pattern records, whatever it is checked in. They are the names that the checked
pattern captures, in order, none of them twice; and the alternatives of every choice in it capture
the same names. -/
namespace PolyCheck

open Run Session

structure Records (captures captures' : Captures) (names : List Name) : Prop where
  names : captures'.map (·.1) = captures.map (·.1) ++ names
  distinct : (captures.map (·.1)).Nodup → (captures'.map (·.1)).Nodup

theorem records_nothing (captures : Captures) : Records captures captures [] :=
  ⟨(List.append_nil _).symm, id⟩

theorem Records.trans {first second third : Captures} {names names' : List Name}
    (here : Records first second names) (there : Records second third names') :
    Records first third (names ++ names') where
  names := by rw [there.names, here.names, List.append_assoc]
  distinct nodup := there.distinct (here.distinct nodup)

theorem Records.of_nil {captures : Captures} {names : List Name}
    (records : Records [] captures names) : captures.map (·.1) = names ∧ names.Nodup := by
  have same : captures.map (·.1) = names := by simpa using records.names
  exact ⟨same, same ▸ records.distinct List.nodup_nil⟩

namespace Check

variable {before after : Session} {captures captures' shared own : Captures} {pat : Pat} {ty : Ty}
  {span : Span}

theorem records_addCapture {name : Name} {value : Unit}
    (run : addCapture name ty span captures before = .ok (value, captures') after) :
    Records captures captures' [name] := by
  obtain ⟨-, rfl, absent⟩ := addCapture_eq_ok run
  refine ⟨List.map_append, fun nodup => ?_⟩
  rw [List.map_append, List.nodup_append]
  refine ⟨nodup, List.nodup_singleton _, fun other member name' single same => absent ?_⟩
  obtain rfl : other = name := same.trans (List.mem_singleton.mp single)
  exact member

theorem records_addCaptures {value : PUnit}
    (run : (forM shared fun (name, ty) => addCapture name ty span : Capturing PUnit)
      captures before =
      .ok (value, captures') after) : Records captures captures' (shared.map (·.1)) := by
  induction shared generalizing captures before with
  | nil =>
    obtain ⟨-, rfl, -⟩ := state_pure_eq_ok.mp run
    exact records_nothing _
  | cons capture shared ih =>
    rw [List.forM_cons] at run
    obtain ⟨_, _, _, add, rest⟩ := state_bind_eq_ok.mp run
    exact (records_addCapture add).trans (ih rest)

theorem agreed_of_agree {value : PUnit} (run : agree shared own span before = .ok value after) :
    unsharedCapture? shared own = none := by
  unfold agree at run
  cases agreed : unsharedCapture? shared own with
  | none => rfl
  | some name => simp [agreed, fail, throw_apply] at run

theorem perm_names_of_agreed (nodup : (shared.map (·.1)).Nodup) (nodup' : (own.map (·.1)).Nodup)
    (agreed : unsharedCapture? shared own = none) : (own.map (·.1)).Perm (shared.map (·.1)) := by
  obtain ⟨inOwn, inShared⟩ := names_of_unsharedCapture? agreed
  refine (List.perm_ext_iff_of_nodup nodup' nodup).mpr fun name =>
    ⟨fun member => ?_, fun member => ?_⟩
  · obtain ⟨capture, inside, rfl⟩ := List.mem_map.mp member
    exact inShared capture inside
  · obtain ⟨capture, inside, rfl⟩ := List.mem_map.mp member
    exact inOwn capture inside

theorem wildFields_eq_ok {fields : List Ty} {pats : List Pat}
    (run : wildFields span fields before = .ok pats after) : ∀ p ∈ pats, p = .any := by
  induction fields generalizing before after pats with
  | nil =>
    obtain ⟨rfl, -⟩ := pure_eq_ok.mp run
    exact List.forall_mem_nil _
  | cons field fields ih =>
    obtain ⟨_, _, _, run⟩ := bind_eq_ok.mp run
    obtain ⟨_, _, _, run⟩ := bind_eq_ok.mp run
    obtain ⟨rest, _, others, run⟩ := bind_eq_ok.mp run
    obtain ⟨rfl, -⟩ := pure_eq_ok.mp run
    exact List.forall_mem_cons.mpr ⟨rfl, ih others⟩

theorem capturesAll_of_any {pats : List Pat} (each : ∀ p ∈ pats, p = .any) :
    Pat.capturesAll pats = [] := by
  induction pats with
  | nil => rfl
  | cons p pats ih =>
    obtain ⟨rfl, others⟩ := List.forall_mem_cons.mp each
    rw [Pat.capturesAll, ih others]
    rfl

theorem uniform_wild (capture : Option Name) : (Pat.wild capture).Uniform :=
  fun _ _ same => Pat.noConfusion same

theorem uniform_ofConstant (constant : Constant) :
    (Pat.ofConstant constant).captures = [] ∧ (Pat.ofConstant constant).Uniform := by
  cases constant with
  | bool _ | int _ _ | str _ => exact ⟨rfl, fun _ _ same => Pat.noConfusion same⟩

theorem uniform_tuple {pats : List Pat} (each : ∀ p ∈ pats, p.Uniform) : (Pat.tuple pats).Uniform :=
  ⟨fun _ _ same => Pat.noConfusion same, Pat.everyAll_iff.mpr each⟩

theorem uniform_ctor {name : Name} {template : TemplateId} {index : Nat} {pats : List Pat}
    (each : ∀ p ∈ pats, p.Uniform) : (Pat.ctor name template index pats).Uniform :=
  ⟨fun _ _ same => Pat.noConfusion same, Pat.everyAll_iff.mpr each⟩

theorem uniform_oneOf {first : Pat} {rest : List Pat} (uniform : first.Uniform)
    (each : ∀ p ∈ rest, p.Uniform)
    (same : ∀ p ∈ rest, p.captures.Perm first.captures) : (Pat.oneOf (first :: rest)).Uniform := by
  refine ⟨?_, Pat.everyAll_iff.mpr (List.forall_mem_cons.mpr ⟨uniform, each⟩)⟩
  rintro _ _ ⟨⟩
  exact same

theorem records_ctor {name : Name} {info : CtorInfo} {result : Ty} {fields : Capturing (List Pat)}
    (each : ∀ {pats captures' after}, fields captures before = .ok (pats, captures') after →
      Records captures captures' (Pat.capturesAll pats) ∧ ∀ p ∈ pats, p.Uniform)
    (run : (do
      let subpatterns ← fields
      pure (.ctor name info.template info.index subpatterns, result) :
        Capturing (Pat × Ty)) captures before =
        .ok ((pat, ty), captures') after) : Records captures captures' pat.captures ∧
          pat.Uniform := by
  obtain ⟨pats, _, _, found, finish⟩ := state_bind_eq_ok.mp run
  obtain ⟨same, rfl, -⟩ := state_pure_eq_ok.mp finish
  obtain ⟨rfl, -⟩ := Prod.mk.inj same
  obtain ⟨records, uniform⟩ := each found
  exact ⟨records, uniform_ctor uniform⟩

theorem records_tuple {elements : Capturing (List (Pat × Ty))}
    (each : ∀ {elems captures' after}, elements captures before = .ok (elems, captures') after →
      Records captures captures' (Pat.capturesAll (elems.map (·.1))) ∧
        ∀ p ∈ elems.map (·.1), p.Uniform)
    (run : (do
      let elems ← elements
      pure (.tuple (elems.map (·.1)), .tuple (elems.map (·.2))) :
        Capturing (Pat × Ty)) captures before =
        .ok ((pat, ty), captures') after) : Records captures captures' pat.captures ∧
          pat.Uniform := by
  obtain ⟨elems, _, _, found, finish⟩ := state_bind_eq_ok.mp run
  obtain ⟨same, rfl, -⟩ := state_pure_eq_ok.mp finish
  obtain ⟨rfl, -⟩ := Prod.mk.inj same
  obtain ⟨records, uniform⟩ := each found
  exact ⟨records, uniform_tuple uniform⟩

theorem records_wildFields {fields : List Ty} {pats : List Pat}
    (run : (liftM (wildFields span fields) : Capturing (List Pat)) captures before =
      .ok (pats, captures') after) :
    Records captures captures' (Pat.capturesAll pats) ∧ ∀ p ∈ pats, p.Uniform := by
  obtain ⟨_, _, found, finish⟩ := bind_eq_ok.mp run
  obtain ⟨same, -⟩ := pure_eq_ok.mp finish
  obtain ⟨rfl, rfl⟩ := Prod.mk.inj same
  have each := wildFields_eq_ok found
  refine ⟨?_, fun p member => ?_⟩
  · rw [capturesAll_of_any each]
    exact records_nothing _
  · rw [each p member]
    exact uniform_wild none

mutual

theorem records_pattern : ∀ (written : Surface.Pattern) {before after : Session}
    {captures captures' : Captures}
    {pat : Pat} {ty : Ty}, pattern written captures before = .ok ((pat, ty), captures') after →
      Records captures captures' pat.captures ∧ pat.Uniform
  | .wild _, _, _, _, _, _, _, run => by
    unfold pattern at run
    obtain ⟨_, _, _, finish⟩ := state_lift_bind_eq_ok.mp run
    obtain ⟨same, rfl, -⟩ := state_pure_eq_ok.mp finish
    obtain ⟨rfl, -⟩ := Prod.mk.inj same
    exact ⟨records_nothing _, uniform_wild none⟩
  | .lit span value, _, _, _, _, _, _, run => by
    unfold pattern at run
    obtain ⟨⟨constant, _⟩, _, _, finish⟩ := state_lift_bind_eq_ok.mp run
    obtain ⟨same, rfl, -⟩ := state_pure_eq_ok.mp finish
    obtain ⟨rfl, -⟩ := Prod.mk.inj same
    obtain ⟨none_, uniform⟩ := uniform_ofConstant constant
    exact ⟨none_ ▸ records_nothing _, uniform⟩
  | .bind span name, _, _, _, _, _, _, run => by
    unfold pattern at run
    obtain ⟨known, _, _, rest⟩ := state_lift_bind_eq_ok.mp run
    cases known with
    | some _ =>
      obtain ⟨⟨info, fields, result⟩, _, _, rest⟩ := state_lift_bind_eq_ok.mp rest
      obtain ⟨_, _, _, finish⟩ := state_lift_bind_eq_ok.mp rest
      obtain ⟨same, rfl, -⟩ := state_pure_eq_ok.mp finish
      obtain ⟨rfl, -⟩ := Prod.mk.inj same
      exact ⟨records_nothing _, uniform_ctor (List.forall_mem_nil _)⟩
    | none =>
      obtain ⟨_, _, _, rest⟩ := state_lift_bind_eq_ok.mp rest
      obtain ⟨_, _, _, add, finish⟩ := state_bind_eq_ok.mp rest
      obtain ⟨same, rfl, -⟩ := state_pure_eq_ok.mp finish
      obtain ⟨rfl, -⟩ := Prod.mk.inj same
      exact ⟨records_addCapture add, uniform_wild _⟩
  | .tuple _ [inner], _, _, _, _, _, _, run => by
    unfold pattern at run
    exact records_pattern inner run
  | .tuple _ [], _, _, _, _, _, _, run => by
    unfold pattern at run
    exact records_tuple (fun found => records_elementPatterns [] found) run
  | .tuple _ (first :: second :: rest), _, _, _, _, _, _, run => by
    unfold pattern at run
    exact records_tuple (fun found => records_elementPatterns (first :: second :: rest) found) run
  | .ctor span name args, _, _, _, _, _, _, run => by
    unfold pattern at run
    obtain ⟨⟨info, fields, result⟩, _, _, rest⟩ := state_lift_bind_eq_ok.mp run
    clear run
    dsimp only at rest
    split at rest
    · split at rest
      · next elements several =>
          exact records_ctor (fun found => records_fieldPatterns elements found) rest
      · next tupleSpan elements _ =>
        obtain ⟨_, _, _, rest'⟩ := state_lift_bind_eq_ok.mp rest
        exact records_ctor (fun found => records_fieldPatterns [.tuple tupleSpan elements]
          found) rest'
    · split at rest
      · exact records_ctor records_wildFields rest
      · obtain ⟨_, _, _, rest'⟩ := state_lift_bind_eq_ok.mp rest
        exact records_ctor records_wildFields rest'
    · obtain ⟨_, _, _, rest'⟩ := state_lift_bind_eq_ok.mp rest
      exact records_ctor (fun found => records_fieldPatterns args found) rest'
  | .ascribed span inner type, _, _, _, _, _, _, run => by
    unfold pattern at run
    obtain ⟨⟨pat, found⟩, _, _, checked, rest⟩ := state_bind_eq_ok.mp run
    obtain ⟨_, _, _, rest⟩ := state_lift_bind_eq_ok.mp rest
    obtain ⟨_, _, _, finish⟩ := state_lift_bind_eq_ok.mp rest
    obtain ⟨same, rfl, -⟩ := state_pure_eq_ok.mp finish
    obtain ⟨rfl, -⟩ := Prod.mk.inj same
    exact records_pattern inner checked
  | .oneOf _ [], _, _, _, _, _, _, run => by
    unfold pattern at run
    obtain ⟨_, _, _, finish⟩ := state_lift_bind_eq_ok.mp run
    obtain ⟨same, rfl, -⟩ := state_pure_eq_ok.mp finish
    obtain ⟨rfl, -⟩ := Prod.mk.inj same
    exact ⟨records_nothing _, nofun, trivial⟩
  | .oneOf span (first :: rest), _, _, _, _, _, _, run => by
    unfold pattern at run
    obtain ⟨⟨⟨pat, ty⟩, shared⟩, _, checked, step⟩ := state_lift_bind_eq_ok.mp run
    obtain ⟨pats, _, others, step⟩ := state_lift_bind_eq_ok.mp step
    obtain ⟨_, _, _, add, finish⟩ := state_bind_eq_ok.mp step
    obtain ⟨records, uniform⟩ := records_pattern first checked
    obtain ⟨names, nodup⟩ := records.of_nil
    have each := records_alternativePatterns rest (names.symm ▸ nodup) others
    have added := records_addCaptures add
    rw [names] at added each
    split at finish
    · obtain ⟨same, rfl, -⟩ := state_pure_eq_ok.mp finish
      obtain ⟨rfl, -⟩ := Prod.mk.inj same
      exact ⟨added, uniform⟩
    · obtain ⟨same, rfl, -⟩ := state_pure_eq_ok.mp finish
      obtain ⟨rfl, -⟩ := Prod.mk.inj same
      exact ⟨added, uniform_oneOf uniform (fun p member => (each p member).1) fun p member =>
        (each p member).2⟩
termination_by written => sizeOf written

theorem records_elementPatterns : ∀ (elements : List Surface.Pattern) {before after : Session}
    {captures captures' : Captures} {elems : List (Pat × Ty)},
    elementPatterns elements captures before = .ok (elems, captures') after →
      Records captures captures' (Pat.capturesAll (elems.map (·.1))) ∧ ∀ p ∈ elems.map (·.1),
      p.Uniform
  | [], _, _, _, _, _, run => by
    unfold elementPatterns at run
    obtain ⟨rfl, rfl, -⟩ := state_pure_eq_ok.mp run
    exact ⟨records_nothing _, List.forall_mem_nil _⟩
  | element :: rest, _, _, _, _, _, run => by
    unfold elementPatterns at run
    obtain ⟨⟨pat, ty⟩, _, _, first, run⟩ := state_bind_eq_ok.mp run
    obtain ⟨elems, _, _, others, finish⟩ := state_bind_eq_ok.mp run
    obtain ⟨rfl, rfl, -⟩ := state_pure_eq_ok.mp finish
    obtain ⟨records, uniform⟩ := records_pattern element first
    obtain ⟨records', each⟩ := records_elementPatterns rest others
    exact ⟨records.trans records', List.forall_mem_cons.mpr ⟨uniform, each⟩⟩
termination_by elements => sizeOf elements

theorem records_fieldPatterns : ∀ (args : List Surface.Pattern) {fields : List Ty}
    {before after : Session} {captures captures' : Captures} {pats : List Pat},
    fieldPatterns args fields captures before = .ok (pats, captures') after →
      Records captures captures' (Pat.capturesAll pats) ∧ ∀ p ∈ pats, p.Uniform
  | [], _, _, _, _, _, _, run => by
    unfold fieldPatterns at run
    obtain ⟨rfl, rfl, -⟩ := state_pure_eq_ok.mp run
    exact ⟨records_nothing _, List.forall_mem_nil _⟩
  | _ :: _, [], _, _, _, _, _, run => by
    unfold fieldPatterns at run
    obtain ⟨rfl, rfl, -⟩ := state_pure_eq_ok.mp run
    exact ⟨records_nothing _, List.forall_mem_nil _⟩
  | arg :: args, field :: fields, _, _, _, _, _, run => by
    unfold fieldPatterns at run
    obtain ⟨⟨pat, ty⟩, _, _, first, run⟩ := state_bind_eq_ok.mp run
    obtain ⟨_, _, _, run⟩ := state_lift_bind_eq_ok.mp run
    obtain ⟨pats, _, _, others, finish⟩ := state_bind_eq_ok.mp run
    obtain ⟨rfl, rfl, -⟩ := state_pure_eq_ok.mp finish
    obtain ⟨records, uniform⟩ := records_pattern arg first
    obtain ⟨records', each⟩ := records_fieldPatterns args others
    exact ⟨records.trans records', List.forall_mem_cons.mpr ⟨uniform, each⟩⟩
termination_by args => sizeOf args

theorem records_alternativePatterns : ∀ (alternatives : List Surface.Pattern)
    {before after : Session} {ty : Ty}
    {shared : Captures} {pats : List Pat}, (shared.map (·.1)).Nodup →
    alternativePatterns ty shared alternatives before = .ok pats after →
      ∀ p ∈ pats, p.Uniform ∧ p.captures.Perm (shared.map (·.1))
  | [], _, _, _, _, _, _, run => by
    unfold alternativePatterns at run
    obtain ⟨rfl, -⟩ := pure_eq_ok.mp run
    exact List.forall_mem_nil _
  | alternative :: rest, _, _, _, _, _, nodup, run => by
    unfold alternativePatterns at run
    obtain ⟨⟨⟨pat, ownTy⟩, own⟩, _, first, run⟩ := bind_eq_ok.mp run
    obtain ⟨_, _, _, run⟩ := bind_eq_ok.mp run
    obtain ⟨_, _, agree, run⟩ := bind_eq_ok.mp run
    obtain ⟨pats, _, others, finish⟩ := bind_eq_ok.mp run
    obtain ⟨rfl, -⟩ := pure_eq_ok.mp finish
    obtain ⟨records, uniform⟩ := records_pattern alternative first
    obtain ⟨names, nodup'⟩ := records.of_nil
    have perm := perm_names_of_agreed nodup (names.symm ▸ nodup') (agreed_of_agree agree)
    exact List.forall_mem_cons.mpr ⟨⟨uniform, names ▸ perm⟩,
      records_alternativePatterns rest nodup others⟩
termination_by alternatives => sizeOf alternatives

end

end Check

end PolyCheck
