import PolyCheck.Proofs.Session.Steps
import PolyCheck.Proofs.Surface
import PolyCheck.Session.Pattern

/-! Checked patterns are well typed in every later state. The names that a pattern adds are new, and
the alternatives of a choice agree on names and types, whatever else is solved. -/
namespace PolyCheck

open Run

def resolvedCaptures (final : Subst) (captures : Captures) : Captures :=
  captures.map fun (name, ty) => (name, final.zonk ty)

theorem names_resolvedCaptures (final : Subst) (captures : Captures) :
    (resolvedCaptures final captures).map (·.1) = captures.map (·.1) := by
  rw [resolvedCaptures, List.map_map]
  rfl

structure Captured (captures captures' own : Captures) : Prop where
  added : captures' = captures ++ own
  written : ∀ capture ∈ own, capture.1.isMinted = false
  distinct : (captures.map (·.1)).Nodup → (captures'.map (·.1)).Nodup

theorem captured_nothing (captures : Captures) : Captured captures captures [] :=
  ⟨(List.append_nil _).symm, nofun, id⟩

theorem Captured.trans {first second third own own' : Captures} (here : Captured first second own)
    (there : Captured second third own') : Captured first third (own ++ own') where
  added := by rw [there.added, here.added, List.append_assoc]
  written capture member :=
    (List.mem_append.mp member).elim (here.written capture) (there.written capture)
  distinct nodup := there.distinct (here.distinct nodup)

namespace Session

variable {before middle after : Session} {types : List Ty} {claim : Claim}

theorem Yields.reorder {types' : List Ty} (yields : Yields before after types claim)
    (subset : types' ⊆ types) : Yields before after types' claim :=
  yields.narrow
    (fun ty member => Subst.covers_of_mem (subset member) (yields.plain ty (subset member)))
    fun _ holds => holds

theorem Yields.covers (yields : Yields before after types claim) {ty : Ty} (member : ty ∈ types) :
    after.subst.Covers types ty :=
  Subst.covers_of_mem member (yields.plain ty member)

/-- What is covered by results stays covered while checks follow. -/
theorem Yields.covers_later {types' : List Ty} {ty : Ty} (yields : Yields before middle types claim)
    (covers : middle.subst.Covers types ty) (sound : after.Sound)
    (later : middle.subst.Extends after.subst) (subset : types ⊆ types') :
    after.subst.Covers types' ty :=
  (covers.later yields.advance.sound.tame sound.tame later yields.plain).mono subset

theorem Yields.unify_later (yields : Yields before middle types claim) {left right : Ty}
    {span : Span}
    (covers : middle.subst.Covers types left) (covers' : middle.subst.Covers types right)
    (run : Check.unify left right span middle = .ok () after) :
    middle.subst.Extends after.subst := by
  obtain ⟨subst, unified, rfl⟩ := yields.advance.sound.unified covers.1 covers'.1 run
  exact unified.later

theorem Yields.grows_unify (yields : Yields before middle types claim) {left right : Ty}
    {span : Span}
    (covers : middle.subst.Covers types left) (covers' : middle.subst.Covers types right)
    (run : Check.unify left right span middle = .ok () after) :
    middle.registry.Grows after.registry := by
  obtain ⟨subst, -, rfl⟩ := yields.advance.sound.unified covers.1 covers'.1 run
  exact Registry.grows_refl _

section Captures

theorem addCapture_eq_ok {name : Name} {ty : Ty} {span : Span} {captures captures' : Captures}
    {value : Unit}
    (run : Check.addCapture name ty span captures before = .ok (value, captures') after) :
    after = before ∧ captures' = captures ++ [(name, ty)] ∧ name ∉ captures.map (·.1) := by
  obtain ⟨found, own, middle, read, rest⟩ := state_bind_eq_ok.mp run
  obtain ⟨rfl, rfl, rfl⟩ := state_pure_eq_ok.mp read
  by_cases taken : captures.any (·.1 = name)
  · simp only [taken, if_true] at rest
    have failed : (Check.fail (.duplicateName .capture name) span >>= fun value : Unit =>
      pure (value, captures)) before = .ok (value, captures') after := rest
    simp [Check.fail, bind_apply, throw_apply] at failed
  · simp only [taken] at rest
    obtain ⟨same, rfl⟩ := EStateM.Result.ok.inj rest
    obtain ⟨-, rfl⟩ := Prod.mk.inj same
    refine ⟨rfl, rfl, fun member => taken ?_⟩
    simpa using member

theorem captured_addCapture {name : Name} {ty : Ty} {span : Span} {captures captures' : Captures}
    {value : Unit} (written : name.isMinted = false)
    (run : Check.addCapture name ty span captures before = .ok (value, captures') after) :
    after = before ∧ Captured captures captures' [(name, ty)] := by
  obtain ⟨rfl, rfl, absent⟩ := addCapture_eq_ok run
  refine ⟨rfl, rfl, fun capture member => ?_, fun nodup => ?_⟩
  · rw [List.mem_singleton.mp member]
    exact written
  · rw [List.map_append, List.map_singleton, List.nodup_append]
    refine ⟨nodup, List.nodup_singleton _, fun other member name' single same => absent ?_⟩
    obtain rfl : other = name := same.trans (List.mem_singleton.mp single)
    exact member

theorem captured_addCaptures {shared captures captures' : Captures} {span : Span} {value : PUnit}
    (written : ∀ capture ∈ shared, capture.1.isMinted = false)
    (run : (forM shared fun (name, ty) => Check.addCapture name ty span : Capturing PUnit)
      captures before = .ok (value, captures') after) :
    after = before ∧ Captured captures captures' shared := by
  induction shared generalizing captures before with
  | nil =>
    obtain ⟨-, rfl, rfl⟩ := state_pure_eq_ok.mp run
    exact ⟨rfl, captured_nothing _⟩
  | cons capture shared ih =>
    rw [List.forM_cons] at run
    obtain ⟨found, own, middle, add, rest⟩ := state_bind_eq_ok.mp run
    obtain ⟨here, others⟩ := List.forall_mem_cons.mp written
    obtain ⟨rfl, captured⟩ := captured_addCapture here add
    obtain ⟨rfl, captured'⟩ := ih others rest
    exact ⟨rfl, captured.trans captured'⟩

end Captures

section Agreement

variable {shared own : Captures}

theorem names_of_unsharedCapture? (agreed : Check.unsharedCapture? shared own = none) :
    (∀ capture ∈ shared, capture.1 ∈ own.map (·.1)) ∧
      ∀ capture ∈ own, capture.1 ∈ shared.map (·.1) := by
  simp only [Check.unsharedCapture?, Option.map_eq_none_iff, Option.or_eq_none_iff,
    List.find?_eq_none] at agreed
  refine ⟨fun capture member => ?_, fun capture member => ?_⟩
  · simpa using agreed.1 capture member
  · simpa using agreed.2 capture member

theorem perm_of_agreed {final : Subst} (nodup : (shared.map (·.1)).Nodup)
    (nodup' : (own.map (·.1)).Nodup) (agreed : Check.unsharedCapture? shared own = none)
    (equal : ∀ capture ∈ own, ∀ ty, shared.lookup capture.1 = some ty →
      final.zonk ty = final.zonk capture.2) :
    (resolvedCaptures final own).Perm (resolvedCaptures final shared) := by
  obtain ⟨inOwn, inShared⟩ := names_of_unsharedCapture? agreed
  have distinct : ∀ captures : Captures, (captures.map (·.1)).Nodup →
      (resolvedCaptures final captures).Nodup := fun captures nodup =>
    List.Nodup.of_map (·.1) (by rwa [names_resolvedCaptures])
  have found : ∀ {name : Name} {ty : Ty}, (name, ty) ∈ shared → shared.lookup name = some ty :=
    fun member => (lookup_eq_some_iff nodup).mpr member
  refine (List.perm_ext_iff_of_nodup (distinct own nodup') (distinct shared nodup)).mpr
    fun entry => ⟨fun member => ?_, fun member => ?_⟩
  · obtain ⟨⟨name, ty⟩, inside, rfl⟩ := List.mem_map.mp member
    obtain ⟨⟨other, sharedTy⟩, known, same⟩ := List.mem_map.mp (inShared (name, ty) inside)
    obtain rfl : other = name := same
    exact List.mem_map.mpr ⟨_, known,
      Prod.ext rfl (equal (other, ty) inside sharedTy (found known))⟩
  · obtain ⟨⟨name, sharedTy⟩, known, rfl⟩ := List.mem_map.mp member
    obtain ⟨⟨other, ty⟩, inside, same⟩ := List.mem_map.mp (inOwn (name, sharedTy) known)
    obtain rfl : other = name := same
    exact List.mem_map.mpr ⟨_, inside,
      Prod.ext rfl (equal (other, ty) inside sharedTy (found known)).symm⟩

theorem yields_agree (yields : Yields before middle types claim) (sound : before.Sound)
    {span : Span} (among : ∀ capture ∈ shared, capture.2 ∈ types)
    (among' : ∀ capture ∈ own, capture.2 ∈ types) {value : PUnit}
    (run : Check.agree shared own span middle = .ok value after) :
    Check.unsharedCapture? shared own = none ∧
      Yields before after types fun final registry context => claim final registry context ∧
        ∀ capture ∈ own, ∀ ty, shared.lookup capture.1 = some ty →
          final.zonk ty = final.zonk capture.2 := by
  unfold Check.agree at run
  cases agreed : Check.unsharedCapture? shared own with
  | some name => simp [agreed, Check.fail, throw_apply] at run
  | none =>
    refine ⟨rfl, ?_⟩
    simp only [agreed] at run
    clear agreed
    induction own generalizing middle claim with
    | nil =>
      obtain ⟨-, rfl⟩ := EStateM.Result.ok.inj run
      exact yields.imp fun _ holds => ⟨holds, fun _ inside => absurd inside List.not_mem_nil⟩
    | cons capture own ih =>
      obtain ⟨name, ty⟩ := capture
      rw [List.forM_eq_forM, List.forM_cons] at run
      obtain ⟨found, middle', here, rest⟩ := bind_eq_ok.mp run
      obtain ⟨inTypes, others⟩ := List.forall_mem_cons.mp among'
      cases known : shared.lookup name with
      | none =>
        simp only [known] at here
        obtain ⟨-, rfl⟩ := EStateM.Result.ok.inj here
        refine (ih yields others rest).imp fun _ both => ?_
        obtain ⟨holds, equal⟩ := both
        refine ⟨holds, ?_⟩
        refine List.forall_mem_cons.mpr ⟨fun other same => ?_, equal⟩
        simp [known] at same
      | some sharedTy =>
        simp only [known] at here
        have member : sharedTy ∈ types := by
          obtain ⟨first, last, split, -⟩ := List.lookup_eq_some_iff.mp known
          exact among (name, sharedTy) (by rw [split]; simp)
        have unified := yields.unify sound (yields.covers member) (yields.covers inTypes) here
        refine (ih unified others rest).imp fun _ both => ?_
        obtain ⟨⟨holds, first⟩, equal⟩ := both
        refine ⟨holds, ?_⟩
        refine List.forall_mem_cons.mpr ⟨fun other same => ?_, equal⟩
        obtain rfl : sharedTy = other := by simpa [known] using same
        exact first

end Agreement

section Constructors

variable {info : CtorInfo} {dataCase : DataCase} {args fields : List Ty}

theorem Outlook.typed_ctor {final : Subst} {registry : Registry} {context : Context}
    (outlook : Outlook before after types final registry context) (sound : after.Sound)
    (atNew : AtNew after.registry info dataCase args)
    (plain : (Ty.nominal info.template args).FirstOrder after.subst.size) {pats : List Pat}
    {captures : Captures} (typed : Pat.TypedAll registry pats
      ((after.registry.fieldsAt info.template info.index args).map final.zonk) captures) :
    Pat.Typed registry (.ctor info.name info.template info.index pats)
      (final.zonk (.nominal info.template args)) captures := by
  obtain ⟨declares, resolved, fields⟩ := outlook.fieldsAt sound atNew plain
  rw [resolved, ← atNew.name]
  exact .ctor declares (fields ▸ typed)

theorem lookupCtor?_eq_ok {name : Name} {known : Option CtorInfo}
    (run : Check.lookupCtor? name before = .ok known after) :
    after = before ∧ known = before.registry.ctors.get? name := by
  obtain ⟨found, middle, read, run⟩ := bind_eq_ok.mp run
  obtain ⟨rfl, rfl⟩ := EStateM.Result.ok.inj read
  obtain ⟨rfl, rfl⟩ := EStateM.Result.ok.inj run
  exact ⟨rfl, rfl⟩

theorem yields_ctorPattern (sound : before.Sound) {name : Name} {span : Span} {result : Ty}
    (run : Check.ctorPattern name span before = .ok (info, fields, result) after) :
    info.name = name ∧ ∃ dataCase args, AtNew after.registry info dataCase args ∧
      fields = after.registry.fieldsAt info.template info.index args ∧
      result = .nominal info.template args ∧
      (Yields before after [result] fun _ _ _ => True) ∧
      ∀ field ∈ fields, after.subst.Covers [result] field := by
  obtain ⟨known, middle, look, run⟩ := bind_eq_ok.mp run
  obtain ⟨rfl, rfl⟩ := lookupCtor?_eq_ok look
  cases known : middle.registry.ctors.get? name with
  | none => simp [known, Check.fail, throw_apply] at run
  | some found =>
    simp only [known] at run
    obtain ⟨⟨fields', result'⟩, last, instance_, run⟩ := bind_eq_ok.mp run
    obtain ⟨same, rfl⟩ := EStateM.Result.ok.inj run
    obtain ⟨rfl, rest⟩ := Prod.mk.inj same
    obtain ⟨rfl, rfl⟩ := Prod.mk.inj rest
    obtain ⟨sameName, registers⟩ := sound.registry.ctor known
    exact ⟨sameName, yields_ctorInstance sound registers instance_⟩

theorem expectFields_eq_ok {name : Name} {expected found : Nat} {span : Span} {value : Unit}
    (run : Check.expectFields name expected found span before = .ok value after) :
    after = before ∧ found = expected := by
  unfold Check.expectFields at run
  split at run
  · obtain ⟨-, rfl⟩ := EStateM.Result.ok.inj run
    exact ⟨rfl, by assumption⟩
  · simp [Check.fail, throw_apply] at run

theorem yields_wildFields (yields : Yields before middle types claim) (sound : before.Sound)
    {span : Span} (covers : ∀ field ∈ fields, middle.subst.Covers types field) {pats : List Pat}
    (run : Check.wildFields span fields middle = .ok pats after) :
    middle.registry.Grows after.registry ∧
      Yields before after types fun final registry context => claim final registry context ∧
        Pat.TypedAll registry pats (fields.map final.zonk) [] := by
  induction fields generalizing middle pats with
  | nil =>
    obtain ⟨rfl, rfl⟩ := EStateM.Result.ok.inj run
    exact ⟨Registry.grows_refl _, yields.imp fun _ holds => ⟨holds, .nil⟩⟩
  | cons field fields ih =>
    obtain ⟨fresh, middle', new, run⟩ := bind_eq_ok.mp run
    obtain ⟨value, middle'', unify, run⟩ := bind_eq_ok.mp run
    obtain ⟨rest, last, others, run⟩ := bind_eq_ok.mp run
    obtain ⟨rfl, rfl⟩ := EStateM.Result.ok.inj run
    have newYields := yields_freshVar yields.advance.sound new
    have both := yields.seq newYields sound
    have subset : types ⊆ types ++ [fresh] := List.subset_append_left _ _
    have covered : middle'.subst.Covers (types ++ [fresh]) field :=
      yields.covers_later (covers field List.mem_cons_self) newYields.advance.sound
        newYields.advance.later subset
    have unified := both.unify sound covered (both.covers (by simp)) unify
    have kept := (unified.reorder subset).imp fun _ holds => holds.1.1
    have later := newYields.advance.later.trans yields.advance.sound.tame
      (both.unify_later covered (both.covers (by simp)) unify)
    obtain ⟨grows, yields'⟩ := ih kept (fun other member =>
      yields.covers_later (covers other (List.mem_cons_of_mem field member))
        kept.advance.sound later (List.Subset.refl _)) others
    have step := (newYields.advance.registry.trans
      (both.grows_unify covered (both.covers (by simp)) unify)).trans grows
    exact ⟨step, yields'.imp fun _ ⟨holds, typed⟩ => ⟨holds, .cons (.any _) typed⟩⟩

end Constructors

section Patterns

open Surface

theorem typed_ofConstant {registry : Registry} {ty : Ty} {constant : Constant}
    (fits : constant.Fits registry ty) : Pat.Typed registry (.ofConstant constant) ty [] := by
  cases constant with
  | bool value => exact .bool fits value
  | int width value => exact .int fits.1 fits.2
  | str bytes => exact .str fits bytes

theorem resolvedCaptures_append (final : Subst) (own own' : Captures) :
    resolvedCaptures final (own ++ own') = resolvedCaptures final own ++
      resolvedCaptures final own' :=
  List.map_append

def YieldsPattern (written : Surface.Pattern) : Prop :=
  ∀ {before after : Session} {captures captures' : Captures} {pat : Pat} {ty : Ty}, before.Sound →
    Check.pattern written captures before = .ok ((pat, ty), captures') after →
    ∃ own, Captured captures captures' own ∧
      Yields before after (ty :: own.map (·.2)) fun final registry _ =>
        Pat.Typed registry pat (final.zonk ty) (resolvedCaptures final own)

/-- What checking several patterns gives, one after the other. -/
def YieldsElements (elements : List Surface.Pattern) : Prop :=
  ∀ {before after : Session} {captures captures' : Captures} {elems : List (Pat × Ty)},
  before.Sound → Check.elementPatterns elements captures before = .ok (elems, captures') after →
    ∃ own, Captured captures captures' own ∧
      Yields before after (elems.map (·.2) ++ own.map (·.2)) fun final registry _ =>
        Pat.TypedAll registry (elems.map (·.1)) ((elems.map (·.2)).map final.zonk)
          (resolvedCaptures final own)

/-- What checking the arguments of a constructor gives, for fields over the types checked so far. -/
def YieldsFields (args : List Surface.Pattern) : Prop :=
  ∀ {fields : List Ty} {before middle after : Session} {types : List Ty} {claim : Claim}
    {captures captures' : Captures} {pats : List Pat}, args.length = fields.length → before.Sound →
    Yields before middle types claim → (∀ field ∈ fields, middle.subst.Covers types field) →
    Check.fieldPatterns args fields captures middle = .ok (pats, captures') after →
    middle.registry.Grows after.registry ∧ ∃ own, Captured captures captures' own ∧
      Yields before after (types ++ own.map (·.2)) fun final registry context =>
        claim final registry context ∧
          Pat.TypedAll registry pats (fields.map final.zonk) (resolvedCaptures final own)

/-- What checking further alternatives gives, for a pattern that has been checked. -/
def YieldsChoice (alternatives : List Surface.Pattern) : Prop :=
  ∀ {before middle after : Session} {types : List Ty} {claim : Claim} {ty : Ty} {shared : Captures}
    {pats : List Pat}, before.Sound → Yields before middle types claim → ty ∈ types →
    (∀ capture ∈ shared, capture.2 ∈ types) → (shared.map (·.1)).Nodup →
    Check.alternativePatterns ty shared alternatives middle = .ok pats after →
    Yields before after types fun final registry context => claim final registry context ∧
      Pat.TypedChoice registry pats (final.zonk ty) (resolvedCaptures final shared)

section Cases

variable {captures captures' : Captures} {pat : Pat} {ty : Ty} {span : Span}

theorem yields_bindPattern {name : Name} (written : name.isMinted = false) :
    YieldsPattern (.bind span name) := by
  intro before after captures captures' pat ty sound run
  unfold Check.pattern at run
  obtain ⟨known, middle, look, rest⟩ := state_lift_bind_eq_ok.mp run
  obtain ⟨rfl, -⟩ := lookupCtor?_eq_ok look
  cases known with
  | some _ =>
    obtain ⟨⟨info, fields, result⟩, next, ctor, rest⟩ := state_lift_bind_eq_ok.mp rest
    obtain ⟨_, last, expect, rest⟩ := state_lift_bind_eq_ok.mp rest
    obtain ⟨same, rfl, rfl⟩ := state_pure_eq_ok.mp rest
    obtain ⟨rfl, rfl⟩ := Prod.mk.inj same
    obtain ⟨rfl, empty⟩ := expectFields_eq_ok expect
    obtain ⟨rfl, dataCase, args, atNew, rfl, rfl, yields, -⟩ := yields_ctorPattern sound ctor
    refine ⟨[], captured_nothing _, yields.imp fun outlook _ => ?_⟩
    refine outlook.typed_ctor yields.advance.sound atNew (yields.plain _ List.mem_cons_self) ?_
    rw [List.eq_nil_of_length_eq_zero empty.symm]
    exact .nil
  | none =>
    obtain ⟨found, next, fresh, rest⟩ := state_lift_bind_eq_ok.mp rest
    obtain ⟨_, own, last, add, rest⟩ := state_bind_eq_ok.mp rest
    obtain ⟨same, rfl, rfl⟩ := state_pure_eq_ok.mp rest
    obtain ⟨rfl, rfl⟩ := Prod.mk.inj same
    obtain ⟨rfl, captured⟩ := captured_addCapture written add
    exact ⟨_, captured, ((yields_freshVar sound fresh).reorder (by simp)).imp
      fun _ _ => .capturing _ _⟩

theorem yields_tuplePattern {elements : List Surface.Pattern} (each : YieldsElements elements)
    (sound : before.Sound)
    (run : (do
      let elems ← Check.elementPatterns elements
      pure (.tuple (elems.map (·.1)), .tuple (elems.map (·.2))) :
        Capturing (Pat × Ty)) captures before = .ok ((pat, ty), captures') after) :
    ∃ own, Captured captures captures' own ∧
      Yields before after (ty :: own.map (·.2)) fun final registry _ =>
        Pat.Typed registry pat (final.zonk ty) (resolvedCaptures final own) := by
  obtain ⟨elems, own, middle, found, rest⟩ := state_bind_eq_ok.mp run
  obtain ⟨same, rfl, rfl⟩ := state_pure_eq_ok.mp rest
  obtain ⟨rfl, rfl⟩ := Prod.mk.inj same
  obtain ⟨own, captured, yields⟩ := each sound found
  have tame := yields.advance.sound.tame
  refine ⟨own, captured, yields.narrow (List.forall_mem_cons.mpr ⟨?_, fun ty member => ?_⟩)
    fun outlook typed => ?_⟩
  · exact tame.covers_tuple fun ty member => yields.covers (List.mem_append_left _ member)
  · exact yields.covers (List.mem_append_right _ member)
  · rw [outlook.tame.zonk_tuple fun ty member =>
      (yields.plain ty (List.mem_append_left _ member)).mono outlook.later.size_le]
    exact .tuple typed

theorem yields_choicePattern {first : Surface.Pattern} {rest : List Surface.Pattern}
    (here : YieldsPattern first) (others : YieldsChoice rest) :
    YieldsPattern (.oneOf span (first :: rest)) := by
  intro before after captures captures' pat ty sound run
  unfold Check.pattern at run
  obtain ⟨⟨⟨pat', ty'⟩, shared⟩, middle, firstRun, step⟩ := state_lift_bind_eq_ok.mp run
  obtain ⟨pats, last, restRun, step'⟩ := state_lift_bind_eq_ok.mp step
  obtain ⟨_, own, last', add, finish⟩ := state_bind_eq_ok.mp step'
  obtain ⟨_, ⟨rfl, written, distinct⟩, yields⟩ := here sound firstRun
  obtain ⟨rfl, captured⟩ := captured_addCaptures written add
  have choice := others sound yields List.mem_cons_self
    (fun capture member => List.mem_cons_of_mem _ (List.mem_map_of_mem member))
    (distinct List.nodup_nil) restRun
  refine ⟨shared, ?_⟩
  split at finish
  · obtain ⟨same, rfl, rfl⟩ := state_pure_eq_ok.mp finish
    obtain ⟨rfl, rfl⟩ := Prod.mk.inj same
    exact ⟨captured, choice.imp fun _ holds => holds.1⟩
  · obtain ⟨same, rfl, rfl⟩ := state_pure_eq_ok.mp finish
    obtain ⟨rfl, rfl⟩ := Prod.mk.inj same
    exact ⟨captured, choice.imp fun _ holds => .oneOf holds.1 holds.2⟩

theorem yields_nextElement {element : Surface.Pattern} {rest : List Surface.Pattern}
    (here : YieldsPattern element) (others : YieldsElements rest) :
    YieldsElements (element :: rest) := by
  intro before after captures captures' elems sound run
  unfold Check.elementPatterns at run
  obtain ⟨⟨pat, ty⟩, own, middle, first, next⟩ := state_bind_eq_ok.mp run
  obtain ⟨pats, own', last, second, next⟩ := state_bind_eq_ok.mp next
  obtain ⟨rfl, rfl, rfl⟩ := state_pure_eq_ok.mp next
  obtain ⟨own, captured, yields⟩ := here sound first
  obtain ⟨own', captured', yields'⟩ := others yields.advance.sound second
  refine ⟨own ++ own', captured.trans captured', ((yields.seq yields' sound).reorder ?_).imp
    fun _ ⟨typed, typed'⟩ => ?_⟩
  · intro other member
    simp only [List.map_cons, List.map_append, List.mem_append, List.mem_cons] at member ⊢
    tauto
  · rw [resolvedCaptures_append]
    exact .cons typed typed'

theorem yields_nextField {arg : Surface.Pattern} {args : List Surface.Pattern}
    (here : YieldsPattern arg) (others : YieldsFields args) : YieldsFields (arg :: args) := by
  intro fields before middle after types claim captures captures' pats length sound
    yields covers run
  obtain ⟨field, fields, rfl⟩ := List.exists_cons_of_length_eq_add_one length.symm
  unfold Check.fieldPatterns at run
  obtain ⟨⟨pat, ty⟩, own, next, first, rest⟩ := state_bind_eq_ok.mp run
  obtain ⟨⟨⟩, equal, unify, rest⟩ := state_lift_bind_eq_ok.mp rest
  obtain ⟨pats, own', last, second, rest⟩ := state_bind_eq_ok.mp rest
  obtain ⟨rfl, rfl, rfl⟩ := state_pure_eq_ok.mp rest
  obtain ⟨own, captured, one⟩ := here yields.advance.sound first
  have both := yields.seq one sound
  have covered := yields.covers_later (covers field List.mem_cons_self) one.advance.sound
    one.advance.later (List.subset_append_left types (ty :: own.map (·.2)))
  have ownCovered := both.covers (List.mem_append_right types List.mem_cons_self)
  have later := both.unify_later covered ownCovered unify
  have kept : Yields before equal (types ++ own.map (·.2)) _ :=
    (both.unify sound covered ownCovered unify).reorder (by
      intro other member
      simp only [List.mem_append, List.mem_cons] at member ⊢
      tauto)
  obtain ⟨grows, own', captured', yields'⟩ := others (Nat.succ.inj length) sound kept
    (fun other member => yields.covers_later (covers other (List.mem_cons_of_mem field member))
      kept.advance.sound (one.advance.later.trans yields.advance.sound.tame later)
      (List.subset_append_left _ _)) second
  refine ⟨?_, own ++ own', captured.trans captured', (yields'.reorder ?_).imp fun _ all => ?_⟩
  · exact (one.advance.registry.trans (both.grows_unify covered ownCovered unify)).trans grows
  · simp
  · obtain ⟨⟨⟨holds, typed⟩, same⟩, typed'⟩ := all
    rw [resolvedCaptures_append, List.map_cons, same]
    exact ⟨holds, .cons typed typed'⟩

theorem yields_nextAlternative {alternative : Surface.Pattern} {rest : List Surface.Pattern}
    (here : YieldsPattern alternative) (others : YieldsChoice rest) :
    YieldsChoice (alternative :: rest) := by
  intro before middle after types claim ty shared pats sound yields member among nodup run
  unfold Check.alternativePatterns at run
  obtain ⟨⟨⟨pat, ownTy⟩, own⟩, next, first, run⟩ := bind_eq_ok.mp run
  obtain ⟨⟨⟩, equal, unify, run⟩ := bind_eq_ok.mp run
  obtain ⟨_, agreed, agree, run⟩ := bind_eq_ok.mp run
  obtain ⟨pats, last, second, run⟩ := bind_eq_ok.mp run
  obtain ⟨rfl, rfl⟩ := pure_eq_ok.mp run
  obtain ⟨_, ⟨rfl, written, distinct⟩, one⟩ := here yields.advance.sound first
  have both := yields.seq one sound
  have unified := both.unify sound (both.covers (List.mem_append_left _ member))
    (both.covers (List.mem_append_right _ List.mem_cons_self)) unify
  obtain ⟨names, equal⟩ := yields_agree unified sound
    (fun capture inside => List.mem_append_left _ (among capture inside))
    (fun capture inside => List.mem_append_right _ (List.mem_cons_of_mem _
      (List.mem_map_of_mem inside))) agree
  refine (others sound (equal.reorder (List.subset_append_left _ _)) member among nodup second).imp
    fun _ ⟨⟨⟨⟨holds, typed⟩, same⟩, types⟩, typed'⟩ => ⟨holds, ?_⟩
  rw [same] at typed' ⊢
  exact .cons typed (perm_of_agreed nodup (distinct List.nodup_nil) names types) typed'

theorem yields_ctorFields {args : List Surface.Pattern} (each : YieldsFields args)
    (sound : before.Sound) {name : Name} {info : CtorInfo} {fields : List Ty} {result : Ty}
    (ctor : Check.ctorPattern name span before = .ok (info, fields, result) middle)
    (length : args.length = fields.length)
    (run : (do
      let subpatterns ← Check.fieldPatterns args fields
      pure (.ctor name info.template info.index subpatterns, result) : Capturing (Pat × Ty))
        captures middle = .ok ((pat, ty), captures') after) :
    ∃ own, Captured captures captures' own ∧
      Yields before after (ty :: own.map (·.2)) fun final registry _ =>
        Pat.Typed registry pat (final.zonk ty) (resolvedCaptures final own) := by
  obtain ⟨pats, own, last, found, finish⟩ := state_bind_eq_ok.mp run
  obtain ⟨same, rfl, rfl⟩ := state_pure_eq_ok.mp finish
  obtain ⟨rfl, rfl⟩ := Prod.mk.inj same
  obtain ⟨rfl, dataCase, instances, atNew, rfl, rfl, yields, covers⟩ :=
    yields_ctorPattern sound ctor
  obtain ⟨grows, own, captured, yields'⟩ := each length sound yields covers found
  refine ⟨own, captured, yields'.imp fun outlook ⟨_, typed⟩ => ?_⟩
  rw [← atNew.declares.fieldsAt_grow grows] at typed
  exact outlook.typed_ctor yields'.advance.sound
    ⟨atNew.declares.grow grows, atNew.name, atNew.arity⟩ (yields'.plain _ List.mem_cons_self) typed

theorem yields_ctorWild (sound : before.Sound) {name : Name} {info : CtorInfo} {fields : List Ty}
    {result : Ty} {wildSpan : Span}
    (ctor : Check.ctorPattern name span before = .ok (info, fields, result) middle)
    (run : (do
      let subpatterns ← Check.wildFields wildSpan fields
      pure (.ctor name info.template info.index subpatterns, result) : Capturing (Pat × Ty))
        captures middle = .ok ((pat, ty), captures') after) :
    ∃ own, Captured captures captures' own ∧
      Yields before after (ty :: own.map (·.2)) fun final registry _ =>
        Pat.Typed registry pat (final.zonk ty) (resolvedCaptures final own) := by
  obtain ⟨pats, last, found, finish⟩ := state_lift_bind_eq_ok.mp run
  obtain ⟨same, rfl, rfl⟩ := state_pure_eq_ok.mp finish
  obtain ⟨rfl, rfl⟩ := Prod.mk.inj same
  obtain ⟨rfl, dataCase, instances, atNew, rfl, rfl, yields, covers⟩ :=
    yields_ctorPattern sound ctor
  obtain ⟨grows, yields'⟩ := yields_wildFields yields sound covers found
  refine ⟨[], captured_nothing _, yields'.imp fun outlook ⟨_, typed⟩ => ?_⟩
  rw [← atNew.declares.fieldsAt_grow grows] at typed
  exact outlook.typed_ctor yields'.advance.sound
    ⟨atNew.declares.grow grows, atNew.name, atNew.arity⟩ (yields'.plain _ List.mem_cons_self) typed

end Cases

mutual

theorem yields_pattern : ∀ written : Surface.Pattern, written.Bare → YieldsPattern written
  | .wild _, _ => by
    intro sound run
    unfold Check.pattern at run
    obtain ⟨found, middle, fresh, finish⟩ := state_lift_bind_eq_ok.mp run
    obtain ⟨same, rfl, rfl⟩ := state_pure_eq_ok.mp finish
    obtain ⟨rfl, rfl⟩ := Prod.mk.inj same
    exact ⟨[], captured_nothing _, (yields_freshVar sound fresh).imp fun _ _ => .any _⟩
  | .lit span value, _ => by
    intro sound run
    unfold Check.pattern at run
    obtain ⟨⟨constant, litTy⟩, middle, literal, finish⟩ := state_lift_bind_eq_ok.mp run
    obtain ⟨same, rfl, rfl⟩ := state_pure_eq_ok.mp finish
    obtain ⟨rfl, rfl⟩ := Prod.mk.inj same
    exact ⟨[], captured_nothing _, (yields_literal sound literal).imp
      fun _ ⟨fits, same⟩ => same.symm ▸ typed_ofConstant fits⟩
  | .bind span name, bare => yields_bindPattern (by unfold Surface.Pattern.Bare at bare; exact bare)
  | .tuple _ [inner], bare => by
    intro sound run
    unfold Check.pattern at run
    unfold Surface.Pattern.Bare Surface.Pattern.BareAll at bare
    exact yields_pattern inner bare.1 sound run
  | .tuple _ [], bare => by
    intro sound run
    unfold Check.pattern at run
    unfold Surface.Pattern.Bare at bare
    exact yields_tuplePattern (yields_elementPatterns [] bare) sound run
  | .tuple _ (first :: second :: rest), bare => by
    intro sound run
    unfold Check.pattern at run
    unfold Surface.Pattern.Bare at bare
    exact yields_tuplePattern (yields_elementPatterns (first :: second :: rest) bare) sound run
  | .ctor span name args, bare => by
    intro sound run
    unfold Check.pattern at run
    unfold Surface.Pattern.Bare at bare
    obtain ⟨⟨info, fields, result⟩, middle, ctor, rest⟩ := state_lift_bind_eq_ok.mp run
    clear run
    dsimp only at rest
    split at rest
    · split at rest
      · next elements several =>
        unfold Surface.Pattern.BareAll Surface.Pattern.Bare at bare
        exact yields_ctorFields (yields_fieldPatterns elements bare.1) sound ctor several.2 rest
      · next tupleSpan elements _ =>
        obtain ⟨⟨⟩, middle', expect, rest'⟩ := state_lift_bind_eq_ok.mp rest
        obtain ⟨rfl, length⟩ := expectFields_eq_ok expect
        exact yields_ctorFields (yields_fieldPatterns [.tuple tupleSpan elements] bare) sound ctor
          length rest'
    · split at rest
      · exact yields_ctorWild sound ctor rest
      · obtain ⟨⟨⟩, middle', expect, rest'⟩ := state_lift_bind_eq_ok.mp rest
        obtain ⟨rfl, length⟩ := expectFields_eq_ok expect
        exact yields_ctorWild sound ctor rest'
    · obtain ⟨⟨⟩, middle', expect, rest'⟩ := state_lift_bind_eq_ok.mp rest
      obtain ⟨rfl, length⟩ := expectFields_eq_ok expect
      exact yields_ctorFields (yields_fieldPatterns args bare) sound ctor length rest'
  | .ascribed _ _ _, bare => by
    unfold Surface.Pattern.Bare at bare
    exact bare.elim
  | .oneOf _ [], _ => by
    intro sound run
    unfold Check.pattern at run
    obtain ⟨found, middle, fresh, finish⟩ := state_lift_bind_eq_ok.mp run
    obtain ⟨same, rfl, rfl⟩ := state_pure_eq_ok.mp finish
    obtain ⟨rfl, rfl⟩ := Prod.mk.inj same
    exact ⟨[], captured_nothing _, (yields_freshVar sound fresh).imp fun _ _ => .never _⟩
  | .oneOf span (first :: rest), bare => by
    unfold Surface.Pattern.Bare Surface.Pattern.BareAll at bare
    exact yields_choicePattern (yields_pattern first bare.1)
      (yields_alternativePatterns rest bare.2)
termination_by written => sizeOf written

theorem yields_elementPatterns : ∀ elements : List Surface.Pattern,
    Surface.Pattern.BareAll elements → YieldsElements elements
  | [], _ => by
    intro sound run
    unfold Check.elementPatterns at run
    obtain ⟨rfl, rfl, rfl⟩ := state_pure_eq_ok.mp run
    exact ⟨[], captured_nothing _, Yields.refl sound fun _ _ _ => .nil⟩
  | element :: rest, bare => by
    unfold Surface.Pattern.BareAll at bare
    exact yields_nextElement (yields_pattern element bare.1) (yields_elementPatterns rest bare.2)
termination_by elements => sizeOf elements

theorem yields_fieldPatterns : ∀ args : List Surface.Pattern,
    Surface.Pattern.BareAll args → YieldsFields args
  | [], _ => by
    intro length sound yields covers run
    obtain rfl := List.eq_nil_of_length_eq_zero length.symm
    unfold Check.fieldPatterns at run
    obtain ⟨rfl, rfl, rfl⟩ := state_pure_eq_ok.mp run
    refine ⟨Registry.grows_refl _, [], captured_nothing _, (yields.reorder ?_).imp
      fun _ holds => ⟨holds, .nil⟩⟩
    simp
  | arg :: args, bare => by
    unfold Surface.Pattern.BareAll at bare
    exact yields_nextField (yields_pattern arg bare.1) (yields_fieldPatterns args bare.2)
termination_by args => sizeOf args

theorem yields_alternativePatterns : ∀ alternatives : List Surface.Pattern,
    Surface.Pattern.BareAll alternatives → YieldsChoice alternatives
  | [], _ => by
    intro sound yields member among nodup run
    unfold Check.alternativePatterns at run
    obtain ⟨rfl, rfl⟩ := pure_eq_ok.mp run
    exact yields.imp fun _ holds => ⟨holds, .nil⟩
  | alternative :: rest, bare => by
    unfold Surface.Pattern.BareAll at bare
    exact yields_nextAlternative (yields_pattern alternative bare.1)
      (yields_alternativePatterns rest bare.2)
termination_by alternatives => sizeOf alternatives

end

end Patterns

end Session

end PolyCheck
