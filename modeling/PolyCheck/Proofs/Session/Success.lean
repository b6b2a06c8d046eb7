import PolyCheck.Proofs.Session.Expressions
import PolyCheck.Proofs.Subst.Images

/-! Checks that succeed because the types they compare have images in common. Such a check keeps the
images of the variables that are known, chooses those of the new ones, and reads nothing of the
declared types, so it runs in the same way over any tables that have no more constructors and
integers than some registry. Its steps can be put one after the other. -/
namespace PolyCheck.Session

open Run

def withTables (session : Session) (tables : Registry) : Session :=
  { session with registry := tables }

structure Succeeds {α : Type} (check : Check α) (widths : List Nat) (limit : Registry)
    (before after : Session) (images images' : TyVar → Ty) (value : α) : Prop where
  run : ∀ tables : Registry, (tables.providing widths).Below limit →
    check (before.withTables tables) = .ok value (after.withTables (tables.providing widths))
  registry : after.registry = before.registry.providing widths
  env : after.env = before.env
  options : after.options = before.options
  size_le : before.subst.size ≤ after.subst.size
  allows : after.subst.Allows images'
  same : ∀ v, v.index < before.subst.size → images' v = images v

variable {α β : Type} {check : Check α} {next : α → Check β} {value : α} {value' : β}
  {widths widths' : List Nat} {limit : Registry} {before middle after : Session}
  {images images' images'' : TyVar → Ty} {ty : Ty}

namespace Succeeds

theorem result (succeeds : Succeeds check widths limit before after images images' value)
    (below : (before.registry.providing widths).Below limit) : check before = .ok value after := by
  have run := succeeds.run before.registry below
  rw [← succeeds.registry] at run
  exact run

theorem below (succeeds : Succeeds check widths limit before after images images' value)
    (below : (before.registry.providing widths).Below limit) : after.registry.Below limit :=
  succeeds.registry ▸ below

theorem unique {images₁ images₂ : TyVar → Ty} {value₁ value₂ : α} {after₁ after₂ : Session}
    (first : Succeeds check widths limit before after₁ images images₁ value₁)
    (second : Succeeds check widths limit before after₂ images' images₂ value₂)
    (below : (before.registry.providing widths).Below limit) : value₁ = value₂ ∧ after₁ = after₂ :=
  EStateM.Result.ok.inj ((first.result below).symm.trans (second.result below))

theorem under_same (succeeds : Succeeds check widths limit before after images images' value)
    (plain : ty.FirstOrder before.subst.size) : ty.under images' = ty.under images :=
  plain.under_congr fun v inLeaves => succeeds.same v (plain.inside v inLeaves)

theorem pure (allows : before.subst.Allows images) (value : α) :
    Succeeds (pure value) [] limit before before images images value :=
  ⟨fun _ _ => rfl, rfl, rfl, rfl, Nat.le_refl _, allows, fun _ _ => rfl⟩

theorem bind (first : Succeeds check widths limit before middle images images' value)
    (second : Succeeds (next value) widths' limit middle after images' images'' value') :
    Succeeds (check >>= next) (widths ++ widths') limit before after images images'' value' where
  run tables below := by
    rw [Registry.providing_append] at below ⊢
    refine bind_eq_ok.mpr ⟨value, _, first.run tables ?_, second.run _ below⟩
    exact (Registry.below_providing _ widths').trans below
  registry := by rw [second.registry, first.registry, Registry.providing_append]
  env := second.env.trans first.env
  options := second.options.trans first.options
  size_le := Nat.le_trans first.size_le second.size_le
  allows := second.allows
  same v inside :=
    (second.same v (Nat.lt_of_lt_of_le inside first.size_le)).trans (first.same v inside)

theorem bind_plain (first : Succeeds check widths limit before middle images images' value)
    (second : Succeeds (next value) [] limit middle after images' images'' value') :
    Succeeds (check >>= next) widths limit before after images images'' value' := by
  have whole := first.bind second
  rwa [List.append_nil] at whole

theorem map (first : Succeeds check widths limit before after images images' value)
    (change : α → β) :
    Succeeds (check >>= fun found => Pure.pure (change found)) widths limit before after
      images images' (change value) :=
  first.bind_plain (pure first.allows (change value))

theorem get {next : Session → Check α} (reads : ∀ tables, next (before.withTables tables) = check)
    (rest : Succeeds check widths limit before after images images' value) :
    Succeeds (MonadState.get >>= next) widths limit before after images images' value where
  run tables below := by
    change next (before.withTables tables) (before.withTables tables) = _
    rw [reads]
    exact rest.run tables below
  registry := rest.registry
  env := rest.env
  options := rest.options
  size_le := rest.size_le
  allows := rest.allows
  same := rest.same

end Succeeds

section Steps

theorem onSubst_withTables {change : Subst → α × Subst}
    (run : Check.onSubst change before = .ok value after)
    (tables : Registry) : Check.onSubst change (before.withTables tables) = .ok value
    (after.withTables tables) := by
  obtain ⟨rfl, rfl⟩ := EStateM.Result.ok.inj run
  rfl

theorem succeeds_freshVar (limit : Registry) (allows : before.subst.Allows images)
    (sound : before.Sound) (ty : Ty) :
    ∃ after images', Succeeds Check.freshVar [] limit before after images images'
      (.var ⟨before.subst.size⟩) ∧ images' ⟨before.subst.size⟩ = ty := by
  refine ⟨{ before with subst := (before.subst.push .unbound).2 },
    fun v => if v.index < before.subst.size then images v else ty,
    ⟨fun _ _ => rfl, rfl, rfl, rfl, ?_, ?_, fun v inside => if_pos inside⟩,
      if_neg (Nat.lt_irrefl _)⟩
  · rw [Subst.size_push]
    exact Nat.le_succ _
  · exact allows.push sound.tame fun v inside => if_pos inside

theorem succeeds_mint (allows : before.subst.Allows images) (stem : String) :
    Succeeds (Check.mint stem) [] limit before
      { before with names := (before.names.mint stem).2 } images images
      (before.names.mint stem).1 :=
  ⟨fun _ _ => rfl, rfl, rfl, rfl, Nat.le_refl _, allows, fun _ _ => rfl⟩

theorem succeeds_intTy (allows : before.subst.Allows images) {width : Nat} {id : TemplateId}
    (known : limit.ints.get? width = some id) :
    Succeeds (Check.intTy width) [width] limit before
      { before with registry := (before.registry.intTemplate width).2 } images images
      (.named id) := by
  refine ⟨fun tables below => ?_, rfl, rfl, rfl, Nat.le_refl _, allows, fun _ _ => rfl⟩
  have found := below.ints (Registry.get?_intTemplate tables width)
  obtain rfl := Option.some.inj (known.symm.trans found)
  rfl

theorem succeeds_lookupCtor? (allows : before.subst.Allows images) {name : Name}
    (isValue : limit.ctors.get? name = none) :
    Succeeds (Check.lookupCtor? name) [] limit before before images images none := by
  refine ⟨fun tables below => ?_, rfl, rfl, rfl, Nat.le_refl _, allows, fun _ _ => rfl⟩
  have none : tables.ctors.get? name = none := below.ctors isValue
  change EStateM.Result.ok (tables.ctors.get? name) _ = _
  rw [none]
  rfl

theorem succeeds_unify (limit : Registry) (allows : before.subst.Allows images)
    (sound : before.Sound) {left right : Ty}
    (plain : left.FirstOrder before.subst.size) (plain' : right.FirstOrder before.subst.size)
    (equal : left.under images = right.under images) (span : Span) :
    ∃ after, Succeeds (Check.unify left right span) [] limit before after images images () := by
  obtain ⟨subst, result, allows'⟩ := allows.unify sound.tame plain plain' equal
  have unified := sound.tame.unified_of_unify plain plain' result
  refine ⟨{ before with subst }, fun tables _ => ?_, rfl, rfl, rfl, Nat.le_of_eq unified.size.symm,
    allows', fun _ _ => rfl⟩
  have kept : (before.withTables tables).subst = before.subst := rfl
  simp only [Check.unify, kept, result]
  rfl

theorem succeeds_against (limit : Registry) (allows : before.subst.Allows images)
    (sound : before.Sound) {expected : Ty}
    {term : Term} (plain : expected.FirstOrder before.subst.size)
    (plain' : term.ty.FirstOrder before.subst.size)
    (equal : expected.under images = term.ty.under images) (span : Span) :
    ∃ after, Succeeds (Check.against expected span term)
    [] limit before after images images term := by
  obtain ⟨after, succeeds⟩ := succeeds_unify limit allows sound plain plain' equal span
  exact ⟨after, succeeds.map fun _ => term⟩

theorem succeeds_instantiate (limit : Registry) (allows : before.subst.Allows images)
    (sound : before.Sound) {scheme : Scheme} (member : scheme ∈ before.env.schemes)
    (isInstance : (scheme.zonk before.subst).InstanceAt images ty) :
    ∃ after images' found, Succeeds (Check.onSubst scheme.instantiate) [] limit before after images
      images' found ∧ found.under images' = ty := by
  obtain ⟨images', allows', same, rfl⟩ :=
    allows.instantiate sound.tame (sound.env.plain scheme member) isInstance
  have run : Check.onSubst scheme.instantiate before = .ok (scheme.instantiate before.subst).1
      { before with subst := (scheme.instantiate before.subst).2 } := rfl
  have advance := (yields_instantiate sound member run).advance
  exact ⟨_, images', _, ⟨fun tables _ => onSubst_withTables run tables, rfl, rfl, rfl,
    advance.later.size_le, allows', same⟩, rfl⟩

theorem succeeds_ending (limit : Registry) (allows : before.subst.Allows images)
    {cause : ErrorCause}
    {ends : Session → Bool} {span : Span}
    (ended : ∀ tables, ends (before.withTables tables) = true) :
    Succeeds (Check.ending cause ends span) [] limit before before images images () where
  run tables _ := by
    rw [Check.ending_apply, ended]
    rfl
  registry := rfl
  env := rfl
  options := rfl
  size_le := Nat.le_refl _
  allows := allows
  same _ _ := rfl

theorem succeeds_openFlexible (limit : Registry) (allows : before.subst.Allows images)
    (sound : before.Sound) (plain : ty.FirstOrder before.subst.size) (span : Span) :
    ∃ opened, Succeeds (Check.openFlexible ty span) [] limit before before images images opened ∧
      opened.FirstOrder before.subst.size ∧ opened.under images = ty.under images := by
  have ends : before.subst.opens ty = true := sound.tame.opens_firstOrder plain
  obtain ⟨opened, after, run⟩ : ∃ opened after, Check.openFlexible ty span before =
      .ok opened after :=
    ⟨_, _, Check.ending_bind_eq_ok.mpr ⟨ends, rfl⟩⟩
  obtain ⟨rfl, plain', same⟩ := openFlexible_firstOrder sound plain run
  have change := (Check.ending_bind_eq_ok.mp run).2
  refine ⟨opened, ⟨fun tables _ => ?_, rfl, rfl, rfl, Nat.le_refl _, allows, fun _ _ => rfl⟩,
    plain', ?_⟩
  · exact Check.ending_bind_eq_ok.mpr ⟨ends, onSubst_withTables change tables⟩
  rw [← allows.under sound.tame plain', same, allows.under sound.tame plain]

theorem Succeeds.inScope {bindings : List (Name × Scheme)} {inside : Session}
    (succeeds : Succeeds check widths limit { before with env := before.env.enter bindings } inside
      images images' value) :
    Succeeds (Check.inScope bindings check) widths limit before
    { inside with env := before.env } images images' value where
  run tables below := by
    refine inScope_eq_ok.mpr ⟨_, succeeds.run tables below, ?_⟩
    have env : inside.env.pop.2 = before.env := by rw [succeeds.env, Env.pop_enter]
    rw [← env]
    rfl
  registry := succeeds.registry
  env := rfl
  options := succeeds.options
  size_le := succeeds.size_le
  allows := succeeds.allows
  same := succeeds.same

end Steps

end PolyCheck.Session
