import PolyCheck.Proofs.Session.Patterns

/-! Names as expressions. A constructor is a function of its fields, and any other name is an
instance of its scheme. -/
namespace PolyCheck.Session

open Run

variable {before middle after : Session} {types : List Ty} {claim : Claim} {term : Term}

/-- What checking an expression gives: a term that is well typed in every later state. -/
abbrev YieldsTerm (before after : Session) (term : Term) : Prop :=
  Yields before after [term.ty] fun final registry context =>
    Term.Typed final registry context (term.zonk final)

theorem yields_lit (sound : before.Sound) {value : Literal} {span : Span} {constant : Constant}
    {ty : Ty} (run : Check.literal value span before = .ok (constant, ty) after) :
    YieldsTerm before after (.lit constant ty) := by
  refine (yields_literal sound run).imp fun _ both => ?_
  obtain ⟨fits, same⟩ := both
  rw [Term.zonk, same]
  cases constant with
  | bool value => exact .bool fits value
  | int width value => exact .int fits.1 fits.2
  | str bytes => exact .str fits bytes

section Constructors

variable {info : CtorInfo} {dataCase : DataCase} {args : List Ty} {final : Subst}
  {registry : Registry} {context : Context}

theorem Outlook.typed_applied (outlook : Outlook before after types final registry context)
    (sound : after.Sound) (atNew : AtNew after.registry info dataCase args)
    (plain : (Ty.nominal info.template args).FirstOrder after.subst.size)
    (nonempty : info.arity ≠ 0)
    (plainFields : ∀ field ∈ after.registry.fieldsAt info.template info.index args,
      field.FirstOrder after.subst.size)
    {context' : Context} {arg : Term} (typed : Term.Typed final registry context' (arg.zonk final))
    (fields : final.zonk arg.ty =
      final.zonk (.tupled (after.registry.fieldsAt info.template info.index args))) :
    Term.Typed final registry context'
      ((Term.ctor info.name info.template info.index (some arg)
        (.nominal info.template args)).zonk final) := by
  obtain ⟨declares, resolved, same⟩ := outlook.fieldsAt sound atNew plain
  rw [Term.zonk, Term.zonkOption, resolved, ← atNew.name]
  refine .ctor declares (fun empty => nonempty ?_) (resolved ▸ outlook.resolved plain) typed ?_
  · rw [atNew.arity, empty, List.length_nil]
  · rw [Term.ty_zonk, fields, same]
    exact outlook.tame.zonk_tupled fun field member =>
      (plainFields field member).mono outlook.later.size_le

theorem typed_param {param : Name} {ty : Ty} (named : param.Apart) (resolved : final.Resolved ty) :
    Term.Typed final registry (context.extend [(param, .mono ty)]) (.var param ty) := by
  have known : context.extend [(param, .mono ty)] param = some (.mono ty) := by
    simp [Context.extend]
  refine .var named known resolved ⟨.var, fun _ _ => rfl, ?_⟩ resolved
  exact resolved.1.under_var.symm

theorem yields_ctorValue (sound : before.Sound) (registers : before.registry.Registers info)
    (run : Check.ctorValue info before = .ok term after) : YieldsTerm before after term := by
  obtain ⟨⟨fields, result⟩, middle, ctor, rest⟩ := bind_eq_ok.mp run
  obtain ⟨dataCase, args, atNew, rfl, rfl, yields, covers⟩ :=
    yields_ctorInstance sound registers ctor
  have plain := yields.plain _ List.mem_cons_self
  dsimp only at rest
  split at rest
  · rename_i empty
    obtain ⟨rfl, rfl⟩ := pure_eq_ok.mp rest
    refine yields.imp fun outlook _ => ?_
    obtain ⟨declares, resolved, -⟩ := outlook.fieldsAt yields.advance.sound atNew plain
    rw [Term.zonk, Term.zonkOption, resolved, ← atNew.name]
    refine .constant declares (List.eq_nil_of_length_eq_zero ?_) (resolved ▸ outlook.resolved plain)
    rw [← atNew.arity, empty]
  · rename_i nonempty
    obtain ⟨param, last, mint, finish⟩ := bind_eq_ok.mp rest
    obtain ⟨rfl, rfl⟩ := pure_eq_ok.mp finish
    obtain ⟨rfl, -, minted⟩ := yields_mint yields.advance.sound mint
    obtain ⟨-, rfl⟩ := EStateM.Result.ok.inj mint
    have tame := yields.advance.sound.tame
    have fields := tame.covers_tupled covers
    have both := (yields.seq minted sound).narrow
      (List.forall_mem_singleton.mpr (tame.covers_arrow fields (yields.covers List.mem_cons_self)))
      fun _ _ => trivial
    refine both.imp fun {final registry context} outlook _ => ?_
    have size := outlook.later.size_le
    have named : Name.Apart (middle.names.mint "c").1 :=
      NameSupply.apart_mint _ (by decide) (by decide)
    have argument := @typed_param final registry context _ _ named (outlook.resolved fields.1)
    rw [← Term.zonk] at argument
    have body := outlook.typed_applied minted.advance.sound atNew plain nonempty
      (fun field member => (covers field member).1) argument rfl
    rw [Term.zonk, outlook.tame.zonk_arrow (fields.1.mono size) (plain.mono size)]
    have lambda := Term.Typed.lambda named (outlook.resolved fields.1) body
    rwa [Term.ty_zonk] at lambda

end Constructors

theorem yields_variable (sound : before.Sound) {name : Name} (written : name.isMinted = false)
    {scheme : Scheme} (found : before.env.lookup? name = some scheme) {ty opened : Ty} {span : Span}
    (run : Check.onSubst scheme.instantiate before = .ok ty middle)
    (opening : Check.openFlexible ty span middle = .ok opened after) :
    YieldsTerm before after (.var name opened) := by
  have member := Env.mem_schemes_of_lookup? found
  have yields := yields_instantiate sound member run
  obtain ⟨rfl, plain, same⟩ := openFlexible_firstOrder yields.advance.sound
    (yields.plain ty List.mem_cons_self) opening
  refine yields.narrow (List.forall_mem_singleton.mpr ⟨plain, fun v inside =>
    ⟨ty, List.mem_cons_self, same ▸ inside⟩⟩) fun {final registry context} outlook instance_ => ?_
  have equal : final.zonk opened = final.zonk ty := by
    rw [← outlook.later.resolved plain, same,
      outlook.later.resolved (yields.plain ty List.mem_cons_self)]
  have env := yields.advance.env
  have plainScheme := yields.advance.sound.env.plain scheme (env ▸ member)
  rw [Term.zonk]
  refine .var (Name.apart_of_not_minted written) (outlook.context (env ▸ found))
    (outlook.resolved plainScheme) ?_ (outlook.resolved plain)
  rw [equal]
  exact instance_

theorem yields_identifier (sound : before.Sound) {name : Name} (written : name.isMinted = false)
    {span : Span} (run : Check.identifier name span before = .ok term after) :
    YieldsTerm before after term := by
  obtain ⟨known, middle, look, rest⟩ := bind_eq_ok.mp run
  obtain ⟨rfl, rfl⟩ := lookupCtor?_eq_ok look
  cases ctor : middle.registry.ctors.get? name with
  | some info =>
    rw [ctor] at rest
    exact yields_ctorValue sound (sound.registry.ctor ctor).2 rest
  | none =>
    simp only [ctor] at rest
    obtain ⟨session, middle', read, rest'⟩ := bind_eq_ok.mp rest
    obtain ⟨rfl, rfl⟩ := EStateM.Result.ok.inj read
    cases found : middle.env.lookup? name with
    | none => simp [found, Check.fail, throw_apply] at rest'
    | some scheme =>
      simp only [found] at rest'
      obtain ⟨-, opens⟩ := Check.ending_bind_eq_ok.mp rest'
      obtain ⟨ty, next, instance_, opening⟩ := bind_eq_ok.mp opens
      obtain ⟨opened, last, opened_, finish⟩ := bind_eq_ok.mp opening
      obtain ⟨rfl, rfl⟩ := pure_eq_ok.mp finish
      exact yields_variable sound written found instance_ opened_

end PolyCheck.Session
