import PolyCheck.Proofs.Session.Success

/-! Whatever has a type by the rules is inferred. The rules choose the types of all names and parts
at once; the check meets these choices one after the other, as images of the variables that it makes
up. The images stay possible through every step, so no comparison fails. -/
namespace PolyCheck.Session

open Run

variable {before middle after : Session} {images images' : TyVar → Ty} {context : Context}
  {limit : Registry} {ty : Ty} {types : List Ty} {claim : Claim}

section Names

def Serves (subst : Subst) (images : TyVar → Ty) (scheme known : Scheme) : Prop :=
  ∀ ty, ty.Monotype → scheme.Instance ty → (known.zonk subst).InstanceAt images ty

/-- A session that allows images under which its names are at least as general as in the rules. -/
structure Reads (session : Session) (images : TyVar → Ty) (context : Context) : Prop where
  allows : session.subst.Allows images
  monotypes : context.Monotypes
  names : context.Within (Serves session.subst images) session.env.lookup?

theorem Reads.later (reads : before.Reads images context) (sound : before.Sound)
    (advance : before.Advance after) (allows : after.subst.Allows images')
    (same : ∀ v, v.index < before.subst.size → images' v = images v) :
      after.Reads images' context where
  allows := allows
  monotypes := reads.monotypes
  names name scheme found := by
    obtain ⟨known, lookup, serves⟩ := reads.names name scheme found
    have member := Env.mem_schemes_of_lookup? lookup
    refine ⟨known, advance.env ▸ lookup, fun ty plain isInstance => ?_⟩
    refine allows.instance_later sound.tame advance.sound.tame advance.later same
      (sound.env.plain known member) (fun v inVars => ?_) (serves ty plain isInstance)
    exact advance.spares v (sound.env.dead known member v inVars)

theorem Reads.enter {bindings bindings' : List (Name × Scheme)}
    (reads : before.Reads images context) (plain : ∀ binding ∈ bindings, binding.2.ty.Monotype)
    (each : List.Forall₂ (fun binding binding' => binding.1 = binding'.1 ∧
      Serves before.subst images binding.2 binding'.2) bindings bindings') :
    Reads { before with env := before.env.enter bindings' } images (context.extend bindings) where
  allows := reads.allows
  monotypes := reads.monotypes.extend plain
  names := by
    have lookup : (before.env.enter bindings').lookup? = Context.extend before.env.lookup?
        bindings' :=
      funext (Env.lookup?_enter before.env bindings')
    change context.extend bindings |>.Within _ (before.env.enter bindings').lookup?
    rw [lookup]
    exact reads.names.extend each

theorem Reads.enter_mono (reads : before.Reads images context) (sound : before.Sound) (name : Name)
    {param : Ty} (plain : ty.Monotype) (plain' : param.FirstOrder before.subst.size)
    (image : param.under images = ty) :
    Reads { before with env := before.env.enter [(name, .mono param)] } images
      (context.extend [(name, .mono ty)]) := by
  refine reads.enter (List.forall_mem_singleton.mpr plain)
    (.cons ⟨rfl, fun other _ isInstance => ?_⟩ .nil)
  obtain ⟨_, firstOrder⟩ := plain
  have found := Scheme.eq_of_instanceAt_mono isInstance
  rw [firstOrder.under_var] at found
  rw [found, ← image, ← reads.allows.under sound.tame plain']
  exact Scheme.instanceAt_mono images _

theorem Reads.enter_minted (reads : before.Reads images context) (sound : before.Sound)
    {name : Name} (minted : ¬ before.names.Past "a" name) (scheme : Scheme) :
    Reads { before with env := before.env.enter [(name, scheme)] } images context where
  allows := reads.allows
  monotypes := reads.monotypes
  names other known found := by
    obtain ⟨scheme', lookup, serves⟩ := reads.names other known found
    refine ⟨scheme', ?_, serves⟩
    have different : other ≠ name := fun same => minted (same ▸ sound.names lookup)
    rw [Env.lookup?_enter]
    simp [List.lookup, beq_false_of_ne different, lookup]

theorem succeeds_appliedCtor? (allows : before.subst.Allows images) {width : Nat}
    {func : Surface.Expr} (typed : Surface.HasType limit width context func ty) :
    Succeeds (Check.appliedCtor? func) [] limit before before images images none := by
  cases func with
  | ident span name =>
    cases typed with
    | ident _ isValue _ _ _ => exact succeeds_lookupCtor? allows isValue
  | _ => exact .pure allows none

end Names

section Expressions

def Infers (expr : Surface.Expr) : Prop :=
  ∀ {before : Session} {images : TyVar → Ty} {context : Context} {limit : Registry} {ty : Ty},
    before.Sound → before.Reads images context →
    (before.registry.providing (expr.widths before.options.defaultIntWidth)).Below limit →
    Surface.HasType limit before.options.defaultIntWidth context expr ty →
    ∃ term after images',
      Succeeds (Check.infer expr) (expr.widths before.options.defaultIntWidth) limit
      before after images images' term ∧ term.ty.under images' = ty

theorem Infers.yields {expr : Surface.Expr} (infers : Infers expr) (bare : expr.Bare)
    (sound : before.Sound) (reads : before.Reads images context)
    (below : (before.registry.providing (expr.widths before.options.defaultIntWidth)).Below limit)
    (typed : Surface.HasType limit before.options.defaultIntWidth context expr ty) :
    ∃ term after images',
      Succeeds (Check.infer expr) (expr.widths before.options.defaultIntWidth) limit
      before after images images' term ∧ YieldsTerm before after term ∧
        term.ty.under images' = ty := by
  obtain ⟨term, after, images', succeeds, same⟩ := infers sound reads below typed
  exact ⟨term, after, images', succeeds, yields_infer expr bare sound (succeeds.result below), same⟩

theorem infers_lit (span : Span) (value : Literal) : Infers (.lit span value) := by
  intro before images context limit ty sound reads below typed
  unfold Check.infer
  cases typed with
  | bool _ value =>
    unfold Surface.Expr.widths
    exact ⟨_, before, images,
      (Succeeds.pure reads.allows (Constant.bool value, Registry.boolTy)).map _, rfl⟩
  | @str _ _ raw bytes valid =>
    unfold Surface.Expr.widths
    have literal : Check.literal (.str raw) span = pure (.str bytes, Registry.stringTy) := by
      rw [Check.literal, valid]
    rw [literal]
    exact ⟨_, before, images,
      (Succeeds.pure reads.allows (Constant.str bytes, Registry.stringTy)).map _, rfl⟩
  | @int _ _ magnitude suffix value id valid known =>
    unfold Surface.Expr.widths
    have number := (succeeds_intTy reads.allows known).map fun ty =>
      (Constant.int (suffix.getD before.options.defaultIntWidth) value, ty)
    have literal : Succeeds (Check.literal (.int magnitude suffix) span) _ limit _ _ _ _ _ :=
      number.get fun tables => by simp only [withTables, valid]
    exact ⟨_, _, images, literal.map _, rfl⟩

theorem infers_ident (span : Span) (name : Name) : Infers (.ident span name) := by
  intro before images context limit ty sound reads below typed
  cases typed with
  | @ident _ _ _ scheme _ isValue known isInstance plain =>
    obtain ⟨found, lookup, serves⟩ := reads.names name scheme known
    have member := Env.mem_schemes_of_lookup? lookup
    obtain ⟨middle, images', instanceTy, instantiate, same⟩ :=
      succeeds_instantiate limit reads.allows sound member (serves ty plain isInstance)
    have yields := yields_instantiate sound member (instantiate.result below)
    obtain ⟨opened, opens, -, same'⟩ := succeeds_openFlexible limit instantiate.allows
      yields.advance.sound (yields.plain _ List.mem_cons_self) span
    have resolves : (before.subst.zonk? found.ty).isSome = true := by
      rw [sound.tame.zonk?_eq (sound.env.plain found member)]
      rfl
    have found' : Succeeds (do
        Check.ending .endless (fun session => (session.subst.zonk? found.ty).isSome) span
        let ty ← Check.onSubst found.instantiate
        let ty ← Check.openFlexible ty span
        pure (Term.var name ty)) [] limit before middle images images' (.var name opened) :=
      (succeeds_ending limit reads.allows fun _ => resolves).bind
        (instantiate.bind (opens.map (Term.var name)))
    unfold Check.infer Check.identifier Surface.Expr.widths
    refine ⟨.var name opened, middle, images', (succeeds_lookupCtor? reads.allows isValue).bind ?_,
      same'.trans same⟩
    exact found'.get fun tables => by simp only [withTables, lookup]

theorem infers_app (span : Span) {func arg : Surface.Expr} (bareFunc : func.Bare)
    (bareArg : arg.Bare)
    (function : Infers func) (argument : Infers arg) : Infers (.app span func arg) := by
  intro before images context limit ty sound reads below typed
  cases typed with
  | @app _ _ _ _ param _ typedFunc typedArg =>
    unfold Surface.Expr.widths at below ⊢
    rw [Registry.providing_append] at below
    obtain ⟨func', middle, images', runFunc, yieldsFunc, sameFunc⟩ :=
      function.yields bareFunc sound reads ((Registry.below_providing _ _).trans below) typedFunc
    obtain ⟨opened, opens, plainOpened, sameOpened⟩ := succeeds_openFlexible limit runFunc.allows
      yieldsFunc.advance.sound (yieldsFunc.plain _ List.mem_cons_self) span
    have below' := below
    rw [← runFunc.registry] at below'
    rw [← runFunc.options] at below' typedArg
    obtain ⟨arg', next, images'', runArg, yieldsArg, sameArg⟩ :=
      argument.yields bareArg yieldsFunc.advance.sound
        (reads.later sound yieldsFunc.advance runFunc.allows runFunc.same) below' typedArg
    rw [runFunc.options] at runArg below'
    obtain ⟨last, final, fresh, image⟩ :=
      succeeds_freshVar limit runArg.allows yieldsArg.advance.sound ty
    have yieldsFresh := yields_freshVar yieldsArg.advance.sound (fresh.result (runArg.below below'))
    have plainFunc := plainOpened.mono yieldsArg.advance.later.size_le
    have plainArg := yieldsArg.plain _ List.mem_cons_self
    have size := yieldsFresh.advance.later.size_le
    obtain ⟨final', unify⟩ := succeeds_unify limit fresh.allows yieldsFresh.advance.sound
      (plainFunc.mono size)
      (.arrow (plainArg.mono size) (yieldsFresh.plain _ List.mem_cons_self)) (by
        rw [fresh.under_same plainFunc, runArg.under_same plainOpened, sameOpened, sameFunc,
          Ty.under, fresh.under_same plainArg, sameArg, Ty.under, image]) span
    unfold Check.infer
    refine ⟨.app func' arg' (.var ⟨next.subst.size⟩), final', final, ?_, image⟩
    exact (succeeds_appliedCtor? reads.allows typedFunc).bind (runFunc.bind (opens.bind
      (runArg.bind_plain
        (fresh.bind (unify.map fun _ => Term.app func' arg' (.var ⟨next.subst.size⟩))))))

def InfersAll (exprs : List Surface.Expr) : Prop :=
  ∀ {before : Session} {images : TyVar → Ty} {context : Context} {limit : Registry}
    {types : List Ty}, before.Sound → before.Reads images context →
    (before.registry.providing (Surface.Expr.widthsAll before.options.defaultIntWidth exprs)).Below
      limit →
    Surface.HaveTypes limit before.options.defaultIntWidth context exprs types →
    ∃ terms after images', Succeeds (Check.inferAll exprs)
      (Surface.Expr.widthsAll before.options.defaultIntWidth exprs) limit before after
        images images'
      terms ∧ terms.map (fun term => term.ty.under images') = types

theorem infersAll_nil : InfersAll [] := by
  intro before images context limit types sound reads below typed
  cases typed
  unfold Check.inferAll Surface.Expr.widthsAll
  exact ⟨[], before, images, .pure reads.allows [], rfl⟩

theorem infersAll_cons {expr : Surface.Expr} {exprs : List Surface.Expr} (bare : expr.Bare)
    (first : Infers expr) (rest : InfersAll exprs) : InfersAll (expr :: exprs) := by
  intro before images context limit types sound reads below typed
  cases typed with
  | cons typed typedRest =>
    unfold Surface.Expr.widthsAll at below ⊢
    rw [Registry.providing_append] at below
    obtain ⟨term, middle, images', run, yields, same⟩ :=
      first.yields bare sound reads ((Registry.below_providing _ _).trans below) typed
    rw [← run.registry, ← run.options] at below
    rw [← run.options] at typedRest
    obtain ⟨terms, after, images'', run', same'⟩ := rest yields.advance.sound
      (reads.later sound yields.advance run.allows run.same) below typedRest
    rw [run.options] at run'
    unfold Check.inferAll
    refine ⟨term :: terms, after, images'', run.bind (run'.map fun terms => term :: terms), ?_⟩
    rw [List.map_cons, same', run'.under_same (yields.plain _ List.mem_cons_self), same]

theorem infers_tuple (span : Span) {elements : List Surface.Expr} (each : InfersAll elements) :
    Infers (.tuple span elements) := by
  intro before images context limit ty sound reads below typed
  cases typed with
  | tuple _ many typed =>
    unfold Surface.Expr.widths at below ⊢
    obtain ⟨terms, after, images', run, rfl⟩ := each sound reads below typed
    have whole := run.map fun elems => Term.tuple elems (.tuple (elems.map Term.ty))
    refine ⟨.tuple terms (.tuple (terms.map Term.ty)), after, images', ?_, ?_⟩
    · match elements, many with
      | [], _ =>
        unfold Check.infer
        exact whole
      | _ :: _ :: _, _ =>
        unfold Check.infer
        exact whole
    · rw [Term.ty, Ty.under, Ty.underAll_eq_map, List.map_map]
      rfl

theorem succeeds_body (sound : before.Sound) {param : Name} {paramTy result : Ty}
    (yields : Yields before middle [paramTy, result] claim) (past : middle.names.Past "a" param)
    (reads : Reads { middle with env := middle.env.enter [(param, .mono paramTy)] } images context)
    {body : Surface.Expr} (bare : body.Bare) (here : Infers body)
    (below : (middle.registry.providing (body.widths middle.options.defaultIntWidth)).Below limit)
    (typed : Surface.HasType limit middle.options.defaultIntWidth context body ty)
    (image : result.under images = ty) (span : Span) :
    ∃ term after images', Succeeds (Check.inScope [(param, .mono paramTy)]
      (Check.infer body >>= Check.against result span)) (body.widths middle.options.defaultIntWidth)
      limit middle after images images' term := by
  have opens : MayEnter before middle [paramTy, result] (Scheme.monos [(param, paramTy)]) :=
    yields.opens_monos (List.forall_mem_singleton.mpr List.mem_cons_self)
      (List.forall_mem_singleton.mpr past)
  obtain ⟨term, inside, images', run, yields', same⟩ :=
    here.yields bare (opens.sound sound yields) reads below typed
  have plain := yields.plain result (List.mem_cons_of_mem _ List.mem_cons_self)
  obtain ⟨after, against⟩ := succeeds_against limit run.allows yields'.advance.sound
    (plain.mono yields'.advance.later.size_le) (yields'.plain _ List.mem_cons_self)
    ((run.under_same plain).trans (image.trans same.symm)) span
  exact ⟨term, _, images', (run.bind_plain against).inScope⟩

theorem succeeds_freshPair (allows : before.subst.Allows images) (sound : before.Sound)
    (below : before.registry.Below limit) (param result : Ty) :
    ∃ middle after images₁ images₂ fst snd,
      Succeeds Check.freshVar [] limit before middle images images₁ fst ∧
      Succeeds Check.freshVar [] limit middle after images₁ images₂ snd ∧
      (Yields before after [fst, snd] fun _ _ _ => True) ∧ fst.under images₂ = param ∧
      snd.under images₂ = result := by
  obtain ⟨middle, images₁, fresh, image⟩ := succeeds_freshVar limit allows sound param
  have yields := yields_freshVar sound (fresh.result below)
  obtain ⟨after, images₂, fresh', image'⟩ :=
    succeeds_freshVar limit fresh.allows yields.advance.sound result
  refine ⟨middle, after, images₁, images₂, _, _, fresh, fresh',
    yields_freshPair sound (fresh.result below) (fresh'.result (fresh.below below)), ?_, image'⟩
  rw [fresh'.under_same (yields.plain _ List.mem_cons_self)]
  exact image

theorem succeeds_plainParam? (sound : before.Sound) (reads : before.Reads images context)
    {width : Nat} {span caseSpan : Span} {written : Surface.Pattern} {body : Surface.Expr}
    {param result paramTy : Ty}
    (typed : Surface.HasType limit width context (.lambda span [⟨caseSpan, written, body⟩])
      (.arrow param result))
    (plain : paramTy.FirstOrder before.subst.size) (image : paramTy.under images = param) :
    ∃ name after context', Succeeds (Check.plainParam? written) [] limit before after images images
      (some name) ∧ Reads { after with env := after.env.enter [(name, .mono paramTy)] }
        images context' ∧
      Surface.HasType limit width context' body result := by
  cases typed with
  | wild _ _ patternSpan _ typed =>
    have minted : Reads { before with
        env := before.env.enter [((before.names.mint "a").1, .mono paramTy)] } images context :=
      reads.enter_minted sound (fun past => past before.names.next (Nat.le_refl _) rfl) _
    refine ⟨(before.names.mint "a").1, { before with names := (before.names.mint "a").2 },
      context, ?_, ⟨minted.allows, minted.monotypes, minted.names⟩, typed⟩
    unfold Check.plainParam?
    rw [map_eq_pure_bind]
    exact (succeeds_mint reads.allows "a").map some
  | bind _ _ patternSpan isValue plainParam typed =>
    refine ⟨_, before, _, ?_, reads.enter_mono sound _ plainParam plain image, typed⟩
    unfold Check.plainParam?
    exact (succeeds_lookupCtor? reads.allows isValue).bind (.pure reads.allows _)

theorem infers_lambda (span caseSpan : Span) {written : Surface.Pattern} {body : Surface.Expr}
    (barePattern : written.Bare) (bare : body.Bare) (here : Infers body) :
    Infers (.lambda span [⟨caseSpan, written, body⟩]) := by
  intro before images context limit ty sound reads below typed
  unfold Surface.Expr.widths Surface.Expr.widthsCases Surface.Expr.widthsCases at below ⊢
  rw [List.append_nil] at below ⊢
  obtain ⟨param, result, rfl⟩ : ∃ param result, ty = .arrow param result := by
    cases typed <;> exact ⟨_, _, rfl⟩
  have start := (Registry.below_providing _ _).trans below
  obtain ⟨middle, next, images₁, images₂, fst, snd, fresh, fresh', yields, image, image'⟩ :=
    succeeds_freshPair reads.allows sound start param result
  have same : ∀ v, v.index < before.subst.size → images₂ v = images v := fun v inside =>
    (fresh'.same v (Nat.lt_of_lt_of_le inside fresh.size_le)).trans (fresh.same v inside)
  obtain ⟨name, last, context', plain, reads', typedBody⟩ :=
    succeeds_plainParam? yields.advance.sound
    (reads.later sound yields.advance fresh'.allows same) typed
      (yields.plain _ List.mem_cons_self) image
  have registry : last.registry = before.registry := by
    rw [plain.registry, fresh'.registry, fresh.registry]
    rfl
  have options : last.options = before.options := by
    rw [plain.options, fresh'.options, fresh.options]
  obtain ⟨plainYields, names⟩ := plainParam?_eq_ok barePattern yields.advance.sound
    (plain.result (fresh'.below (fresh.below start)))
  rw [← registry, ← options] at below
  rw [← options] at typedBody ⊢
  obtain ⟨term, after, images₃, run⟩ := succeeds_body sound
    ((yields.seq plainYields sound).imp fun _ _ => trivial) (names name rfl).2 reads'
      bare here below
    typedBody image' body.span
  unfold Check.infer
  refine ⟨.lambda name fst term (.arrow fst snd), after, images₃, fresh.bind (fresh'.bind
    (plain.bind (run.map fun term => Term.lambda name fst term (.arrow fst snd)))), ?_⟩
  have size := plain.size_le
  rw [Term.ty, Ty.under, run.under_same ((yields.plain fst (by simp)).mono size),
    run.under_same ((yields.plain snd (by simp)).mono size), image, image']

end Expressions

end PolyCheck.Session
