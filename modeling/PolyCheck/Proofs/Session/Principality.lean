import PolyCheck.Proofs.Session.Completeness
import PolyCheck.Proofs.Session.Soundness

/-! Inferred types are the most general ones. The value of a binding is inferred once, but the
images under which this succeeds give every type that the value has; what they disagree on is not
live, so it is generalized. With groups the argument covers all expressions of the rules. -/
namespace PolyCheck.Session

open Run

variable {before middle after : Session} {images images' : TyVar → Ty} {context : Context}
  {limit : Registry} {ty : Ty} {bindings : List Surface.Binding}

section Values

/-- The values of a group are inferred at any types that they have, for types that stand for
these. -/
def InfersValues (bindings : List Surface.Binding) : Prop :=
  ∀ {start before : Session} {base images : TyVar → Ty} {context : Context} {limit : Registry}
    {types expected wanted : List Ty} {claim : Claim},
    start.Sound → start.Reads base context → Yields start before types claim →
    before.subst.Allows images → (∀ v, v.index < start.subst.size → images v = base v) →
    (∀ ty ∈ expected, ty ∈ types) → expected.map (·.under images) = wanted →
    (before.registry.providing
      (Surface.Expr.widthsBindings before.options.defaultIntWidth bindings)).Below limit →
    List.Forall₂ (fun binding ty => Surface.HasType limit before.options.defaultIntWidth context
      binding.value ty) bindings wanted →
    ∃ terms after images', Succeeds (Check.inferValues expected bindings)
      (Surface.Expr.widthsBindings before.options.defaultIntWidth bindings) limit before
        after images
      images' terms

theorem infersValues_nil : InfersValues [] := by
  intro start before base images context limit types expected wanted claim _ _ _ allows _ _
    same _ typed
  cases typed
  obtain rfl := List.map_eq_nil_iff.mp same
  unfold Check.inferValues Surface.Expr.widthsBindings
  exact ⟨[], before, images, .pure allows []⟩

theorem infersValues_cons (span : Span) (name : Name) (type : Option Surface.TypeExpr)
    {value : Surface.Expr} (bare : value.Bare) (first : Infers value)
    (rest : InfersValues bindings) :
    InfersValues (⟨span, name, type, value⟩ :: bindings) := by
  intro start before base images context limit types expected wanted claim sound reads yields allows
    agree inTypes same below typed
  cases typed with
  | cons typed typedRest =>
    obtain ⟨ty, others, rfl, image, images_eq⟩ := List.map_eq_cons_iff.mp same
    obtain ⟨inType, inTypes⟩ := List.forall_mem_cons.mp inTypes
    unfold Surface.Expr.widthsBindings at below ⊢
    rw [Registry.providing_append] at below
    obtain ⟨term, middle, images', run, here, same'⟩ := first.yields bare yields.advance.sound
      (reads.later sound yields.advance allows agree)
        ((Registry.below_providing _ _).trans below) typed
    have plain := yields.plain ty inType
    obtain ⟨next, unify⟩ := succeeds_unify limit run.allows here.advance.sound
      (plain.mono run.size_le) (here.plain _ List.mem_cons_self)
      ((run.under_same plain).trans (image.trans same'.symm)) value.span
    have registry : next.registry = middle.registry := unify.registry
    have options : next.options = before.options := unify.options.trans run.options
    rw [← run.registry, ← registry, ← options] at below
    rw [← options] at typedRest
    have one := yields.against sound here (yields.covers inType)
      (unify.result (registry ▸ (Registry.below_providing _ _).trans below))
    have images_eq' : others.map (·.under images') = _ :=
      (List.map_congr_left fun other member =>
        run.under_same (yields.plain other (inTypes other member))).trans images_eq
    have agree' : ∀ v, v.index < start.subst.size → images' v = base v := fun v inside =>
      (run.same v (Nat.lt_of_lt_of_le inside yields.advance.later.size_le)).trans (agree v inside)
    obtain ⟨terms, after, images'', run'⟩ :=
      rest sound reads one unify.allows agree' inTypes images_eq' below typedRest
    rw [options] at run'
    unfold Check.inferValues
    exact ⟨term :: terms, after, images'', run.bind ((unify.map fun _ => term).bind
      (run'.map fun terms => term :: terms))⟩

theorem succeeds_distinctBindings (allows : before.subst.Allows images) {seen : List Name}
    (distinct : (bindings.map (·.name)).Nodup)
    (unseen : ∀ binding ∈ bindings, binding.name ∉ seen) :
    Succeeds (Check.distinctBindings seen bindings) [] limit before before images images () := by
  induction bindings generalizing seen with
  | nil => exact .pure allows ()
  | cons binding bindings ih =>
    rw [List.map_cons, List.nodup_cons] at distinct
    obtain ⟨new, others⟩ := List.forall_mem_cons.mp unseen
    rw [Check.distinctBindings, if_neg (by simpa using new)]
    refine ih distinct.2 fun other member inSeen => ?_
    rcases List.mem_cons.mp inSeen with same | old
    · exact distinct.1 (same ▸ List.mem_map_of_mem member)
    · exact others other member old

theorem succeeds_placeholders (sound : before.Sound) (allows : before.subst.Allows images)
    (below : before.registry.Below limit) (bare : ∀ binding ∈ bindings, binding.type = none)
    {wanted : List Ty} (length : bindings.length = wanted.length) :
    ∃ placeholders after images', Succeeds (bindings.mapM Check.placeholder)
    [] limit before after images
      images' placeholders ∧ (placeholders.map (·.1)).map (·.under images') = wanted := by
  induction bindings generalizing before images wanted with
  | nil =>
    obtain rfl := List.eq_nil_of_length_eq_zero length.symm
    exact ⟨[], before, images, .pure allows [], rfl⟩
  | cons binding bindings ih =>
    obtain ⟨ty, wanted, rfl⟩ := List.exists_cons_of_length_eq_add_one length.symm
    obtain ⟨none, others⟩ := List.forall_mem_cons.mp bare
    obtain ⟨middle, images₁, fresh, image⟩ := succeeds_freshVar limit allows sound ty
    have yields := yields_freshVar sound (fresh.result below)
    obtain ⟨placeholders, after, images₂, rest, same⟩ := ih yields.advance.sound fresh.allows
      (fresh.below below) others (Nat.succ.inj length)
    have first : Succeeds (Check.placeholder binding) [] limit before middle images images₁
        (.var ⟨before.subst.size⟩, []) := by
      rw [Check.placeholder, none]
      exact fresh.map fun ty => (ty, [])
    rw [List.mapM_cons]
    refine ⟨_, after, images₂, first.bind (rest.map fun others => _ :: others), ?_⟩
    rw [List.map_cons, List.map_cons, same, rest.under_same (yields.plain _ List.mem_cons_self)]
    exact congrArg (· :: wanted) image

theorem eq_of_mem_zip {α β γ : Type} {items : List α} {items' : List β} {f : α → γ} {g : β → γ}
    (same : items.map f = items'.map g) {pair : α × β} (member : pair ∈ items.zip items') :
    f pair.1 = g pair.2 := by
  induction items generalizing items' with
  | nil => cases member
  | cons item items ih =>
    cases items' with
    | nil => cases member
    | cons item' items' =>
      obtain ⟨here, others⟩ := List.cons.inj same
      rcases List.mem_cons.mp member with rfl | member
      · exact here
      · exact ih others member

/-- A run of the values of a group at new variables for its names. Along the images at its end these
stand for the wanted types. -/
structure RunsValues (bindings : List Surface.Binding) (limit : Registry) (before after : Session)
    (images images' : TyVar → Ty) (placeholders : List (Ty × List TyVar)) (terms : List Term)
    (wanted : List Ty) : Prop where
  run : ∃ middle images₁,
    Succeeds (bindings.mapM Check.placeholder) [] limit before middle images images₁ placeholders ∧
    Succeeds (Check.inferValues (placeholders.map (·.1)) bindings)
      (Surface.Expr.widthsBindings before.options.defaultIntWidth bindings) limit middle
        after images₁
      images' terms
  image : (placeholders.map (·.1)).map (·.under images') = wanted

theorem runs_values (sound : before.Sound) (reads : before.Reads images context)
    (bare : ∀ binding ∈ bindings, binding.type = none) (each : InfersValues bindings)
    (below : (before.registry.providing
      (Surface.Expr.widthsBindings before.options.defaultIntWidth bindings)).Below limit)
    {wanted : List Ty} (typed : List.Forall₂ (fun binding ty => Surface.HasType limit
      before.options.defaultIntWidth context binding.value ty) bindings wanted) :
    ∃ placeholders terms after images',
      RunsValues bindings limit before after images images' placeholders terms wanted := by
  have start := (Registry.below_providing _ _).trans below
  obtain ⟨placeholders, middle, images₁, place, same⟩ :=
    succeeds_placeholders sound reads.allows start bare typed.length_eq
  obtain ⟨-, -, yields⟩ := yields_placeholders sound bare (place.result start)
  have registry : middle.registry = before.registry := place.registry
  rw [← registry, ← place.options] at below
  rw [← place.options] at typed
  obtain ⟨terms, after, images₂, run⟩ := each sound reads yields place.allows place.same
    (fun ty member => member) same below typed
  rw [place.options] at run
  refine ⟨placeholders, terms, after, images₂, ⟨middle, images₁, place, run⟩, ?_⟩
  rw [← same]
  exact List.map_congr_left fun ty member => run.under_same (yields.plain ty member)

section Runs

variable {placeholders placeholders' : List (Ty × List TyVar)} {terms terms' : List Term}
  {after' : Session} {wanted wanted' : List Ty}

theorem RunsValues.allows
    (runs : RunsValues bindings limit before after images images' placeholders terms wanted) :
    after.subst.Allows images' := by
  obtain ⟨_, _, -, run⟩ := runs.run
  exact run.allows

theorem RunsValues.same
    (runs : RunsValues bindings limit before after images images' placeholders terms wanted)
    (v : TyVar)
    (inside : v.index < before.subst.size) : images' v = images v := by
  obtain ⟨_, _, place, run⟩ := runs.run
  exact (run.same v (Nat.lt_of_lt_of_le inside place.size_le)).trans (place.same v inside)

theorem RunsValues.unique {images₁ images₂ : TyVar → Ty}
    (first : RunsValues bindings limit before after images images₁ placeholders terms wanted)
    (second : RunsValues bindings limit before after' images images₂ placeholders' terms' wanted')
    (below : (before.registry.providing
      (Surface.Expr.widthsBindings before.options.defaultIntWidth bindings)).Below limit) :
    placeholders = placeholders' ∧ terms = terms' ∧ after = after' := by
  obtain ⟨middle, _, place, run⟩ := first.run
  obtain ⟨middle', _, place', run'⟩ := second.run
  obtain ⟨rfl, rfl⟩ := place.unique place' ((Registry.below_providing _ _).trans below)
  have registry : middle.registry = before.registry := place.registry
  exact ⟨rfl, run.unique run' (registry ▸ below)⟩

theorem RunsValues.yields
    (runs : RunsValues bindings limit before after images images' placeholders terms wanted)
    (sound : before.Sound) (bare : Surface.Expr.BareBindings bindings)
    (below : (before.registry.providing
      (Surface.Expr.widthsBindings before.options.defaultIntWidth bindings)).Below limit) :
    placeholders.length = bindings.length ∧ terms.length = bindings.length ∧
      (∀ placeholder ∈ placeholders, placeholder.2 = []) ∧
      Yields before after (placeholders.map (·.1)) fun _ _ _ => True := by
  obtain ⟨middle, _, place, run⟩ := runs.run
  have registry : middle.registry = before.registry := place.registry
  obtain ⟨length, plain, yields⟩ := yields_placeholders sound (written_of_bareBindings bare).2
    (place.result ((Registry.below_providing _ _).trans below))
  obtain ⟨length', typed⟩ := yields_inferValues bindings bare sound yields (fun ty member => member)
    (by rw [List.length_map, length]) (run.result (registry ▸ below))
  exact ⟨length, length', plain, typed.imp fun _ _ => trivial⟩

theorem succeeds_generalizeGroup (allows : before.subst.Allows images) {fixed : List TyVar}
    {entries : List (Surface.Binding × (Ty × List TyVar) × Term)}
    (plain : ∀ entry ∈ entries, entry.2.1.2 = [])
    (ends : ∀ entry ∈ entries, Scheme.generalizes before.subst entry.2.1.1 = true) :
    Succeeds (Check.generalizeGroup fixed entries) [] limit before before images images
      (generalized before.subst fixed entries) :=
  ⟨fun tables _ => generalizeGroup_of_plain plain (before.withTables tables) ends, rfl, rfl, rfl,
    Nat.le_refl _, allows, fun _ _ => rfl⟩

theorem RunsValues.group
    (runs : RunsValues bindings limit before after images images' placeholders terms wanted)
    (plain : ∀ placeholder ∈ placeholders, placeholder.2 = [])
    (yields : Yields before after (placeholders.map (·.1)) claim)
    (start : before.subst.Allows images) (distinct : (bindings.map (·.name)).Nodup) :
    Succeeds (Check.groupWith false bindings fun types => Check.inferValues types bindings)
      (Surface.Expr.widthsBindings before.options.defaultIntWidth bindings) limit before
        after images
      images' (generalized after.subst (after.env.freeVarsBelow before.env.depth after.subst)
        (bindings.zip (placeholders.zip terms))) := by
  obtain ⟨middle, images₁, place, run⟩ := runs.run
  rw [← place.env]
  have sound := yields.advance.sound
  have inferred : Succeeds (do
      let terms ← Check.inferValues (placeholders.map (·.1)) bindings
      Check.ending .endless (fun session => session.env.walkableBelow middle.env.depth
        session.subst) ((bindings.head?.map (·.span)).getD default)
      let session ← get
      pure (terms, session.env.freeVarsBelow middle.env.depth session.subst))
      (Surface.Expr.widthsBindings before.options.defaultIntWidth bindings) limit middle
        after images₁
      images' (terms, after.env.freeVarsBelow middle.env.depth after.subst) :=
    run.bind_plain
      ((succeeds_ending limit run.allows fun _ => sound.env.walkableBelow sound.tame _).bind
      (.get (fun tables => rfl) (.pure run.allows _)))
  have entries : ∀ entry ∈ bindings.zip (placeholders.zip terms), entry.2.1.2 = [] :=
    fun entry member => plain _ (List.of_mem_zip (List.of_mem_zip member).2).1
  have ends : ∀ entry ∈ bindings.zip (placeholders.zip terms),
      Scheme.generalizes after.subst entry.2.1.1 = true := fun entry member =>
    generalizes_firstOrder sound.tame
      (yields.plain _ (List.mem_map_of_mem (List.of_mem_zip (List.of_mem_zip member).2).1))
  have whole : Succeeds (_ >>= fun found : List Term × List TyVar =>
      Check.generalizeGroup found.2 (bindings.zip (placeholders.zip found.1)) >>=
        fun definitions => pure definitions) _ limit middle after images₁ images' _ :=
    inferred.bind_plain ((succeeds_generalizeGroup run.allows entries ends).map id)
  unfold Check.groupWith
  simp only [Bool.false_eq_true, if_false]
  exact (succeeds_distinctBindings start distinct fun binding member => List.not_mem_nil).bind
    (place.bind (.get (fun tables => rfl) whole))

end Runs

end Values

section Generalization

theorem serves_generalize (sound : before.Sound) (advance : before.Advance after)
    {images₁ : TyVar → Ty} (allows : after.subst.Allows images₁)
    (same : ∀ v, v.index < before.subst.size → images₁ v = images v) {fixed : List TyVar}
    (held : ∀ v, v ∈ fixed → after.env.Live after.subst v) (plain : ty.FirstOrder after.subst.size)
    {scheme : Scheme} (every : ∀ other, other.Monotype → scheme.Instance other →
      ∃ images₂, after.subst.Allows images₂ ∧
        (∀ v, v.index < before.subst.size → images₂ v = images v) ∧ ty.under images₂ = other) :
    Serves after.subst images₁ scheme (Scheme.generalize after.subst fixed ty) := by
  classical
  intro other monotype isInstance
  have tame := advance.sound.tame
  have resolved := tame.zonk_firstOrder plain
  obtain ⟨images₂, allows', same', rfl⟩ := every other monotype isInstance
  have agree : ∀ v ∈ fixed, images₂ v = images₁ v := by
    intro v isFixed
    obtain ⟨known, member, inside, -⟩ := held v isFixed
    have plainKnown := sound.env.plain known (advance.env ▸ member)
    have wide := plainKnown.mono advance.later.size_le
    refine (tame.zonk_firstOrder wide).image_eq ?_ v inside
    rw [allows'.under tame wide, allows.under tame wide]
    exact plainKnown.under_congr fun w inLeaves =>
      (same' w (plainKnown.inside w inLeaves)).trans (same w (plainKnown.inside w inLeaves)).symm
  let vars := (Scheme.generalize after.subst fixed ty).vars
  refine ⟨fun v => if v ∈ vars then images₂ v else images₁ v, fun v free => if_neg free, ?_⟩
  have zonked : ((Scheme.generalize after.subst fixed ty).zonk after.subst).ty =
      after.subst.zonk ty :=
    tame.zonk_zonk plain
  rw [zonked, ← allows'.under tame plain]
  refine resolved.under_congr fun v inLeaves => ?_
  by_cases quantified : v ∈ vars
  · rw [if_pos quantified]
  · rw [if_neg quantified]
    by_contra different
    refine quantified ((mem_vars_generalize tame plain).mpr ⟨inLeaves, fun isFixed => ?_⟩)
    exact different (agree v isFixed)

theorem forall₂_generalized {subst : Subst} {fixed : List TyVar} {schemes : List (Name × Scheme)}
    {types : List Ty} (length : types.length = schemes.length)
    (each : ∀ pair ∈ types.zip schemes,
      Serves subst images pair.2.2 (Scheme.generalize subst fixed pair.1)) :
    List.Forall₂ (fun binding binding' =>
        binding.1 = binding'.1 ∧ Serves subst images binding.2 binding'.2) schemes
      (((schemes.map (·.1)).zip types).map fun (name, ty) =>
        (name, Scheme.generalize subst fixed ty)) := by
  induction schemes generalizing types with
  | nil => exact .nil
  | cons binding schemes ih =>
    obtain ⟨ty, types, rfl⟩ := List.exists_cons_of_length_eq_add_one length
    obtain ⟨here, others⟩ := List.forall_mem_cons.mp each
    exact .cons ⟨rfl, here⟩ (ih (Nat.succ.inj length) others)

theorem schemes_generalized (subst : Subst) (fixed : List TyVar)
    (entries : List (Surface.Binding × (Ty × List TyVar) × Term)) :
    Definition.schemes (generalized subst fixed entries) =
      (entryTypes entries).map fun (name, ty) => (name, Scheme.generalize subst fixed ty) := by
  simp only [Definition.schemes, generalized, entryTypes, List.map_map]
  rfl

theorem succeeds_group (sound : before.Sound) (reads : before.Reads images context)
    (bare : Surface.Expr.BareBindings bindings) (each : InfersValues bindings)
    (below : (before.registry.providing
      (Surface.Expr.widthsBindings before.options.defaultIntWidth bindings)).Below limit)
    (distinct : (bindings.map (·.name)).Nodup) {schemes : List (Name × Scheme)}
    (values : Surface.HaveSchemes limit before.options.defaultIntWidth context bindings schemes) :
    ∃ definitions after images', Succeeds
      (Check.groupWith false bindings fun types => Check.inferValues types bindings)
      (Surface.Expr.widthsBindings before.options.defaultIntWidth bindings) limit before
        after images
      images' definitions ∧
      List.Forall₂ (fun binding binding' => binding.1 = binding'.1 ∧
        Serves after.subst images' binding.2 binding'.2) schemes
        (Definition.schemes definitions) := by
  classical
  have unannotated := (written_of_bareBindings bare).2
  have own : ∀ binding ∈ schemes, binding.2.ty.Monotype ∧ binding.2.Instance binding.2.ty := by
    intro binding member
    obtain ⟨bound, firstOrder⟩ := values.monotypes binding member
    exact ⟨⟨bound, firstOrder⟩, .var, fun _ _ => rfl, firstOrder.under_var.symm⟩
  obtain ⟨placeholders, terms, after, images', runs⟩ :=
    runs_values sound reads unannotated each below (values.instances reads.monotypes own)
  obtain ⟨length, length', plain, yields⟩ := runs.yields sound bare below
  refine ⟨_, after, images', runs.group plain yields reads.allows distinct, ?_⟩
  have names := congrArg List.length values.names
  rw [List.length_map, List.length_map] at names
  rw [schemes_generalized, entryTypes_zip length length', values.names]
  refine forall₂_generalized (by rw [List.length_map, length, names]) fun pair member => ?_
  refine serves_generalize sound yields.advance runs.allows runs.same (fun v isFixed => ?_)
    (yields.plain _ (List.of_mem_zip member).1) fun other monotype isInstance => ?_
  · rw [← yields.advance.env] at isFixed
    exact (Env.mem_freeVarsBelow yields.advance.sound.tame yields.advance.sound.env).mp isFixed
  -- One name has the instance while the others keep their own types, by the same run.
  · have picked : ∀ binding ∈ schemes,
        (if binding = pair.2 then other else binding.2.ty).Monotype ∧
          binding.2.Instance (if binding = pair.2 then other else binding.2.ty) := by
      intro binding inSchemes
      split
      · rename_i same
        exact ⟨monotype, same ▸ isInstance⟩
      · exact own binding inSchemes
    obtain ⟨placeholders', terms', after', images'', runs'⟩ :=
      runs_values sound reads unannotated each below (values.instances reads.monotypes picked)
    obtain ⟨rfl, rfl, rfl⟩ := runs.unique runs' below
    refine ⟨images'', runs'.allows, runs'.same, ?_⟩
    exact (eq_of_mem_zip runs'.image member).trans (if_pos rfl)

end Generalization

section Expressions

theorem infers_letIn (span : Span) {body : Surface.Expr}
    (bareBindings : Surface.Expr.BareBindings bindings) (values : InfersValues bindings)
    (here : Infers body) : Infers (.letIn span false bindings body) := by
  intro before images context limit ty sound reads below typed
  cases typed with
  | @letIn _ _ _ schemes _ _ distinct typedValues typedBody =>
    unfold Surface.Expr.widths at below ⊢
    rw [Registry.providing_append] at below
    obtain ⟨written, none⟩ := written_of_bareBindings bareBindings
    have start := (Registry.below_providing _ _).trans below
    obtain ⟨definitions, middle, images₁, group, served⟩ :=
      succeeds_group sound reads bareBindings values start distinct typedValues
    obtain ⟨opens, yields⟩ :=
      yields_groupWith (yields_inferValues bindings bareBindings) sound written
      none (group.result start)
    have inside := (reads.later sound yields.advance group.allows group.same).enter
      typedValues.monotypes served
    rw [← group.registry, ← group.options] at below
    rw [← group.options] at typedBody
    obtain ⟨term, after, images₂, run, same⟩ :=
      here (opens.sound sound yields) inside below typedBody
    have widths : body.widths before.options.defaultIntWidth =
        body.widths middle.options.defaultIntWidth := by rw [group.options]
    rw [widths]
    unfold Check.infer
    refine ⟨.letIn false definitions term term.ty, _, images₂, group.bind (run.inScope.map
      fun body => Term.letIn false definitions body body.ty), same⟩

mutual

theorem infers : ∀ expr : Surface.Expr, expr.Bare → Infers expr
  | .lit span value, _ => infers_lit span value
  | .ident span name, _ => infers_ident span name
  | .app span func arg, bare => by
    unfold Surface.Expr.Bare at bare
    exact infers_app span bare.1 bare.2 (infers func bare.1) (infers arg bare.2)
  | .tuple span elements, bare => by
    unfold Surface.Expr.Bare at bare
    exact infers_tuple span (infersAll elements bare)
  | .lambda span [⟨caseSpan, written, body⟩], bare => by
    unfold Surface.Expr.Bare Surface.Expr.BareCases at bare
    exact infers_lambda span caseSpan bare.1 bare.2.1 (infers body bare.2.1)
  | .lambda _ [], _ => by
    intro _ _ _ typed
    cases typed
  | .lambda _ (_ :: _ :: _), _ => by
    intro _ _ _ typed
    cases typed
  | .letIn span false bindings body, bare => by
    unfold Surface.Expr.Bare at bare
    exact infers_letIn span bare.1 (infersValues bindings bare.1) (infers body bare.2)
  | .letIn _ true _ _, _ => by
    intro _ _ _ typed
    cases typed
  | .matchOn _ _ _, _ => by
    intro _ _ _ typed
    cases typed
  | .ascribed _ _ _, _ => by
    intro _ _ _ typed
    cases typed

theorem infersAll : ∀ exprs : List Surface.Expr, Surface.Expr.BareAll exprs → InfersAll exprs
  | [], _ => infersAll_nil
  | expr :: exprs, bare => by
    unfold Surface.Expr.BareAll at bare
    exact infersAll_cons bare.1 (infers expr bare.1) (infersAll exprs bare.2)

theorem infersValues : ∀ bindings : List Surface.Binding, Surface.Expr.BareBindings bindings →
    InfersValues bindings
  | [], _ => infersValues_nil
  | ⟨span, name, type, value⟩ :: bindings, bare => by
    unfold Surface.Expr.BareBindings at bare
    exact infersValues_cons span name type bare.2.2.1 (infers value bare.2.2.1)
      (infersValues bindings bare.2.2.2)

end

end Expressions

section ClosedScope

variable {session : Session}

/-- A session in which all names have closed first-order schemes. The declared types may have any
fields. -/
structure ClosedScope (session : Session) : Prop where
  tame : session.subst.Tame
  env : session.env.Sound session.subst
  closed : session.env.Closed
  grounded : session.registry.Grounded
  names : ∀ {name scheme}, session.env.lookup? name = some scheme → session.names.Past "a" name

theorem AtTop.closedScope (atTop : session.AtTop) : session.ClosedScope where
  tame := atTop.sound.tame
  env := atTop.sound.env
  closed := atTop.closed
  grounded := ⟨atTop.sound.registry.bool, atTop.sound.registry.str, atTop.sound.registry.int⟩
  names := atTop.sound.names

theorem ClosedScope.sound (scope : session.ClosedScope) :
    (session.withTables session.registry.blank).Sound :=
  ⟨scope.tame, scope.env, scope.grounded.coherent_blank, scope.names⟩

theorem ClosedScope.reads (scope : session.ClosedScope) :
    (session.withTables session.registry.blank).Reads (fun v => session.subst.zonk (.var v))
      session.env.lookup? where
  allows := scope.tame.allows_zonk
  monotypes := ⟨session.subst.size, fun name scheme found =>
    scope.env.plain scheme (Env.mem_schemes_of_lookup? found)⟩
  names name scheme found := by
    classical
    have member := Env.mem_schemes_of_lookup? found
    refine ⟨scheme, found, fun ty _ ⟨chosen, _, same⟩ => ?_⟩
    refine ⟨fun v => if v ∈ scheme.vars then chosen v else session.subst.zonk (.var v),
      fun v free => if_neg free, ?_⟩
    have resolved : session.subst.zonk scheme.ty = scheme.ty :=
      scope.closed.zonk_ty scope.env scope.tame member
    change ty = (session.subst.zonk scheme.ty).under _
    rw [resolved, same]
    exact (scope.env.plain scheme member).under_congr fun v inLeaves =>
      (if_pos (scope.closed scheme member v inLeaves)).symm

/-- An expression that has a type by the rules is accepted, and each of its types is an instance of
the type that is inferred. The rules know the integers that the expression itself asks for. -/
theorem infer_principal (scope : session.ClosedScope) {expr : Surface.Expr} (bare : expr.Bare)
    (typed : Surface.HasType
      (session.registry.providing (expr.widths session.options.defaultIntWidth))
      session.options.defaultIntWidth session.env.lookup? expr ty) :
    ∃ term after, Check.infer expr session = .ok term after ∧
      ∃ images, ty = (after.subst.zonk term.ty).under images := by
  have below := Registry.below_refl
    (session.registry.providing (expr.widths session.options.defaultIntWidth))
  obtain ⟨term, after, images, run, yields, rfl⟩ :=
    Infers.yields (infers expr bare) bare scope.sound scope.reads below.blank typed
  refine ⟨term, _, run.run session.registry below, images, ?_⟩
  exact (run.allows.under yields.advance.sound.tame (yields.plain _ List.mem_cons_self)).symm

theorem twiceIdentity_hasType {registry : Registry}
    (noCtors : ∀ name, registry.ctors.get? name = none)
    {id : TemplateId} (known : registry.ints.get? 32 = some id) :
    Surface.HasType registry 32 (fun _ => none) twiceIdentity
    (.tuple [Registry.boolTy, .named id]) := by
  let identity : Scheme := ⟨[⟨0⟩], .arrow (.var ⟨0⟩) (.var ⟨0⟩)⟩
  have var : (Ty.var ⟨0⟩).Monotype := ⟨1, .var Nat.zero_lt_one⟩
  have plain : identity.ty.Monotype := ⟨1, .arrow (.var Nat.zero_lt_one) (.var Nat.zero_lt_one)⟩
  have named : ∀ id, (Ty.arrow (.named id) (.named id)).Monotype := fun id =>
    ⟨0, .arrow (.nominal nofun) (.nominal nofun)⟩
  have function : Surface.HasType registry 32 (fun _ => none) _ identity.ty :=
    .bind default default default (noCtors "x") var (.ident default (noCtors "x") rfl
      ⟨.var, fun _ _ => rfl, rfl⟩ var)
  have used : ∀ id, Surface.HasType registry 32 (Context.extend (fun _ => none) [("id", identity)])
      (.ident default "id") (.arrow (.named id) (.named id)) := fun id =>
    .ident default (noCtors "id") rfl ⟨fun v => if v = ⟨0⟩ then .named id else .var v,
      fun v free => if_neg (by simpa [identity] using free), rfl⟩ (named id)
  exact .letIn default (by decide) (.cons default plain (fun _ _ _ _ found => nomatch found)
    function .nil) (.tuple default (by decide) (.cons (.app default (used _) (.bool default true))
      (.cons (.app default (used id) (.int default rfl known)) .nil)))

/-- The identity is accepted at two types. -/
theorem infer_twiceIdentity : ∃ term after,
    Check.infer twiceIdentity (Session.start .standard) = .ok term after ∧
      ∃ images, Ty.tuple [Registry.boolTy, .named ⟨2⟩] =
      (after.subst.zonk term.ty).under images := by
  refine infer_principal (atTop_start .standard).closedScope twiceIdentity_bare ?_
  exact twiceIdentity_hasType (fun name => rfl) rfl

end ClosedScope

end PolyCheck.Session
