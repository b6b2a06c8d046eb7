import PolyCheck.Proofs.Session.Bindings
import PolyCheck.Proofs.Session.Names

/-! Groups of bindings. The values of a group are checked against new variables, which a recursive
group has in scope. What is not live afterwards is private to the group, so it can be
generalized. -/
namespace PolyCheck

/-- The values of a group fit its schemes, which quantify over nothing that is free in the scope. -/
structure Definition.TypedAll (subst : Subst) (registry : Registry) (context : Context)
    (recursive : Bool) (definitions : List Definition) : Prop where
  named : ∀ definition ∈ definitions, definition.name.Apart
  values : ∀ definition ∈ definitions, Term.Typed subst registry
    (context.extend (Definition.inside recursive definitions)) definition.value
  types : ∀ definition ∈ definitions, definition.value.ty = definition.scheme.ty
  general : ∀ definition ∈ definitions, ∀ v ∈ definition.scheme.vars, context.Closed v

namespace Session

open Run

variable {before middle after : Session} {types : List Ty} {claim : Claim}

section Scopes

variable {bindings : List (Name × Scheme)}

theorem inScope_against {body : Check Term} {expected : Ty} {span : Span} {term : Term}
    (run : Check.inScope bindings (body >>= Check.against expected span) before = .ok term after) :
    ∃ inside, body { before with env := before.env.enter bindings } = .ok term inside ∧
      Check.unify expected term.ty span { inside with env := inside.env.pop.2 } = .ok () after := by
  obtain ⟨last, whole, rfl⟩ := inScope_eq_ok.mp run
  obtain ⟨found, inside, first, rest⟩ := bind_eq_ok.mp whole
  obtain ⟨⟨⟩, last', unify, finish⟩ := bind_eq_ok.mp rest
  obtain ⟨rfl, rfl⟩ := pure_eq_ok.mp finish
  obtain ⟨subst, equal, rfl⟩ := unify_eq_ok.mp unify
  exact ⟨inside, first, unify_eq_ok.mpr ⟨subst, equal, rfl⟩⟩

theorem Yields.against (yields : Yields before middle types claim) (sound : before.Sound)
    {next : Session} {term : Term} (here : YieldsTerm middle next term) {expected : Ty}
    (covers : middle.subst.Covers types expected) {span : Span}
    (run : Check.unify expected term.ty span next = .ok () after) :
    Yields before after types fun final registry context => claim final registry context ∧
      Term.Typed final registry context (term.zonk final) ∧
        final.zonk expected = final.zonk term.ty := by
  have both := yields.seq here sound
  have subset : types ⊆ types ++ [term.ty] := List.subset_append_left _ _
  have covered := yields.covers_later covers here.advance.sound here.advance.later subset
  exact ((both.unify sound covered (both.covers (by simp)) run).reorder subset).imp
    fun _ ⟨⟨holds, typed⟩, equal⟩ => ⟨holds, typed, equal⟩

theorem Yields.against_inScope (yields : Yields before middle types claim) (sound : before.Sound)
    (opens : MayEnter before middle types bindings) {inside : Session} {term : Term}
    (here : YieldsTerm { middle with env := middle.env.enter bindings } inside term)
    {expected : Ty} (covers : middle.subst.Covers types expected) {span : Span}
    (run : Check.unify expected term.ty span { inside with env := inside.env.pop.2 } =
      .ok () after) :
    Yields before after types fun final registry context => claim final registry context ∧
      Term.Typed final registry (context.extend (resolvedBindings final bindings))
      (term.zonk final) ∧ final.zonk expected = final.zonk term.ty := by
  have both := yields.inScope sound opens here
  have subset : types ⊆ types ++ [term.ty] := List.subset_append_left _ _
  have covered : inside.subst.Covers (types ++ [term.ty]) expected :=
    yields.covers_later covers here.advance.sound here.advance.later subset
  exact ((both.unify sound covered (both.covers (by simp)) run).reorder subset).imp
    fun _ ⟨⟨holds, typed⟩, equal⟩ => ⟨holds, typed, equal⟩

theorem resolvedBindings_monos (final : Subst) (captures : Captures) :
    resolvedBindings final (Scheme.monos captures) =
      Scheme.monos (resolvedCaptures final captures) := by
  simp [resolvedBindings, Scheme.monos, resolvedCaptures, Scheme.zonk, Scheme.mono]

end Scopes

section Bindings

variable {bindings : List Surface.Binding}

theorem yields_placeholders (sound : before.Sound)
    (bare : ∀ binding ∈ bindings, binding.type = none) {placeholders : List (Ty × List TyVar)}
    (run : bindings.mapM Check.placeholder before = .ok placeholders after) :
    placeholders.length = bindings.length ∧ (∀ placeholder ∈ placeholders, placeholder.2 = []) ∧
      Yields before after (placeholders.map (·.1)) fun _ _ _ => True := by
  induction bindings generalizing before placeholders with
  | nil =>
    rw [List.mapM_nil] at run
    obtain ⟨rfl, rfl⟩ := pure_eq_ok.mp run
    exact ⟨rfl, nofun, .refl sound fun _ _ _ => trivial⟩
  | cons binding bindings ih =>
    rw [List.mapM_cons] at run
    obtain ⟨first, middle, here, rest⟩ := bind_eq_ok.mp run
    obtain ⟨others, last, there, finish⟩ := bind_eq_ok.mp rest
    obtain ⟨rfl, rfl⟩ := pure_eq_ok.mp finish
    obtain ⟨none, bare⟩ := List.forall_mem_cons.mp bare
    rw [Check.placeholder, none] at here
    obtain ⟨ty, middle', fresh, finish'⟩ := bind_eq_ok.mp here
    obtain ⟨rfl, rfl⟩ := pure_eq_ok.mp finish'
    have new := yields_freshVar sound fresh
    obtain ⟨length, plain, yields⟩ := ih new.advance.sound bare there
    refine ⟨by simp [length], List.forall_mem_cons.mpr ⟨rfl, plain⟩, ?_⟩
    exact (new.seq yields sound).imp fun _ _ => trivial

end Bindings

section Generalization

variable {entries : List (Surface.Binding × (Ty × List TyVar) × Term)} {fixed : List TyVar}

/-- The names of the entries of a group with the types they were checked against. -/
def entryTypes (entries : List (Surface.Binding × (Ty × List TyVar) × Term)) : List (Name × Ty) :=
  entries.map fun entry => (entry.1.name, entry.2.1.1)

theorem mem_vars_generalize {subst : Subst} (tame : subst.Tame) {ty : Ty}
    (plain : ty.FirstOrder subst.size) {v : TyVar} :
    v ∈ (Scheme.generalize subst fixed ty).vars ↔ v ∈ (subst.zonk ty).leaves ∧ v ∉ fixed := by
  simp [Scheme.generalize, tame.mem_freeVars (tame.zonk_firstOrder plain), tame.zonk_zonk plain]

theorem generalizes_firstOrder {subst : Subst} (tame : subst.Tame) {ty : Ty}
    (plain : ty.FirstOrder subst.size) : Scheme.generalizes subst ty = true := by
  rw [Scheme.generalizes, tame.zonk?_eq plain, tame.isSome_freeVars? (tame.zonk_firstOrder plain)]
  rfl

theorem inside_generalized {subst final : Subst} (later : subst.Extends final)
    (plain : ∀ entry ∈ entries, entry.2.1.1.FirstOrder subst.size) (recursive : Bool) :
    Definition.inside recursive (Term.zonkDefinitions final (generalized subst fixed entries)) =
      resolvedBindings final (if recursive then Scheme.monos (entryTypes entries) else []) := by
  cases recursive with
  | false => rfl
  | true =>
    rw [if_pos rfl, resolvedBindings_monos, Term.zonkDefinitions_eq_map, Definition.inside,
      if_pos rfl, Definition.monoSchemes, generalized, entryTypes, resolvedCaptures, Scheme.monos]
    simp only [List.map_map]
    refine List.map_congr_left fun entry member => ?_
    simp only [Function.comp_apply, Scheme.zonk, Scheme.generalize]
    rw [later.resolved (plain entry member)]

theorem mem_schemes_generalized {subst : Subst} {name : Name} {scheme : Scheme}
    (member : (name, scheme) ∈ Definition.schemes (generalized subst fixed entries)) :
    ∃ entry ∈ entries, entry.1.name = name ∧ Scheme.generalize subst fixed entry.2.1.1 =
      scheme := by
  rw [Definition.schemes, generalized, List.map_map] at member
  obtain ⟨entry, inEntries, same⟩ := List.mem_map.mp member
  exact ⟨entry, inEntries, Prod.mk.inj same⟩

theorem mem_entryTypes {entry : Surface.Binding × (Ty × List TyVar) × Term}
    (member : entry ∈ entries) : entry.2.1.1 ∈ (entryTypes entries).map (·.2) := by
  rw [entryTypes, List.map_map]
  exact List.mem_map_of_mem member

variable {recursive : Bool}

theorem Yields.private_generalize
    (yields : Yields before after ((entryTypes entries).map (·.2)) claim)
    (held : ∀ v, v ∈ fixed ↔ after.env.Live after.subst v) :
    ∀ entry ∈ entries, ∀ v ∈ (Scheme.generalize after.subst fixed entry.2.1.1).vars,
      Private before after [] v := by
  intro entry member v inVars
  have tame := yields.advance.sound.tame
  have plain := yields.plain _ (mem_entryTypes member)
  obtain ⟨inside, free⟩ := (mem_vars_generalize tame plain).mp inVars
  refine ⟨⟨tame.unsolved_of_mem plain inside, fun live => free ((held v).mpr live)⟩,
    fun dead => ?_, nofun⟩
  exact yields.avoids _ (mem_entryTypes member) v dead inside

theorem Yields.mayEnter_generalize
    (yields : Yields before after ((entryTypes entries).map (·.2)) claim)
    (held : ∀ v, v ∈ fixed ↔ after.env.Live after.subst v)
    (written : ∀ entry ∈ entries, entry.1.name.isMinted = false) :
    MayEnter before after [] (Definition.schemes (generalized after.subst fixed entries)) := by
  have tame := yields.advance.sound.tame
  have plain : ∀ entry ∈ entries, entry.2.1.1.FirstOrder after.subst.size := fun entry member =>
    yields.plain _ (mem_entryTypes member)
  refine ⟨fun name scheme member => ?_, fun name scheme member v inside free => ?_,
    fun name scheme member => ?_, fun name scheme member => ?_⟩
  all_goals obtain ⟨entry, inEntries, rfl, rfl⟩ := mem_schemes_generalized member
  · exact tame.zonk_firstOrder (plain entry inEntries)
  · refine .inl ?_
    by_contra dead
    refine free ((mem_vars_generalize tame (plain entry inEntries)).mpr
      ⟨?_, fun isFixed => dead ((held v).mp isFixed)⟩)
    rwa [Scheme.generalize, tame.zonk_zonk (plain entry inEntries)] at inside
  · exact yields.private_generalize held entry inEntries
  · exact NameSupply.past_of_not_minted (written entry inEntries)

theorem Yields.generalize
    (yields : Yields before after ((entryTypes entries).map (·.2)) fun final registry context =>
      ∀ entry ∈ entries,
        Term.Typed final registry (context.extend (resolvedBindings final
          (if recursive then Scheme.monos (entryTypes entries) else []))) (entry.2.2.zonk final) ∧
        final.zonk entry.2.1.1 = final.zonk entry.2.2.ty)
    (held : ∀ v, v ∈ fixed ↔ after.env.Live after.subst v)
    (written : ∀ entry ∈ entries, entry.1.name.isMinted = false) :
    MayEnter before after [] (Definition.schemes (generalized after.subst fixed entries)) ∧
      Yields before after [] fun final registry context =>
        Definition.TypedAll final registry context
        recursive (Term.zonkDefinitions final (generalized after.subst fixed entries)) := by
  have plain : ∀ entry ∈ entries, entry.2.1.1.FirstOrder after.subst.size := fun entry member =>
    yields.plain _ (mem_entryTypes member)
  refine ⟨yields.mayEnter_generalize held written,
    yields.narrow nofun fun {final registry context} outlook typed => ?_⟩
  have back : ∀ {definition}, definition ∈ Term.zonkDefinitions final
      (generalized after.subst fixed entries) → ∃ entry ∈ entries, definition =
        ⟨entry.1.name, (Scheme.generalize after.subst fixed entry.2.1.1).zonk final,
          entry.2.2.zonk final⟩ := by
    intro definition member
    rw [Term.zonkDefinitions_eq_map, generalized, List.map_map] at member
    obtain ⟨entry, inEntries, rfl⟩ := List.mem_map.mp member
    exact ⟨entry, inEntries, rfl⟩
  refine ⟨fun definition member => ?_, fun definition member => ?_, fun definition member => ?_,
    fun definition member v inVars => ?_⟩
  all_goals obtain ⟨entry, inEntries, rfl⟩ := back member
  · exact Name.apart_of_not_minted (written entry inEntries)
  · rw [inside_generalized outlook.later plain]
    exact (typed entry inEntries).1
  · rw [Term.ty_zonk, ← (typed entry inEntries).2, Scheme.zonk, Scheme.generalize]
    exact (outlook.later.resolved (plain entry inEntries)).symm
  · exact (outlook.hidden v (yields.private_generalize held entry inEntries v inVars)).2

end Generalization

section Groups

variable {bindings : List Surface.Binding} {recursive : Bool} {definitions : List Definition}

/-- What checking the values of a group gives, for types among those checked so far. -/
def YieldsValues (bindings : List Surface.Binding) (values : List Ty → Check (List Term)) : Prop :=
  ∀ {before middle after : Session} {types : List Ty} {claim : Claim} {expected : List Ty}
    {terms : List Term}, before.Sound → Yields before middle types claim →
    (∀ ty ∈ expected, ty ∈ types) → expected.length = bindings.length →
    values expected middle = .ok terms after →
    terms.length = bindings.length ∧
      Yields before after types fun final registry context => claim final registry context ∧
        ∀ pair ∈ expected.zip terms, Term.Typed final registry context (pair.2.zonk final) ∧
          final.zonk pair.1 = final.zonk pair.2.ty

/-- What checking a group gives: names that may come into scope, over values that fit them. -/
def YieldsGroup (before after : Session) (recursive : Bool)
    (definitions : List Definition) : Prop :=
  MayEnter before after [] (Definition.schemes definitions) ∧
    Yields before after [] fun final registry context => Definition.TypedAll final registry context
      recursive (Term.zonkDefinitions final definitions)

theorem entryTypes_zip {placeholders : List (Ty × List TyVar)} {terms : List Term}
    (length : placeholders.length = bindings.length) (length' : terms.length = bindings.length) :
    entryTypes (bindings.zip (placeholders.zip terms)) =
      (bindings.map (·.name)).zip (placeholders.map (·.1)) := by
  induction bindings generalizing placeholders terms with
  | nil => rfl
  | cons binding bindings ih =>
    obtain ⟨placeholder, placeholders, rfl⟩ := List.exists_cons_of_length_eq_add_one length
    obtain ⟨term, terms, rfl⟩ := List.exists_cons_of_length_eq_add_one length'
    exact congrArg _ (ih (Nat.succ.inj length) (Nat.succ.inj length'))

theorem Yields.group {placeholders : List (Ty × List TyVar)} {terms : List Term}
    {fixed : List TyVar} (length : placeholders.length = bindings.length)
    (length' : terms.length = bindings.length)
    (written : ∀ binding ∈ bindings, binding.name.isMinted = false)
    (yields : Yields before after (placeholders.map (·.1)) fun final registry context =>
      ∀ pair ∈ (placeholders.map (·.1)).zip terms,
        Term.Typed final registry (context.extend (resolvedBindings final (if recursive then
          Scheme.monos ((bindings.map (·.name)).zip (placeholders.map (·.1))) else [])))
          (pair.2.zonk final) ∧
        final.zonk pair.1 = final.zonk pair.2.ty)
    (held : ∀ v, v ∈ fixed ↔ after.env.Live after.subst v) :
    YieldsGroup before after recursive
      (generalized after.subst fixed (bindings.zip (placeholders.zip terms))) := by
  have inZip : ∀ {entry}, entry ∈ bindings.zip (placeholders.zip terms) →
      entry.1 ∈ bindings ∧ entry.2 ∈ placeholders.zip terms := fun member => List.of_mem_zip member
  refine Yields.generalize ?_ held fun entry member => written _ (inZip member).1
  rw [entryTypes_zip length length', List.map_snd_zip (by simp [length])]
  refine yields.imp fun _ typed entry member => typed (entry.2.1.1, entry.2.2) ?_
  rw [List.zip_map_left]
  exact List.mem_map_of_mem (inZip member).2

theorem monos_zip (names : List Name) (types : List Ty) :
    names.zip (types.map Scheme.mono) = Scheme.monos (names.zip types) := by
  rw [List.zip_map_right]
  rfl

theorem MayEnter.yields_monos {captures : Captures} (sound : before.Sound)
    (yields : Yields before middle types claim)
    (opens : MayEnter before middle types (Scheme.monos captures))
    (distinct : (captures.map (·.1)).Nodup) :
    Yields { middle with env := middle.env.enter (Scheme.monos captures) }
      { middle with env := middle.env.enter (Scheme.monos captures) } (captures.map (·.2))
      fun _ _ _ => True := by
  have soundIn := opens.sound sound yields
  have known : ∀ {name : Name} {ty : Ty}, (name, ty) ∈ captures →
      Scheme.mono ty ∈ (middle.env.enter (Scheme.monos captures)).schemes := by
    intro name ty member
    have inMonos : (name, Scheme.mono ty) ∈ Scheme.monos captures := List.mem_map_of_mem member
    have nodup : ((Scheme.monos captures).reverse.map (·.1)).Nodup := by
      rw [List.map_reverse, List.nodup_reverse, Scheme.monos, List.map_map]
      exact distinct
    have found : (middle.env.enter (Scheme.monos captures)).lookup? name = some (.mono ty) := by
      rw [Env.lookup?_enter, (lookup_eq_some_iff nodup).mpr (List.mem_reverse.mpr inMonos)]
      rfl
    exact Env.mem_schemes_of_lookup? found
  refine soundIn.yields_grown soundIn.tame.grown_refl (fun ty member => ?_)
    (fun ty member v inside => .inl ?_) fun _ => trivial
  all_goals obtain ⟨⟨name, ty⟩, inCaptures, rfl⟩ := List.mem_map.mp member
  · exact soundIn.env.plain _ (known inCaptures)
  · exact ⟨_, known inCaptures, inside, List.not_mem_nil⟩

theorem yields_groupWith {values : List Ty → Check (List Term)}
    (each : YieldsValues bindings values)
    (sound : before.Sound) (written : ∀ binding ∈ bindings, binding.name.isMinted = false)
    (bare : ∀ binding ∈ bindings, binding.type = none)
    (run : Check.groupWith recursive bindings values before = .ok definitions after) :
    YieldsGroup before after recursive definitions := by
  obtain ⟨placeholders, middle, terms, inside, fixed, distinct, placed, checked, -, rfl, rfl, -,
      -, -, rfl⟩ :=
    groupWith_eq_ok run
  obtain ⟨length, -, yields⟩ := yields_placeholders sound bare placed
  have lengths : (placeholders.map (·.1)).length = bindings.length := by simp [length]
  rw [← subst_leaving inside recursive]
  cases recursive with
  | false =>
    obtain ⟨length', typed⟩ := each sound yields (fun ty member => member) lengths checked
    have env := typed.advance.env.trans yields.advance.env.symm
    refine Yields.group length length' written (typed.imp fun _ both pair member => ?_) fun v => ?_
    · rw [if_neg Bool.false_ne_true, resolvedBindings, List.map_nil, Context.extend_nil]
      exact both.2 pair member
    · rw [← env]
      exact Env.mem_freeVarsBelow typed.advance.sound.tame typed.advance.sound.env
  | true =>
    simp only [entering, if_true, monos_zip] at checked
    have names : ((bindings.map (·.name)).zip (placeholders.map (·.1))).map (·.1) =
        bindings.map (·.name) := List.map_fst_zip (by simp [length])
    have types : ((bindings.map (·.name)).zip (placeholders.map (·.1))).map (·.2) =
        placeholders.map (·.1) := List.map_snd_zip (by simp [length])
    have opens : MayEnter before middle (placeholders.map (·.1))
        (Scheme.monos ((bindings.map (·.name)).zip (placeholders.map (·.1)))) := by
      refine yields.opens_monos (fun capture member => (List.of_mem_zip member).2)
        fun capture member => NameSupply.past_of_not_minted ?_
      obtain ⟨binding, inBindings, same⟩ := List.mem_map.mp (List.of_mem_zip member).1
      exact same ▸ written binding inBindings
    have monos := opens.yields_monos sound yields (by rwa [names])
    rw [types] at monos
    obtain ⟨length', typed⟩ :=
      each (opens.sound sound yields) monos (fun ty member => member) lengths checked
    have whole := (yields.inScope sound opens typed).reorder (List.subset_append_left _ _)
    refine Yields.group length length' written (whole.imp fun _ all pair member =>
      all.2.2 pair member) fun v => ?_
    have env := typed.advance.env
    have outer : inside.env.pop.2 = middle.env := by rw [env, Env.pop_enter]
    have soundOuter : middle.env.Sound inside.subst := outer ▸ whole.advance.sound.env
    change v ∈ inside.env.freeVarsBelow middle.env.depth inside.subst ↔
      inside.env.pop.2.Live inside.subst v
    rw [outer, env]
    exact Env.mem_freeVarsBelow_enter whole.advance.sound.tame soundOuter

end Groups

end Session

end PolyCheck
