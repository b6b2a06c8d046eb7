import PolyCheck.Proofs.Session.Annotated
import PolyCheck.Proofs.Session.Reading

/-! Annotated bindings are as polymorphic as their annotations. A closed annotation without holes is
read as a type without free variables, so its opened quantifier leaves only the new rigid variables
free. No check writes the cell of a rigid variable, and none of them is held fixed at the end; so
what the group generalizes is the annotation itself. -/
namespace PolyCheck

open Run

section Groups

variable {recursive : Bool} {bindings : List Surface.Binding} {before after : Session}
  {definitions : List Definition} {fixed : List TyVar} {inv : Subst → Registry → Prop}

namespace Check

theorem length_of_inferValues {types : List Ty} {terms : List Term}
    (run : inferValues types bindings before = .ok terms after)
    (length : types.length = bindings.length) :
    terms.length = bindings.length := by
  induction bindings generalizing types terms before with
  | nil =>
    obtain rfl := List.length_eq_zero_iff.mp length
    unfold inferValues at run
    obtain ⟨rfl, -⟩ := pure_eq_ok.mp run
    rfl
  | cons binding bindings ih =>
    obtain ⟨span, name, type, value⟩ := binding
    cases types with
    | nil => cases length
    | cons ty types =>
      unfold inferValues at run
      obtain ⟨_, _, _, rest⟩ := bind_eq_ok.mp run
      obtain ⟨_, _, _, rest⟩ := bind_eq_ok.mp rest
      obtain ⟨others, _, below, finish⟩ := bind_eq_ok.mp rest
      obtain ⟨rfl, rfl⟩ := pure_eq_ok.mp finish
      exact congrArg Nat.succ (ih below (Nat.succ.inj length))

theorem length_of_mapM_ok {α β : Type} {items : List α} {visit : α → Check β} {results : List β}
    (run : items.mapM visit before = .ok results after) : results.length = items.length := by
  induction items generalizing before after results with
  | nil =>
    obtain ⟨rfl, -⟩ := pure_eq_ok.mp run
    rfl
  | cons item items ih =>
    rw [List.mapM_cons] at run
    obtain ⟨first, _, _, rest⟩ := bind_eq_ok.mp run
    obtain ⟨others, _, below, finish⟩ := bind_eq_ok.mp rest
    obtain ⟨rfl, -⟩ := pure_eq_ok.mp finish
    exact congrArg Nat.succ (ih below)

end Check

end Groups

section Schemes

/-- The scheme of a quantifier whose parameters have new names. Each parameter has a rigid variable
of its own; the ones that occur in the type are quantified, each once, and nothing else is free in
it or will be solved. -/
structure Scheme.Copies (subst : Subst) (params : List TyVar) (body : Ty) (copies : List TyVar)
    (scheme : Scheme) : Prop where
  length : copies.length = params.length
  distinct : copies.Nodup
  rigid : ∀ v ∈ copies, ∃ name, subst.cell v = .rigid name
  ty : scheme.ty = body.substitute (.ofLists params (copies.map .var))
  once : scheme.vars.Nodup
  quantified : ∀ v, v ∈ scheme.vars ↔ v ∈ copies ∧ v ∈ subst.freeVars scheme.ty
  closed : scheme.freeVars subst = []
  resolved : scheme.zonk subst = scheme

variable {binder : TyVar → Prop} {subst after : Subst} {params copies fixed : List TyVar}
  {body opened : Ty}

theorem Scheme.copies_generalize (normal : subst.Normal body)
    (confined : body.Confined binder (· ∈ params))
    (binders : ∀ v, binder v → ∃ name, after.cell v = .rigid name) (bound : ∀ v ∈ params, binder v)
    (length : copies.length = params.length) (distinct : copies.Nodup)
    (rigid : ∀ v ∈ copies, ∃ name, after.cell v = .rigid name) (spared : ∀ v ∈ copies, v ∉ fixed)
    (opens : opened = body.substitute (.ofLists params (copies.map .var))) :
    (generalize after fixed opened).Copies after params body copies := by
  have isNew : ∀ {v}, (∃ name, after.cell v = .rigid name) → (after.cell v).IsNew := by
    rintro v ⟨name, cell⟩
    exact cell ▸ Cell.isNew_rigid name
  have normal' : after.Normal body := normal.of_cells confined fun v shown _ =>
    isNew (binders v (shown.elim (bound v) id))
  obtain ⟨resolved, confined', confines⟩ :=
    normal'.instantiate confined (fun v isBinder => isNew (binders v isBinder))
    length fun v member => isNew (rigid v member)
  rw [← opens] at resolved confined'
  have among : ∀ v ∈ after.freeVars opened, v ∈ copies :=
    fun v free => confines.mem_freeVars confined' free
  have quantified : ∀ v, v ∈ (generalize after fixed opened).vars ↔ v ∈ after.freeVars opened := by
    intro v
    simp only [generalize, resolved.zonk, List.mem_filter, List.contains_eq_mem, Bool.not_eq_true',
      decide_eq_false_iff_not, and_iff_left_iff_imp]
    exact fun free => spared v (among v free)
  have ty : (generalize after fixed opened).ty = opened := resolved.zonk
  refine ⟨length, distinct, rigid, ty.trans opens, (after.nodup_freeVars _).filter _,
    fun v => ?_, ?_, ?_⟩
  · rw [quantified, ty]
    exact ⟨fun free => ⟨among v free, free⟩, And.right⟩
  · rw [freeVars, List.filter_eq_nil_iff, ty]
    intro v free
    simpa using (quantified v).mpr free
  · simp only [Scheme.zonk, generalize, resolved.zonk]

end Schemes

namespace Session

variable {base : Subst} {world : World} {recursive : Bool} {earlier later : List Surface.Binding}
  {span : Span}
  {name : Name} {written : Surface.TypeExpr} {value : Surface.Expr}
    {before reading read after : Session}
  {placeholders all : List (Ty × List TyVar)} {definitions : List Definition}
    {vars copies : List TyVar}
  {body resolved opened : Ty} {opening middle : Session}

theorem placeholders_around {binding : Surface.Binding}
    (placed : earlier.mapM Check.placeholder before = .ok placeholders reading)
    (run : (earlier ++ binding :: later).mapM Check.placeholder before = .ok all middle) :
    ∃ opened copies opening behind, Check.placeholder binding reading = .ok
    (opened, copies) opening ∧
      later.mapM Check.placeholder opening = .ok behind middle ∧
        all = placeholders ++ (opened, copies) :: behind := by
  rw [List.mapM_append] at run
  obtain ⟨_, _, placed', run⟩ := bind_eq_ok.mp run
  obtain ⟨rfl, rfl⟩ := EStateM.Result.ok.inj (placed.symm.trans placed')
  obtain ⟨_, _, tail, ended⟩ := bind_eq_ok.mp run
  obtain ⟨rfl, rfl⟩ := pure_eq_ok.mp ended
  rw [List.mapM_cons] at tail
  obtain ⟨⟨opened, copies⟩, opening, own, rest⟩ := bind_eq_ok.mp tail
  obtain ⟨behind, _, others, ended⟩ := bind_eq_ok.mp rest
  obtain ⟨rfl, rfl⟩ := pure_eq_ok.mp ended
  exact ⟨opened, copies, opening, behind, own, others, rfl⟩

/-- A binding whose annotation is closed, has no holes and is read as a quantified type is as
polymorphic as that type: its scheme quantifies a copy of each of the quantifier's variables that
occur in the resolved body. -/
theorem annotated_binding_polymorphic (here : before.InPlay True base world)
    (complete : written.Complete)
    (closed : written.Closed [])
    (placed : earlier.mapM Check.placeholder before = .ok placeholders reading)
    (elaborates : Check.writtenType written reading = .ok (.quantified vars body) read)
    (resolves : read.subst.zonkWithin (read.subst.depthBound body.size) body = some resolved)
    (run : Check.group recursive (earlier ++ ⟨span, name, some written, value⟩ :: later) before =
      .ok definitions after) :
    ∃ copies scheme term, definitions[earlier.length]? = some ⟨name, scheme, term⟩ ∧
      (∀ v ∈ copies, read.subst.size ≤ v.index) ∧
        scheme.Copies after.subst vars resolved copies := by
  have int : Registry.TakesInts fun _ => True := fun _ _ _ => trivial
  obtain ⟨all, middle, terms, inside, fixed, -, places, found, -, -, rfl, spared, -, -, left⟩ :=
    groupWith_eq_ok run
  have last : after.subst = inside.subst := by rw [left, subst_leaving]
  have count := Check.length_of_mapM_ok places
  have terms_length := Check.length_of_inferValues found (by rw [List.length_map, count])
  obtain ⟨opened, copies, opening, behind, own, others, rfl⟩ := placeholders_around placed places
  have before_length := Check.length_of_mapM_ok placed
  -- The annotation is read as a type over rigid variables.
  obtain ⟨first, -, atReading, -⟩ := (Check.reaches_placeholders int earlier).ok here placed
  obtain ⟨second, -, atRead, confined⟩ :=
    atReading.writtenType_closed int complete closed elaborates
  obtain ⟨bound, confined⟩ := confined.quantified_inv
  have binders : ∀ v, second.binder v → ∃ name, read.subst.cell v = .rigid name :=
    fun _ => atRead.subst.rigid
  -- Its quantifier is opened with new rigid variables, which stay rigid to the end.
  obtain ⟨longer, length, distinct, each, -, opens⟩ :=
    ((placeholder_eq_ok elaborates).mp own).copies
  rw [longer.zonk atRead.subst.ends resolves] at opens
  have keeps : opening.subst.KeepsRigid after.subst := by
    have solving := solving_keepsRigid opening.subst
    have atMiddle :=
      (Check.Steady.mapM fun binding _ => Check.steady_placeholder solving binding).keepsRigid
      (.refl _) others
    rw [last]
    exact (Check.steady_inferValues solving _ _).keepsRigid ((subst_entering middle _ _ _).symm ▸
      atMiddle) found
  have atEnd : ∀ v, second.binder v → ∃ name, after.subst.cell v = .rigid name := fun v binder =>
    (binders v binder).imp fun name rigid => keeps v name (longer.keepsRigid v name rigid)
  obtain ⟨normal, inResolved⟩ := Subst.resolved_closed atRead.subst.ends binders bound
    (confined.imp fun v shown => shown.resolve_left id) resolves
  -- The binding is generalized in its place, where none of those variables is held fixed.
  obtain ⟨term, termAt⟩ : ∃ term, terms[earlier.length]? = some term :=
    ⟨_, List.getElem?_eq_getElem (by simp [terms_length])⟩
  have placeholderAt : (placeholders ++ (opened, copies) :: behind)[earlier.length]? =
      some (opened, copies) := by
    simp [← before_length]
  have entryAt : ((earlier ++ ⟨span, name, some written, value⟩ :: later).zip
      ((placeholders ++ (opened, copies) :: behind).zip terms))[earlier.length]? =
        some (⟨span, name, some written, value⟩, (opened, copies), term) :=
    List.getElem?_zip_eq_some.mpr ⟨by simp, List.getElem?_zip_eq_some.mpr ⟨placeholderAt, termAt⟩⟩
  refine ⟨copies, Scheme.generalize inside.subst fixed opened, term, ?_,
    fun v member => (each v member).1, ?_⟩
  · rw [generalized, List.getElem?_map, entryAt]
    rfl
  · rw [← last]
    exact Scheme.copies_generalize normal inResolved atEnd bound length distinct
      (fun v member => (each v member).2.imp fun name rigid => keeps v name rigid)
      (spared _ (List.mem_of_getElem? entryAt)) opens

/-- `let f : forall a. a -> a = fun x -> x` in an empty session. -/
theorem polyIdentity_binding_polymorphic :
    ∃ definitions after copies scheme term, Check.group false
        [⟨default, "f", some polyIdentity, identity⟩] (Session.start .standard) =
          .ok definitions after ∧
      definitions[0]? = some ⟨"f", scheme, term⟩ ∧
        scheme.Copies after.subst [⟨0⟩] (.arrow (.var ⟨0⟩) (.var ⟨0⟩)) copies := by
  have shown : gives (fun _ _ => true)
    (Check.group false [⟨default, "f", some polyIdentity, identity⟩]
      (Session.start .standard)) = true := by cbv
  obtain ⟨definitions, after, run, -⟩ := exists_of_gives shown
  have complete : polyIdentity.Complete := ⟨trivial, trivial⟩
  have closed : polyIdentity.Closed [] := ⟨List.mem_singleton_self _, List.mem_singleton_self _⟩
  have placed : ([] : List Surface.Binding).mapM Check.placeholder (Session.start .standard) =
      .ok [] (.start .standard) :=
    rfl
  obtain ⟨copies, scheme, term, found, -, copied⟩ :=
    annotated_binding_polymorphic (inPlay_start .standard) complete closed
    placed (show Check.writtenType polyIdentity (Session.start .standard) =
      .ok (.quantified [⟨0⟩] (.arrow (.var ⟨0⟩) (.var ⟨0⟩))) _ from rfl) rfl run
  exact ⟨definitions, after, copies, scheme, term, run, found, copied⟩

def holedAlias : Surface.Decl := .synonym default "t" [] (.hole default)

def fromHoled : Surface.TypeExpr :=
  .quantified default ["a"] (.arrow default (.name default "t") (.var default "a"))

/-- An alias may stand for a variable that is free in an annotation without holes; the check of the
value solves it. -/
theorem holed_alias_specialised : ¬ ∀ {options : Options} {session : Session},
    session.Reachable options →
    ∀ (name : Name) (value : Surface.Expr) (written : Surface.TypeExpr), written.Complete →
      written.Closed [] →
      ∀ (vars : List TyVar) (body resolved : Ty) (read after : Session)
      (definitions : List Definition),
        Check.writtenType written session = .ok (.quantified vars body) read →
        read.subst.zonkWithin (read.subst.depthBound body.size) body = some resolved →
        Check.group false [⟨default, name, some written, value⟩] session = .ok definitions after →
        ∃ copies scheme term, definitions[0]? = some ⟨name, scheme, term⟩ ∧
          scheme.Copies after.subst vars resolved copies := by
  intro exactly
  have shown : gives (fun _ session =>
      gives (fun ty read => decide (ty = .quantified [⟨1⟩] (.arrow (.var ⟨0⟩) (.var ⟨1⟩)) ∧
          read.subst.zonkWithin 2 (.arrow (.var ⟨0⟩) (.var ⟨1⟩)) =
          some (.arrow (.var ⟨0⟩) (.var ⟨1⟩))))
        (Check.writtenType fromHoled session) &&
      gives (fun definitions _ => (definitions[0]?).map (·.scheme.ty) =
        some (.arrow (.var ⟨2⟩) (.var ⟨2⟩)))
        (Check.group false [⟨default, "f", some fromHoled, identity⟩] session))
      (Check.decl holedAlias (Session.start .standard)) = true := by cbv
  obtain ⟨checked, session, accepted, shown⟩ := exists_of_gives shown
  obtain ⟨reads, binds⟩ := Bool.and_eq_true_iff.mp shown
  obtain ⟨ty, read, elaborates, shown⟩ := exists_of_gives reads
  obtain ⟨rfl, walk⟩ := of_decide_eq_true shown
  obtain ⟨definitions, after, run, shown⟩ := exists_of_gives binds
  have enough : 2 ≤ read.subst.depthBound 3 :=
    Nat.le_trans (by decide : 2 ≤ Subst.reductionAllowance) (Nat.le_add_right _ _)
  have resolves := Subst.zonkWithin_mono enough walk
  have reachable : session.Reachable .standard := .decl .start holedAlias (.inl ⟨checked, accepted⟩)
  obtain ⟨copies, scheme, term, found, copied⟩ :=
    exactly reachable "f" identity fromHoled ⟨trivial, trivial⟩
    ⟨trivial, List.mem_singleton_self _⟩ _ _ _ read after definitions elaborates resolves run
  have bound : scheme.ty = .arrow (.var ⟨2⟩) (.var ⟨2⟩) := by
    simpa [found] using of_decide_eq_true shown
  obtain ⟨copy, rfl⟩ := List.length_eq_one_iff.mp copied.length
  have param : Ty.var ⟨2⟩ = .var ⟨0⟩ := (Ty.arrow.inj (bound.symm.trans copied.ty)).1
  cases param

end Session

end PolyCheck
