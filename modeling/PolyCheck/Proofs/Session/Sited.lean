import PolyCheck.Proofs.Pat.Sited
import PolyCheck.Proofs.Session.Captures
import PolyCheck.Proofs.Subst.Flat
import PolyCheck.Session.Toplevel

/-! The types of captured names. In a pattern without annotations over constructors whose fields
have no quantifiers, the only types that are compared are made of such fields and of new variables;
so comparisons make types equal, and what is recorded for a name stays equal to the type of each
place that it stands for. -/
namespace PolyCheck

mutual

def Surface.Pattern.heads : Surface.Pattern → List Name
  | .wild _ => []
  | .lit _ _ => []
  | .bind _ name => [name]
  | .tuple _ elements => Surface.Pattern.headsAll elements
  | .ctor _ name args => name :: Surface.Pattern.headsAll args
  | .ascribed _ inner _ => inner.heads
  | .oneOf _ alternatives => Surface.Pattern.headsAll alternatives

def Surface.Pattern.headsAll : List Surface.Pattern → List Name
  | [] => []
  | pattern :: rest => pattern.heads ++ Surface.Pattern.headsAll rest

end

open Run Check Ty

/-- The constructor of the name, if there is one, has fields without quantifiers, whatever has been
found out about the holes in them. -/
def Session.FlatFields (session : Session) (name : Name) : Prop :=
  ∀ {info template dataCase}, session.registry.ctors.get? name = some info →
    session.registry.template? info.template = some template → template.cases[info.index]? =
    some dataCase →
      ∀ field ∈ dataCase.fields, field.Unquantified fun v => v ∈ template.paramVars ∨
      session.subst.Flat v

structure Registry.Serves (base registry : Registry) : Prop where
  ctors : registry.ctors = base.ctors
  paramCount : ∀ id, registry.paramCount id = base.paramCount id
  fieldsAt : ∀ id index args, registry.fieldsAt id index args = base.fieldsAt id index args

theorem Registry.serves_intTemplate {base registry : Registry} (serves : base.Serves registry)
    (width : Nat) : base.Serves (registry.intTemplate width).2 := by
  have same : ∀ id, (registry.intTemplate width).2.template? id = registry.template? id ∨
      registry.template? id = none ∧ (registry.intTemplate width).2.template? id =
        some (.ofBuiltin ("i" ++ toString width) (.int width)) := by
    intro id
    cases known : registry.ints.get? width with
    | some _ =>
      rw [intTemplate_of_some known]
      exact .inl rfl
    | none =>
      rw [intTemplate_of_none known, template?_record]
      change (registry.alloc _).2.template? id = _ ∨ _ ∧ (registry.alloc _).2.template? id = _
      rw [template?_alloc]
      split
      · rename_i last
        refine .inr ⟨?_, rfl⟩
        rw [Registry.template?, last]
        exact Array.getElem?_eq_none (Nat.le_refl _)
      · exact .inl rfl
  refine ⟨(ctors_intTemplate registry width).trans serves.ctors, fun id => ?_,
    fun id index args => ?_⟩
  · rw [← serves.paramCount, Registry.paramCount, Registry.paramCount]
    rcases same id with same | ⟨absent, made⟩
    · rw [same]
    · rw [absent, made]
      rfl
  · rw [← serves.fieldsAt, Registry.fieldsAt, Registry.fieldsAt]
    rcases same id with same | ⟨absent, made⟩
    · rw [same]
    · rw [absent, made]
      rfl

structure Session.Sees (start : Session) (stage : Stage) (session : Session) : Prop where
  shows : stage.Shows start.subst.Seen session.subst
  flat : ∀ v, start.subst.Flat v → stage.world.own v
  registry : start.registry.Serves session.registry

namespace Check

variable {start : Session} {stage later : Stage} {captures shared own : Captures}
  {ty expected found : Ty} {span : Span} {α : Type} {post : Stage → α → Prop}

abbrev Owns (start : Session) (stage : Stage) (ty : Ty) : Prop := stage.Shown start.subst.Seen ty

theorem owns_all {types : List Ty} (grown : stage ≤ later)
    (each : ∀ t ∈ types, Owns start stage t) : ∀ t ∈ types, Owns start later t :=
  fun t member => Stage.lasts_shown grown (each t member)

theorem owns_tuple {types : List Ty} (each : ∀ t ∈ types, Owns start stage t) :
    Owns start stage (.tuple types) :=
  ⟨.tuple fun t member => (each t member).sectional, .tuple fun t member => (each t member).among⟩

theorem owns_named (template : TemplateId) : Owns start stage (.named template) :=
  ⟨.nominal nofun, .nominal nofun⟩

/-- Types without quantifiers over variables of the pattern. -/
abbrev Bare (start : Session) (stage : Stage) (ty : Ty) : Prop :=
  ty.Unquantified fun v => stage.world.own v ∧ start.subst.Seen v

theorem owns_of_bare (bare : Bare start stage ty) : Owns start stage ty :=
  ⟨(bare.mono fun _ => And.left).sectional, (bare.mono fun _ => And.right).sectional.confined⟩

theorem bare_fieldsAt {name : Name} {info : CtorInfo} {args : List Ty}
    (flats : start.FlatFields name)
    (known : start.registry.ctors.get? name = some info)
    (flat : ∀ v, start.subst.Flat v → stage.world.own v)
    (length : args.length = start.registry.paramCount info.template)
    (each : ∀ t ∈ args, Bare start stage t) :
    ∀ t ∈ start.registry.fieldsAt info.template info.index args, Bare start stage t := by
  refine Registry.forall_mem_fieldsAt fun {template _} found declared field member => ?_
  refine (flats known found declared field member).substitute fun v holds => ?_
  rcases Assignment.image_cases template.paramVars args v with isArg | ⟨same, absent⟩
  · exact each _ isArg
  · have whole : template.paramVars.take args.length = template.paramVars := by
      rw [Registry.paramCount, found] at length
      rw [List.take_of_length_le]
      simp [length, Template.paramVars]
    rw [same]
    have isFlat := holds.resolve_left (whole ▸ absent)
    exact .var ⟨flat v isFlat, .inl isFlat⟩

section Basic

theorem sees_fail (cause : ErrorCause) (span : Span) : Reaches start.Sees stage post
    (fail cause span : Check α) :=
  .throw _

theorem sees_onSubst {change : Subst → α × Subst}
    (changed : ∀ {subst}, stage.Shows start.subst.Seen subst →
      ∃ later, stage ≤ later ∧ later.Shows start.subst.Seen (change subst).2 ∧
        post later (change subst).1) :
    Reaches start.Sees stage post (onSubst change) :=
  .modifyGet fun here => by
    obtain ⟨later, grown, there, holds⟩ := changed here.shows
    exact ⟨later, grown,
      ⟨there, fun v flat => grown.1.1 v (here.flat v flat), here.registry⟩, holds⟩

theorem sees_freshVars (count : Nat) :
    Reaches start.Sees stage
    (fun later types => types.length = count ∧ ∀ t ∈ types, Bare start later t) (freshVars count) :=
  sees_onSubst fun {subst} here => by
    obtain ⟨world, grown, sound, each⟩ := here.sound.pushMany_own Cell.isNew_unbound count
    obtain ⟨excerpt, vars, seen⟩ := here.excerpt.pushMany Cell.isNew_unbound count
    obtain ⟨longer, length, -⟩ := stage.cells.lengthened_pushMany Cell.isNew_unbound count
    rw [vars] at each length
    exact ⟨⟨world, _⟩, ⟨grown, longer.persists⟩, ⟨sound, excerpt⟩, (List.length_map _).trans length,
      List.forall_mem_map.mpr fun v member => .var ⟨(each v member).1, seen v member⟩⟩

theorem sees_freshVar : Reaches start.Sees stage (Owns start) freshVar :=
  sees_onSubst fun {subst} here => by
    have sound := here.sound.push_own Cell.isNew_unbound
    have first : (⟨stage.cells.size⟩ : TyVar) = ⟨subst.size⟩ := congrArg TyVar.mk here.excerpt.size
    exact ⟨⟨_, (stage.cells.push .unbound).2⟩,
      ⟨World.le_withOwn _ _, (stage.cells.lengthened_push Cell.isNew_unbound).persists⟩,
      ⟨sound, here.excerpt.push Cell.isNew_unbound⟩, .var (.inr first.symm),
        .var (here.excerpt.new (Nat.le_refl _))⟩

theorem sees_lookupCtor? (name : Name) :
    Reaches start.Sees stage (fun _ known => known = start.registry.ctors.get? name)
    (lookupCtor? name) :=
  .get fun _ here => .pure (congrArg (·.get? name) here.registry.ctors)

theorem sees_unify (own : Owns start stage expected) (own' : Owns start stage found) (span : Span) :
    Reaches start.Sees stage (fun later _ => later.Solved (expected, found))
    (unify expected found span) := by
  refine reaches_of_ok fun session after value here run => ?_
  obtain ⟨subst, equal, rfl⟩ := Session.unify_eq_ok.mp run
  obtain ⟨later, grown, shows, solved⟩ := (Stage.reaches_unify own own').ok here.shows equal
  exact ⟨later, grown, ⟨shows, fun v flat => grown.1.1 v (here.flat v flat), here.registry⟩, solved⟩

theorem sees_intTy (width : Nat) : Reaches start.Sees stage (Owns start) (intTy width) :=
  .modifyGet fun here =>
    ⟨stage, le_rfl, ⟨here.shows, here.flat, Registry.serves_intTemplate here.registry width⟩,
      owns_named _⟩

theorem sees_literal (value : Literal) (span : Span) :
    Reaches start.Sees stage (fun later found => Owns start later found.2)
    (literal value span) := by
  unfold literal
  cases value with
  | bool _ => exact .pure (owns_named _)
  | int magnitude width =>
    refine .get fun session _ => ?_
    dsimp only
    split
    · exact sees_fail _ _
    · exact (sees_intTy _).bind fun _ own => .pure own
  | str raw =>
    dsimp only
    split
    · exact sees_fail _ _
    · exact .pure (owns_named _)

theorem sees_ctorPattern {name : Name} (flats : start.FlatFields name) (span : Span) :
    Reaches start.Sees stage
    (fun later found => (∀ t ∈ found.2.1, Owns start later t) ∧ Owns start later found.2.2 ∧
      ∃ args, found.2 = (start.registry.fieldsAt found.1.template found.1.index args,
        .nominal found.1.template args))
      (ctorPattern name span) := by
  refine (sees_lookupCtor? name).bind fun {_ known} _ same => ?_
  cases known with
  | none => exact sees_fail _ _
  | some info =>
    unfold ctorInstance
    simp only [bind_assoc]
    refine .get fun session here => (sees_freshVars _).bind fun grown ⟨length, each⟩ => ?_
    rw [here.registry.paramCount] at length
    simp only [pure_bind, here.registry.fieldsAt]
    have fields :=
      bare_fieldsAt flats same.symm (fun v flat => grown.1.1 v (here.flat v flat)) length each
    exact .pure ⟨fun t member => owns_of_bare (fields t member),
      owns_of_bare (.nominal each), _, rfl⟩

theorem sees_expectFields (name : Name) (expected found : Nat) (span : Span) :
    Reaches start.Sees stage (fun _ _ => found = expected)
    (expectFields name expected found span) := by
  unfold expectFields
  split
  · exact .pure ‹_›
  · exact sees_fail _ _

end Basic

section Places

variable {pat : Pat} {captures' : Captures}

/-- From now on the recorded types are those of the places in the pattern. -/
def Places (start : Session) (stage : Stage) (captures : Captures) (pat : Pat) (ty : Ty) : Prop :=
  ∀ (final : Stage) (subst : Subst), stage ≤ final → final.Shows start.subst.Seen subst →
    pat.Sited subst.Same start.registry captures ty

theorem Places.grow (places : Places start stage captures pat ty) (grown : stage ≤ later) :
    Places start later captures pat ty :=
  fun final subst grown' shows => places final subst (grown.trans grown') shows

theorem Places.mono (places : Places start stage captures pat ty) (more : captures ⊆ captures') :
    Places start stage captures' pat ty :=
  fun final subst grown shows => (places final subst grown shows).mono more

theorem same_of_solved {final : Stage} {subst : Subst} (own : Owns start stage expected)
    (own' : Owns start stage found)
    (grown : stage ≤ final) (shows : final.Shows start.subst.Seen subst)
    (solved : stage.Solved (expected, found)) :
    subst.Same expected found :=
  shows.same (Stage.lasts_shown grown own) (Stage.lasts_shown grown own')
    (Stage.lasts_solved grown solved)

theorem same_refl {final : Stage} {subst : Subst} (own : Owns start stage ty)
    (grown : stage ≤ final) (shows : final.Shows start.subst.Seen subst) : subst.Same ty ty :=
  same_of_solved own own grown shows fun final _ _ => final.cells.equal_refl ty

theorem Places.retype (places : Places start stage captures pat found)
    (own : Owns start stage expected)
    (own' : Owns start stage found) (solved : stage.Solved (expected, found)) :
    Places start stage captures pat expected :=
  fun final subst grown shows => (places final subst grown shows).retype Subst.Same.trans
    Subst.Same.symm (same_of_solved own own' grown shows solved)

theorem places_tuple {elems : List (Pat × Ty)} (each : ∀ elem ∈ elems, Owns start stage elem.2)
    (places : ∀ elem ∈ elems, Places start stage captures elem.1 elem.2) :
    Places start stage captures (.tuple (elems.map (·.1))) (.tuple (elems.map (·.2))) := by
  intro final subst grown shows
  refine .tuple (same_refl (owns_tuple (List.forall_mem_map.mpr each)) grown shows) (by simp)
    fun entry member => ?_
  rw [List.zip_map', List.mem_map] at member
  obtain ⟨elem, inside, rfl⟩ := member
  exact places elem inside final subst grown shows

structure Fills (start : Session) (captures : Captures) (fields : List Ty) (stage : Stage)
    (pats : List Pat) : Prop where
  length : pats.length = fields.length
  each : ∀ entry ∈ pats.zip fields, Places start stage captures entry.1 entry.2

theorem fills_nil : Fills start captures [] stage [] := ⟨rfl, nofun⟩

theorem Fills.cons {field : Ty} {fields : List Ty} {pats : List Pat}
    (first : Places start stage captures pat field)
    (rest : Fills start captures fields stage pats) : Fills start captures (field :: fields) stage
    (pat :: pats) :=
  ⟨congrArg Nat.succ rest.length, List.forall_mem_cons.mpr ⟨first, rest.each⟩⟩

theorem Fills.ctor {name : Name} {template : TemplateId} {index : Nat} {args : List Ty}
    {pats : List Pat}
    (fills : Fills start captures (start.registry.fieldsAt template index args) stage pats)
    (own : Owns start stage (.nominal template args)) :
    Places start stage captures (.ctor name template index pats) (.nominal template args) :=
  fun final subst grown shows => .ctor (same_refl own grown shows) fills.length
    fun entry member => fills.each entry member final subst grown shows

/-- Names recorded so far, with more to come. -/
structure Collects (start : Session) (captures : Captures) (stage : Stage)
    (captures' : Captures) : Prop where
  each : ∀ capture ∈ captures', Owns start stage capture.2
  more : captures ⊆ captures'

theorem Collects.grow (keeps : Collects start captures stage captures') (grown : stage ≤ later) :
    Collects start captures later captures' :=
  ⟨fun capture member => Stage.lasts_shown grown (keeps.each capture member), keeps.more⟩

theorem keeps_refl (each : ∀ capture ∈ captures, Owns start stage capture.2) :
    Collects start captures stage captures :=
  ⟨each, List.Subset.refl _⟩

theorem sees_addCapture (name : Name) (span : Span) :
    Reaches start.Sees stage (fun _ result => result.2 = captures ++ [(name, ty)])
    (addCapture name ty span captures) :=
  reaches_of_ok fun session after result here run => by
    obtain ⟨rfl, added, -⟩ := Session.addCapture_eq_ok run
    exact ⟨stage, le_rfl, here, added⟩

theorem sees_addCaptures (span : Span) :
    Reaches start.Sees stage (fun _ result => result.2 = captures ++ shared)
      ((forM shared fun (name, ty) => addCapture name ty span : Capturing PUnit) captures) := by
  induction shared generalizing stage captures with
  | nil => exact .pure (List.append_nil _).symm
  | cons capture shared ih =>
    rw [List.forM_cons]
    refine .state_bind (sees_addCapture capture.1 span) fun {_ _ captures'} _ added => ?_
    obtain rfl : captures' = captures ++ [capture] := added
    exact ih.imp fun _ added => added.trans (List.append_assoc _ _ _)

theorem sees_agree (holds : ∀ capture ∈ shared, Owns start stage capture.2)
    (holds' : ∀ capture ∈ own, Owns start stage capture.2) (span : Span) :
    Reaches start.Sees stage (fun later _ => ∀ capture ∈ own, ∃ ty, (capture.1, ty) ∈ shared ∧
      Owns start later ty ∧ Owns start later capture.2 ∧ later.Solved (ty, capture.2))
      (agree shared own span) := by
  unfold agree
  cases agreed : unsharedCapture? shared own with
  | some name => exact sees_fail _ _
  | none =>
    obtain ⟨-, inShared⟩ := Session.names_of_unsharedCapture? agreed
    refine .forM_each (fun later capture => (∀ shared' ∈ shared, Owns start later shared'.2) ∧
        Owns start later capture.2 ∧ capture.1 ∈ shared.map (·.1))
      (fun later capture => ∃ ty, (capture.1, ty) ∈ shared ∧ Owns start later ty ∧
        Owns start later capture.2 ∧
        later.Solved (ty, capture.2)) ?_ ?_
          (fun capture member => ⟨holds, holds' capture member, inShared capture member⟩) ?_
    · rintro _ _ _ grown ⟨each, own, known⟩
      exact ⟨fun capture member => Stage.lasts_shown grown (each capture member),
        Stage.lasts_shown grown own, known⟩
    · rintro _ _ _ grown ⟨ty, member, own, own', solved⟩
      exact ⟨ty, member, Stage.lasts_shown grown own, Stage.lasts_shown grown own',
        Stage.lasts_solved grown solved⟩
    · rintro later ⟨name, ty⟩ ⟨each, own, known⟩
      dsimp only
      cases found : shared.lookup name with
      | none =>
        obtain ⟨entry, member, rfl⟩ := List.mem_map.mp known
        have absent := List.lookup_eq_none_iff.mp found entry member
        simp at absent
      | some sharedTy =>
        obtain ⟨before, rest, entries, -⟩ := List.lookup_eq_some_iff.mp found
        have member : (name, sharedTy) ∈ shared := by simp [entries]
        refine (sees_unify (each _ member) own span).imp fun grown solved => ?_
        exact ⟨sharedTy, member, Stage.lasts_shown grown (each _ member),
          Stage.lasts_shown grown own, solved⟩

theorem sees_wildFields (span : Span) {fields : List Ty} (each : ∀ t ∈ fields, Owns start stage t) :
    Reaches start.Sees stage (fun later pats => Fills start captures fields later pats)
    (wildFields span fields) := by
  induction fields generalizing stage with
  | nil => exact .pure fills_nil
  | cons field fields ih =>
    obtain ⟨own, others⟩ := List.forall_mem_cons.mp each
    refine sees_freshVar.bind fun grown fresh => ?_
    refine (sees_unify (Stage.lasts_shown grown own) fresh span).bind fun grown' _ => ?_
    refine (ih (owns_all (grown.trans grown') others)).bind fun _ fills => .pure (.cons ?_ fills)
    exact fun _ _ _ _ => .any field

/-- A pattern with its type and the names recorded so far. -/
structure Finds (start : Session) (captures : Captures) (stage : Stage)
    (found : (Pat × Ty) × Captures) : Prop where
  own : Owns start stage found.1.2
  keeps : Collects start captures stage found.2
  places : Places start stage found.2 found.1.1 found.1.2

theorem sees_ctor {name : Name} {info : CtorInfo} {fields args : List Ty}
    {subpatterns : Capturing (List Pat)} (own : Owns start stage (.nominal info.template args))
    (shape : fields = start.registry.fieldsAt info.template info.index args)
    (sees : Reaches start.Sees stage
      (fun later found => Fills start found.2 fields later found.1 ∧
        Collects start captures later found.2)
      (subpatterns captures)) :
    Reaches start.Sees stage (Finds start captures) ((do
      let subpatterns ← subpatterns
      pure (.ctor name info.template info.index subpatterns, .nominal info.template args) :
        Capturing (Pat × Ty)) captures) := by
  subst shape
  refine .state_bind sees fun grown ⟨fills, keeps⟩ => .state_pure ?_
  have own := Stage.lasts_shown grown own
  exact ⟨own, keeps, fills.ctor own⟩

mutual

theorem sees_pattern : ∀ (written : Surface.Pattern) {stage : Stage} {captures : Captures},
    written.annotations = [] →
    (∀ name ∈ written.heads, start.FlatFields name) →
    (∀ capture ∈ captures, Owns start stage capture.2) →
    Reaches start.Sees stage (Finds start captures) (pattern written captures)
  | .wild _, _, _, _, _, holds => by
    unfold pattern
    exact .state_lift sees_freshVar fun grown own =>
      .state_pure ⟨own, (keeps_refl holds).grow grown, fun _ _ _ _ => .any _⟩
  | .lit span value, _, _, _, _, holds => by
    unfold pattern
    exact .state_lift (sees_literal value span) fun grown own =>
      .state_pure ⟨own, (keeps_refl holds).grow grown, fun _ _ _ _ => .constant _ _⟩
  | .bind span name, _, _, _, flats, holds => by
    unfold pattern
    unfold Surface.Pattern.heads at flats
    refine .state_lift (sees_lookupCtor? name) fun {_ known} grown _ => ?_
    have keeps := (keeps_refl holds).grow grown
    cases known with
    | some _ =>
      refine .state_lift (sees_ctorPattern (flats name List.mem_cons_self) span) fun {_ found}
        grown' inOrder => ?_
      obtain ⟨info, fields, result⟩ := found
      obtain ⟨-, own, args, shape⟩ := inOrder
      dsimp only at own shape ⊢
      obtain ⟨rfl, rfl⟩ := Prod.mk.inj shape
      refine .state_lift (sees_expectFields name _ _ span) fun further none_ => .state_pure ?_
      have own := Stage.lasts_shown further own
      exact ⟨own, (keeps.grow grown').grow further, Fills.ctor ⟨none_, nofun⟩ own⟩
    | none =>
      refine .state_lift sees_freshVar fun {_ ty} grown' own => ?_
      refine .state_bind (sees_addCapture name span) fun {_ _ captures'} further added =>
        .state_pure ?_
      obtain rfl : captures' = _ ++ [(name, ty)] := added
      have own := Stage.lasts_shown further own
      have keeps := (keeps.grow grown').grow further
      refine ⟨own, ⟨List.forall_mem_append.mpr ⟨keeps.each, List.forall_mem_singleton.mpr own⟩, ?_⟩,
        fun final subst grown shows => ?_⟩
      · exact List.subset_append_left _ _
      · exact .capturing (by simp) (same_refl own grown shows)
  | .tuple _ [inner], _, _, bare, flats, holds => by
    unfold pattern
    unfold Surface.Pattern.annotations Surface.Pattern.annotationsAll at bare
    unfold Surface.Pattern.heads Surface.Pattern.headsAll at flats
    exact sees_pattern inner (List.append_eq_nil_iff.mp bare).1
      (List.forall_mem_append.mp flats).1 holds
  | .tuple _ [], _, _, bare, flats, holds => by
    unfold pattern
    refine .state_bind (sees_elementPatterns [] bare flats holds) fun _ ⟨keeps, each⟩ =>
      .state_pure ?_
    exact ⟨owns_tuple (List.forall_mem_map.mpr fun elem member => (each elem member).1), keeps,
      places_tuple (fun elem member => (each elem member).1) fun elem member =>
        (each elem member).2⟩
  | .tuple _ (first :: second :: rest), _, _, bare, flats, holds => by
    unfold pattern
    unfold Surface.Pattern.annotations at bare
    unfold Surface.Pattern.heads at flats
    refine .state_bind (sees_elementPatterns (first :: second :: rest) bare flats holds)
      fun _ ⟨keeps, each⟩ => .state_pure ?_
    exact ⟨owns_tuple (List.forall_mem_map.mpr fun elem member => (each elem member).1), keeps,
      places_tuple (fun elem member => (each elem member).1) fun elem member =>
        (each elem member).2⟩
  | .ctor span name args, _, _, bare, flats, holds => by
    unfold pattern
    unfold Surface.Pattern.annotations at bare
    unfold Surface.Pattern.heads at flats
    rw [List.forall_mem_cons] at flats
    obtain ⟨flatsHere, flats⟩ := flats
    refine .state_lift (sees_ctorPattern flatsHere span) fun {_ found} grown inOrder => ?_
    obtain ⟨info, fields, result⟩ := found
    obtain ⟨each, own, typeArgs, shape⟩ := inOrder
    dsimp only at each own shape ⊢
    rw [Prod.mk.injEq] at shape
    obtain ⟨shape, rfl⟩ := shape
    have keeps := (keeps_refl holds).grow grown
    split
    · split
      · next elements several =>
        unfold Surface.Pattern.annotationsAll Surface.Pattern.annotations at bare
        unfold Surface.Pattern.headsAll Surface.Pattern.heads at flats
        exact sees_ctor own shape
          (sees_fieldPatterns elements fields (List.append_eq_nil_iff.mp bare).1
          (List.forall_mem_append.mp flats).1 several.2 each keeps.each)
      · next tupleSpan elements _ =>
        refine .state_lift (sees_expectFields _ _ _ _) fun grown' one => ?_
        exact sees_ctor (Stage.lasts_shown grown' own) shape
          (sees_fieldPatterns [.tuple tupleSpan elements] fields bare flats
          one (owns_all grown' each) (keeps.grow grown').each)
    · split
      · exact sees_ctor own shape (.state_lifted (sees_wildFields _ each) fun grown' fills =>
          ⟨fills, keeps.grow grown'⟩)
      · refine .state_lift (sees_expectFields _ _ _ _) fun grown' _ => ?_
        have keeps := keeps.grow grown'
        exact sees_ctor (Stage.lasts_shown grown' own) shape
          (.state_lifted (sees_wildFields _ (owns_all grown' each))
          fun further fills => ⟨fills, keeps.grow further⟩)
    · refine .state_lift (sees_expectFields _ _ _ _) fun grown' length => ?_
      exact sees_ctor (Stage.lasts_shown grown' own) shape
        (sees_fieldPatterns args fields bare flats
        length (owns_all grown' each) (keeps.grow grown').each)
  | .ascribed _ inner type, _, _, bare, _, _ => by
    unfold Surface.Pattern.annotations at bare
    exact absurd (List.append_eq_nil_iff.mp bare).2 (List.cons_ne_nil _ _)
  | .oneOf _ [], _, _, _, _, holds => by
    unfold pattern
    exact .state_lift sees_freshVar fun grown own =>
      .state_pure ⟨own, (keeps_refl holds).grow grown, fun _ _ _ _ => .oneOf nofun⟩
  | .oneOf span (first :: rest), _, _, bare, flats, holds => by
    unfold pattern
    unfold Surface.Pattern.annotations Surface.Pattern.annotationsAll at bare
    unfold Surface.Pattern.heads Surface.Pattern.headsAll at flats
    obtain ⟨bare, others⟩ := List.append_eq_nil_iff.mp bare
    obtain ⟨flats, flats'⟩ := List.forall_mem_append.mp flats
    refine .state_lift (sees_pattern first bare flats (List.forall_mem_nil _)) fun {_ found} grown
      inOrder => ?_
    obtain ⟨⟨pat, ty⟩, shared⟩ := found
    obtain ⟨own, captured, places⟩ := inOrder
    refine .state_lift (sees_alternativePatterns rest others flats' own captured.each) fun {_ pats}
      grown' each => ?_
    refine .state_bind (sees_addCaptures span) fun {_ _ captures'} further added => ?_
    obtain rfl : captures' = _ ++ shared := added
    have all := grown'.trans further
    have own := Stage.lasts_shown all own
    have keeps : Collects start _ _ (_ ++ shared) :=
      ⟨List.forall_mem_append.mpr ⟨((keeps_refl holds).grow (grown.trans all)).each,
          (captured.grow all).each⟩, List.subset_append_left _ _⟩
    split
    · exact .state_pure ⟨own, keeps, (places.grow all).mono (List.subset_append_right _ _)⟩
    · refine .state_pure ⟨own, keeps, fun final subst grown shows =>
        .oneOf (List.forall_mem_cons.mpr ⟨?_, fun p member => ?_⟩)⟩
      · exact (places final subst (all.trans grown) shows).mono (List.subset_append_right _ _)
      · exact (each p member final subst (further.trans grown) shows).mono
          (List.subset_append_right _ _)
termination_by written => sizeOf written

theorem sees_elementPatterns : ∀ (written : List Surface.Pattern) {stage : Stage}
    {captures : Captures},
    Surface.Pattern.annotationsAll written = [] →
      (∀ name ∈ Surface.Pattern.headsAll written, start.FlatFields name) →
    (∀ capture ∈ captures, Owns start stage capture.2) →
    Reaches start.Sees stage (fun later found => Collects start captures later found.2 ∧
      ∀ elem ∈ found.1, Owns start later elem.2 ∧ Places start later found.2 elem.1 elem.2)
      (elementPatterns written captures)
  | [], _, _, _, _, holds => by
    unfold elementPatterns
    exact .state_pure ⟨keeps_refl holds, nofun⟩
  | first :: rest, _, _, bare, flats, holds => by
    unfold elementPatterns
    unfold Surface.Pattern.annotationsAll at bare
    unfold Surface.Pattern.headsAll at flats
    obtain ⟨bare, others⟩ := List.append_eq_nil_iff.mp bare
    obtain ⟨flats, flats'⟩ := List.forall_mem_append.mp flats
    refine .state_bind (sees_pattern first bare flats holds) fun _ found => ?_
    refine .state_bind (sees_elementPatterns rest others flats' found.keeps.each) fun grown ⟨keeps,
      each⟩ => .state_pure ?_
    refine ⟨⟨keeps.each, List.Subset.trans found.keeps.more keeps.more⟩,
      List.forall_mem_cons.mpr ⟨⟨?_, ?_⟩, each⟩⟩
    · exact Stage.lasts_shown grown found.own
    · exact (found.places.grow grown).mono keeps.more
termination_by written => sizeOf written

theorem sees_fieldPatterns : ∀ (written : List Surface.Pattern) (fields : List Ty) {stage : Stage}
    {captures : Captures},
    Surface.Pattern.annotationsAll written = [] →
      (∀ name ∈ Surface.Pattern.headsAll written, start.FlatFields name) →
    written.length = fields.length → (∀ t ∈ fields, Owns start stage t) →
    (∀ capture ∈ captures, Owns start stage capture.2) →
    Reaches start.Sees stage
      (fun later found => Fills start found.2 fields later found.1 ∧
        Collects start captures later found.2)
      (fieldPatterns written fields captures)
  | [], [], _, _, _, _, _, _, holds => by
    unfold fieldPatterns
    exact .state_pure ⟨fills_nil, keeps_refl holds⟩
  | [], _ :: _, _, _, _, _, length, _, _ => nomatch length
  | _ :: _, [], _, _, _, _, length, _, _ => nomatch length
  | arg :: args, field :: fields, _, _, bare, flats, length, each, holds => by
    unfold fieldPatterns
    unfold Surface.Pattern.annotationsAll at bare
    unfold Surface.Pattern.headsAll at flats
    obtain ⟨bare, others⟩ := List.append_eq_nil_iff.mp bare
    obtain ⟨flats, flats'⟩ := List.forall_mem_append.mp flats
    obtain ⟨own, each⟩ := List.forall_mem_cons.mp each
    refine .state_bind (sees_pattern arg bare flats holds) fun {_ found captures'} grown
      inOrder => ?_
    obtain ⟨own', keeps, places⟩ := inOrder
    have own := Stage.lasts_shown grown own
    refine .state_lift (sees_unify own own' arg.span) fun grown' solved => ?_
    refine .state_bind (sees_fieldPatterns args fields others flats' (Nat.succ.inj length)
      (owns_all (grown.trans grown') each) (keeps.grow grown').each) fun further ⟨fills, keeps'⟩ =>
        .state_pure ?_
    have here :=
      (places.grow grown').retype (Stage.lasts_shown grown' own)
        (Stage.lasts_shown grown' own') solved
    exact ⟨.cons ((here.grow further).mono keeps'.more) fills, keeps'.each,
      List.Subset.trans keeps.more keeps'.more⟩
termination_by written => sizeOf written

theorem sees_alternativePatterns : ∀ (written : List Surface.Pattern) {stage : Stage} {ty : Ty}
    {shared : Captures},
    Surface.Pattern.annotationsAll written = [] →
      (∀ name ∈ Surface.Pattern.headsAll written, start.FlatFields name) →
    Owns start stage ty → (∀ capture ∈ shared, Owns start stage capture.2) →
    Reaches start.Sees stage (fun later pats => ∀ p ∈ pats, Places start later shared p ty)
      (alternativePatterns ty shared written)
  | [], _, _, _, _, _, _, _ => by
    unfold alternativePatterns
    exact .pure nofun
  | alternative :: rest, _, _, _, bare, flats, own, holds => by
    unfold alternativePatterns
    unfold Surface.Pattern.annotationsAll at bare
    unfold Surface.Pattern.headsAll at flats
    obtain ⟨bare, others⟩ := List.append_eq_nil_iff.mp bare
    obtain ⟨flats, flats'⟩ := List.forall_mem_append.mp flats
    refine (sees_pattern alternative bare flats (List.forall_mem_nil _)).bind fun {_ found} grown
      inOrder => ?_
    obtain ⟨⟨pat, ownTy⟩, captures⟩ := found
    obtain ⟨own', keeps, places⟩ := inOrder
    have own := Stage.lasts_shown grown own
    refine (sees_unify own own' alternative.span).bind fun grown' solved => ?_
    have shared' :=
      fun capture member => Stage.lasts_shown (grown.trans grown') (holds capture member)
    refine (sees_agree shared' (keeps.grow grown').each alternative.span).bind fun further
      agreed => ?_
    have all := grown'.trans further
    refine (sees_alternativePatterns rest others flats' (Stage.lasts_shown all own)
      fun capture member => Stage.lasts_shown further (shared' capture member)).bind fun last
        each => .pure ?_
    refine List.forall_mem_cons.mpr ⟨fun final subst grown'' shows => ?_, each⟩
    have here :=
      (places.grow grown').retype (Stage.lasts_shown grown' own)
        (Stage.lasts_shown grown' own') solved
    -- What is recorded for a name here was made equal to what is recorded for it already.
    refine (here final subst (further.trans (last.trans grown'')) shows).rerecord
      fun {name recorded ty} member equal => ?_
    obtain ⟨sharedTy, known, own, own', solved⟩ := agreed _ member
    exact ⟨sharedTy, known, (same_of_solved own own' (last.trans grown'') shows solved).trans equal⟩
termination_by written => sizeOf written

end

end Places

section Whole

variable {written : Surface.Pattern} {session after : Session} {pat : Pat}

theorem sees_start (session : Session) :
    session.Sees ⟨session.subst.inWorld, session.subst.flattened⟩ session where
  shows := ⟨session.subst.shaped_flattened, session.subst.excerpt_flattened⟩
  flat _ := Subst.Flat.inside
  registry := ⟨rfl, fun _ => rfl, fun _ _ _ => rfl⟩

/-- The names that a pattern records are those that it captures, in order and none twice, and all
alternatives of every choice in it capture the same ones. If it has no annotations and fields
without quantifiers, the type recorded for a name resolves to that of its place in every
alternative, up to the names of parameters. -/
theorem captures_consistent
    (run : (pattern written).run [] session = .ok ((pat, ty), captures) after) :
    captures.map (·.1) = pat.captures ∧ (captures.map (·.1)).Nodup ∧ pat.Uniform ∧
      (written.annotations = [] → (∀ name ∈ written.heads, session.FlatFields name) →
        pat.Sited after.subst.Same session.registry captures ty) := by
  obtain ⟨records, uniform⟩ := records_pattern written run
  obtain ⟨names, nodup⟩ := records.of_nil
  refine ⟨names, names ▸ nodup, uniform, fun bare flats => ?_⟩
  obtain ⟨later, -, here, finds⟩ :=
    (sees_pattern written bare flats (List.forall_mem_nil _)).ok (sees_start session) run
  exact finds.places later after.subst le_rfl here.shows

/-- The type `pair a b` with the constructor `P a b`. -/
def pairType : Surface.Decl :=
  .data default
    [⟨default, "pair", ["a", "b"], [⟨default, "P", [.var default "a", .var default "b"]⟩]⟩]

def eitherOrder : Surface.Pattern :=
  .oneOf default [.ctor default "P" [.bind default "x", .bind default "y"],
    .ctor default "P" [.bind default "y", .bind default "x"]]

/-- Names that alternatives capture in a different order make both components of the pair have one
type. -/
theorem captures_consistent_eitherOrder : ∃ checked session pat ty captures after,
    Check.decl pairType (Session.start .standard) = .ok checked session ∧
    (pattern eitherOrder).run [] session = .ok ((pat, ty), captures) after ∧
      captures.map (·.1) = ["x", "y"] ∧
      pat.Sited after.subst.Same session.registry captures ty := by
  have shown : gives (fun _ session => decide (
        (session.registry.ctors.get? "P").map (fun info => (info.template, info.index)) =
        some (⟨2⟩, 0) ∧
        session.registry.ctors.get? "x" = none ∧ session.registry.ctors.get? "y" = none ∧
        session.registry.template? ⟨2⟩ =
          some ⟨"pair", [(⟨0⟩, .star), (⟨1⟩, .star)], [⟨"P", [.var ⟨0⟩, .var ⟨1⟩]⟩], true, none⟩) &&
      gives (fun found _ => decide (found.2.map (·.1) = ["x", "y"]))
        ((pattern eitherOrder).run [] session))
      (Check.decl pairType (Session.start .standard)) = true := by cbv
  obtain ⟨checked, session, declared, shown⟩ := exists_of_gives shown
  obtain ⟨tables, shown⟩ := Bool.and_eq_true_iff.mp shown
  obtain ⟨⟨⟨pat, ty⟩, captures⟩, after, run, names⟩ := exists_of_gives shown
  obtain ⟨ctor, noX, noY, template⟩ := of_decide_eq_true tables
  refine ⟨checked, session, pat, ty, captures, after, declared, run, of_decide_eq_true names, ?_⟩
  refine (captures_consistent run).2.2.2 rfl ?_
  have flatPair : session.FlatFields "P" := by
    intro info found dataCase known isTemplate isCase
    rw [known, Option.map_some, Option.some.injEq, Prod.mk.injEq] at ctor
    rw [ctor.1, template] at isTemplate
    obtain rfl := Option.some.inj isTemplate
    rw [ctor.2] at isCase
    obtain rfl := Option.some.inj isCase
    exact List.forall_mem_cons.mpr ⟨.var (.inl (by decide)),
      List.forall_mem_singleton.mpr (.var (.inl (by decide)))⟩
  have other : ∀ {name : Name}, session.registry.ctors.get? name = none →
      session.FlatFields name := by
    intro name absent info _ _ known
    simp [absent] at known
  exact List.forall_mem_cons.mpr ⟨flatPair,
    List.forall_mem_cons.mpr ⟨other noX, List.forall_mem_cons.mpr ⟨other noY,
    List.forall_mem_cons.mpr ⟨flatPair,
      List.forall_mem_cons.mpr ⟨other noY, List.forall_mem_singleton.mpr (other noX)⟩⟩⟩⟩⟩

end Whole

end Check

end PolyCheck
