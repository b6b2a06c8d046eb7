import PolyCheck.Proofs.Session.Committed
import PolyCheck.Proofs.Session.Expressions

/-! The table of constructors. Every entry stands for a case of a closed definition, and its scheme
is the type of that case over the parameters of the definition. A constructor that is named, applied
or matched gets its fields and its result from the definition and not from the scheme; they make up
the type of the scheme at new variables all the same. -/
namespace PolyCheck

open Run

section Instances

variable {vars : List TyVar} {types : List Ty}

theorem Assignment.map_image_ofLists (distinct : vars.Nodup) (length : types.length = vars.length) :
    vars.map (Assignment.ofLists vars types).image = types := by
  have shown : ∀ rest : Assignment,
      vars.map (Assignment.image (Assignment.ofLists vars types ++ rest)) = types := by
    induction vars generalizing types with
    | nil => exact fun _ => (List.length_eq_zero_iff.mp length).symm
    | cons v vars ih =>
      obtain ⟨absent, distinct⟩ := List.nodup_cons.mp distinct
      obtain _ | ⟨ty, types⟩ := types
      · cases length
      · intro rest
        have split : Assignment.ofLists (v :: vars) (ty :: types) ++ rest =
            Assignment.ofLists vars types ++ ((v, ty) :: rest) := by
          simp [Assignment.ofLists]
        have missing : (Assignment.ofLists vars types).lookup v = none := by
          rw [List.lookup_eq_none_iff]
          intro entry member
          rw [bne_iff_ne]
          rintro rfl
          exact absent (List.of_mem_zip (List.mem_reverse.mp member)).1
        rw [split, List.map_cons, ih distinct (Nat.succ.inj length)]
        congr 1
        simp [Assignment.image, List.lookup_append, missing]
  simpa using shown []

theorem substitute_ctorTy (assignment : Assignment) (fields : List Ty) (result : Ty) :
    (ctorTy fields result).substitute assignment =
      ctorTy (fields.map (Ty.substitute assignment)) (result.substitute assignment) := by
  rcases fields with _ | ⟨field, _ | ⟨other, fields⟩⟩
  · rfl
  · rfl
  · simp only [ctorTy, Ty.tupled, Ty.substitute, Ty.substituteAll_eq_map, List.map_cons]

theorem Template.substitute_selfTy {template : Template} (distinct : template.paramVars.Nodup)
    (length : types.length = template.paramVars.length) (id : TemplateId) :
    (template.selfTy id).substitute (.ofLists template.paramVars types) = .nominal id types := by
  have images := Assignment.map_image_ofLists distinct length
  rw [selfTy, Ty.substitute, Ty.substituteAll_eq_map, List.map_map]
  exact congrArg _ images

/-- The type of a scheme with given types in place of the variables that it quantifies. -/
def Scheme.at (scheme : Scheme) (types : List Ty) : Ty :=
  scheme.ty.substitute (.ofLists scheme.vars types)

end Instances

theorem Subst.length_pushMany (subst : Subst) (cell : Cell) (count : Nat) :
    (subst.pushMany cell count).1.length = count := by
  induction count generalizing subst with
  | zero => rfl
  | succ count ih => exact congrArg Nat.succ (ih _)

namespace Registry

variable {base registry after : Registry} {info : CtorInfo} {template : Template}
  {dataCase : DataCase}

/-- A constructor that is a case of a closed definition, with the type of that case over the
parameters. -/
structure Describes (registry : Registry) (info : CtorInfo) (template : Template)
    (dataCase : DataCase) : Prop where
  known : registry.template? info.template = some template
  isSealed : template.isSealed = true
  inside : template.cases[info.index]? = some dataCase
  name : dataCase.name = info.name
  arity : dataCase.fields.length = info.arity
  distinct : template.paramVars.Nodup
  scheme : info.scheme =
    ⟨template.paramVars, ctorTy dataCase.fields (template.selfTy info.template)⟩

/-- Every entry of the table of constructors is as its definition describes it. -/
def Agrees (registry : Registry) : Prop :=
  ∀ name info, registry.ctors.get? name = some info →
    info.name = name ∧ ∃ template dataCase, registry.Describes info template dataCase

theorem Describes.grow (describes : registry.Describes info template dataCase)
    (grows : registry.Grows after) : after.Describes info template dataCase :=
  { describes with known := grows _ _ describes.known }

theorem Agrees.of_tables (agrees : registry.Agrees)
    (templates : after.templates = registry.templates)
    (ctors : after.ctors = registry.ctors) : after.Agrees := by
  intro name info entry
  obtain ⟨same, template, dataCase, describes⟩ := agrees name info (ctors ▸ entry)
  exact ⟨same, template, dataCase, describes.grow fun id _ known => by rwa [template?, templates]⟩

theorem Agrees.adding (agrees : base.Agrees) (adding : base.Adding registry) : registry.Agrees := by
  intro name info entry
  obtain ⟨same, template, dataCase, describes⟩ := agrees name info (adding.ctors ▸ entry)
  exact ⟨same, template, dataCase, describes.grow adding.grows⟩

theorem describes_of_mem_ctors {id : TemplateId} (known : registry.template? id = some template)
    (isSealed : template.isSealed = true) (distinct : template.paramVars.Nodup)
    (member : info ∈ template.ctors id) : ∃ dataCase,
      registry.Describes info template dataCase := by
  obtain ⟨⟨dataCase, index⟩, inCases, rfl⟩ := List.mem_map.mp member
  have inside : template.cases[index]? = some dataCase := by
    simpa using List.mem_zipIdx_iff_getElem?.mp inCases
  exact ⟨dataCase, known, isSealed, inside, rfl, rfl, distinct, rfl⟩

theorem Agrees.foldl_defineCtor (agrees : registry.Agrees) {ctors : List CtorInfo}
    (each : ∀ info ∈ ctors, ∃ template dataCase, registry.Describes info template dataCase) :
    (ctors.foldl Registry.defineCtor registry).Agrees := by
  induction ctors generalizing registry with
  | nil => exact agrees
  | cons info ctors ih =>
    have same : ∀ id, (registry.defineCtor info).template? id = registry.template? id :=
      fun id => template?_record _ _ id
    have grows : registry.Grows (registry.defineCtor info) :=
      fun id _ known => (same id).trans known
    obtain ⟨first, rest⟩ := List.forall_mem_cons.mp each
    refine ih (fun name found entry => ?_) fun other member => ?_
    · rw [defineCtor, ctors_record, Table.get?_insert] at entry
      split at entry
      · rename_i named
        obtain rfl := Option.some.inj entry
        obtain ⟨template, dataCase, describes⟩ := first
        exact ⟨named.symm, template, dataCase, describes.grow grows⟩
      · obtain ⟨named, template, dataCase, describes⟩ := agrees name found entry
        exact ⟨named, template, dataCase, describes.grow grows⟩
    · obtain ⟨template, dataCase, describes⟩ := rest other member
      exact ⟨template, dataCase, describes.grow grows⟩

theorem Describes.fieldsAt (describes : registry.Describes info template dataCase)
    (args : List Ty) : registry.fieldsAt info.template info.index args =
      dataCase.fields.map (Ty.substitute (.ofLists template.paramVars args)) := by
  rw [Registry.fieldsAt, describes.known, Option.bind_some, Template.fieldsAt?, describes.inside]
  rfl

theorem Describes.ctorTy_fieldsAt (describes : registry.Describes info template dataCase)
    {args : List Ty} (length : args.length = info.scheme.vars.length) :
    ctorTy (registry.fieldsAt info.template info.index args) (.nominal info.template args) =
      info.scheme.at args := by
  rw [describes.scheme] at length
  rw [describes.fieldsAt, Scheme.at, describes.scheme, substitute_ctorTy,
    Template.substitute_selfTy describes.distinct length]

theorem Describes.paramCount (describes : registry.Describes info template dataCase) :
    registry.paramCount info.template = info.scheme.vars.length := by
  simp [Registry.paramCount, describes.known, describes.scheme, Template.paramVars]

end Registry

namespace Check

variable {tables : Registry}

/-- Definitions have been added to some tables, each with different variables for its parameters. -/
def Lists (tables registry : Registry) : Prop :=
  tables.Adding registry ∧ ∀ id template, tables.templates.size ≤ id.index →
    registry.template? id = some template → template.paramVars.Nodup

theorem Lists.sameTemplates {registry after : Registry} (lists : Lists tables registry)
    (templates : after.templates = registry.templates) (ctors : after.ctors = registry.ctors) :
    Lists tables after := by
  refine ⟨lists.1.sameTemplates templates ctors, fun id template new known => ?_⟩
  rw [Registry.template?, templates] at known
  exact lists.2 id template new known

theorem Lists.alloc {registry : Registry} (lists : Lists tables registry) {template : Template}
    (distinct : template.paramVars.Nodup) : Lists tables (registry.alloc template).2 := by
  refine ⟨lists.1.alloc template, fun id found new known => ?_⟩
  rw [Registry.template?_alloc] at known
  split at known
  · obtain rfl := Option.some.inj known
    exact distinct
  · exact lists.2 id found new known

theorem solving_adding : Solving fun _ registry => tables.Adding registry where
  push _ adding := adding
  write _ _ _ adding := adding
  int width adding := by
    rw [Registry.intTemplate]
    split
    · exact adding
    · exact (adding.alloc _).sameTemplates (Registry.templates_record _ _)
        (Registry.ctors_record _ _)

theorem declaring_lists :
    Declaring (fun _ registry => Lists tables registry)
    (fun id => tables.templates.size ≤ id.index) where
  push _ lists := lists
  int width lists := by
    rw [Registry.intTemplate]
    split
    · exact lists
    · have none : (Template.ofBuiltin ("i" ++ toString width) (.int width)).paramVars.Nodup :=
        List.nodup_nil
      exact (lists.alloc none).sameTemplates (Registry.templates_record _ _)
        (Registry.ctors_record _ _)
  alloc _ distinct lists := ⟨lists.alloc distinct, lists.1.size_le⟩
  defineData _ _ lists :=
    lists.sameTemplates (Registry.templates_record _ _) (Registry.ctors_record _ _)
  modify {_ _ id change} isOwn revises lists := by
    refine ⟨lists.1.modifyTemplate isOwn change, fun other template new known => ?_⟩
    rw [Registry.template?_modify] at known
    split at known
    · rename_i same
      subst same
      obtain ⟨old, before, rfl⟩ := Option.map_eq_some_iff.mp known
      rw [(revises old before).params]
      exact lists.2 _ old new before
    · exact lists.2 other template new known

end Check

namespace Elaborate

open Check

theorem sealed_of_forM_sealData {ids : List TemplateId} {state state' : Elaborator}
    {before after : Session}
    {value : PUnit} (run : (forM ids sealData) state before = .ok (value, state') after)
    {id : TemplateId}
    {template : Template} (known : after.registry.template? id = some template)
    (isSealed : id ∈ ids ∨ ∀ old, before.registry.template? id = some old → old.isSealed = true) :
    template.isSealed = true := by
  induction ids generalizing state before with
  | nil =>
    obtain ⟨-, -, rfl⟩ := state_pure_eq_ok.mp run
    exact isSealed.elim (fun member => absurd member List.not_mem_nil) fun old => old template known
  | cons first ids ih =>
    rw [List.forM_cons] at run
    obtain ⟨⟨⟩, _, middle, here, rest⟩ := state_bind_eq_ok.mp run
    have settled : middle.registry = before.registry.modifyTemplate first fun template =>
        (template.mapKinds state.kinds.defaulted).freeze := by
      obtain ⟨-, rfl⟩ := EStateM.Result.ok.inj here
      rfl
    refine ih rest (or_iff_not_imp_left.mpr fun later old found => ?_)
    rw [settled, Registry.template?_modify] at found
    split at found
    · obtain ⟨_, -, rfl⟩ := Option.map_eq_some_iff.mp found
      rfl
    · rename_i different
      refine isSealed.elim (fun member => ?_) fun sealed_ => sealed_ old found
      exact absurd ((List.mem_cons.mp member).resolve_right later).symm different

theorem sealed_of_dataGroup {group : List Surface.DataDecl} {ids : List TemplateId}
    {state : Elaborator}
    {before after : Session} (run : (dataGroup group).run' state before = .ok ids after)
    {id : TemplateId}
    (member : id ∈ ids) {template : Template}
    (known : after.registry.template? id = some template) :
    template.isSealed = true := by
  obtain ⟨⟨found, state'⟩, ran, same⟩ := map_eq_ok.mp run
  obtain ⟨entered, _, _, -, filled⟩ := state_bind_eq_ok.mp ran
  obtain ⟨⟨⟩, _, _, -, settled⟩ := state_bind_eq_ok.mp filled
  obtain ⟨⟨⟩, _, _, closed, ended⟩ := state_bind_eq_ok.mp settled
  obtain ⟨rfl, rfl, rfl⟩ := state_pure_eq_ok.mp ended
  subst same
  exact sealed_of_forM_sealData closed known (.inl member)

end Elaborate

namespace Session

open Check

variable {options : Options} {session after : Session} {written : Surface.Decl}
  {checked : CheckedDecl}

theorem agrees_unit {before reached : Session} (agrees : before.registry.Agrees)
    (run : unit written before = .ok checked reached) : reached.registry.Agrees := by
  have kept : ∀ {α : Type} {check : Check α} {value : α},
      Steady (fun _ registry => before.registry.Adding registry) anything check →
      check before = .ok value reached → reached.registry.Agrees := by
    intro α check value steady ran
    have keeps := steady.keeps before (Registry.adding_refl _)
    rw [ran] at keeps
    exact agrees.adding keeps.1
  cases written with
  | data span group =>
    obtain ⟨ids, ran, -⟩ := map_eq_ok.mp run
    obtain ⟨middle, filled, rfl⟩ := data_eq_ok ran
    have lists :=
      ((Elaborate.steady_dataGroup declaring_lists group).run' .forDeclaration).keeps before
      ⟨Registry.adding_refl _, fun id template new known =>
        absurd (Registry.index_lt_of_template? known) (Nat.not_lt_of_ge new)⟩
    rw [filled] at lists
    obtain ⟨⟨adding, distinct⟩, isOwn⟩ := lists
    refine (agrees.adding adding).foldl_defineCtor fun info member => ?_
    obtain ⟨id, inside, template, known, inCtors⟩ := Registry.mem_declaredCtors.mp member
    exact ⟨template,
      Registry.describes_of_mem_ctors known (Elaborate.sealed_of_dataGroup filled inside known)
      (distinct id template (isOwn id inside) known) inCtors⟩
  | synonym span name params body =>
    have lists :=
      (steady_synonym declaring_lists.toGrowing name
        (fun _ _ lists => lists.sameTemplates (Registry.templates_record _ _)
      (Registry.ctors_record _ _)) params body span).keeps before
      ⟨Registry.adding_refl _, fun id template new known =>
        absurd (Registry.index_lt_of_template? known) (Nat.not_lt_of_ge new)⟩
    obtain ⟨⟨⟩, middle, ran, ended⟩ := bind_eq_ok.mp run
    obtain ⟨-, rfl⟩ := pure_eq_ok.mp ended
    rw [ran] at lists
    exact agrees.adding lists.1.1
  | define span recursive bindings =>
    obtain ⟨definitions, ran, -⟩ := map_eq_ok.mp run
    exact kept (steady_group solving_adding recursive bindings) ran
  | eval span expr =>
    obtain ⟨term, ran, -⟩ := map_eq_ok.mp run
    exact kept (steady_infer solving_adding expr) ran

theorem Reachable.agrees (reachable : session.Reachable options) : session.registry.Agrees := by
  refine reachable.keeps (·.registry.Agrees) (fun _ _ entry => by cases entry)
    (fun agrees accepted => ?_) fun _ _ agrees => agrees
  obtain ⟨found, reached, run, -, rfl⟩ := exists_unit_of_ok accepted
  have before : (opened _).registry.Agrees := agrees.of_tables rfl rfl
  exact (agrees_unit before run).of_tables rfl rfl

end Session

namespace Check

variable {during : Session} {name : Name} {info : CtorInfo} {template : Template}
  {dataCase : DataCase}

/-- The session with new variables for what the scheme of a constructor quantifies. -/
def instanceOf (during : Session) (info : CtorInfo) : List Ty × Session :=
  let made := during.subst.pushMany .unbound info.scheme.vars.length
  (made.1.map .var, { during with subst := made.2 })

theorem ctorInstance_apply (describes : during.registry.Describes info template dataCase) :
    ctorInstance info during = .ok
      (during.registry.fieldsAt info.template info.index (instanceOf during info).1,
        .nominal info.template (instanceOf during info).1) (instanceOf during info).2 := by
  rw [instanceOf, ← describes.paramCount]
  rfl

theorem fieldPatterns_of_wildFields {span : Span} {fields : List Ty} {captures : Captures}
    {before after : Session} {pats : List Pat}
    (run : wildFields span fields before = .ok pats after) :
    fieldPatterns (fields.map fun _ => .wild span) fields captures before = .ok
    (pats, captures) after := by
  induction fields generalizing before pats with
  | nil =>
    simp only [wildFields] at run
    obtain ⟨rfl, rfl⟩ := pure_eq_ok.mp run
    simp only [List.map_nil, fieldPatterns]
    rfl
  | cons field fields ih =>
    simp only [wildFields] at run
    obtain ⟨ty, middle, made, run⟩ := bind_eq_ok.mp run
    obtain ⟨⟨⟩, unified, equal, run⟩ := bind_eq_ok.mp run
    obtain ⟨rest, _, others, run⟩ := bind_eq_ok.mp run
    obtain ⟨rfl, rfl⟩ := pure_eq_ok.mp run
    rw [List.map_cons, fieldPatterns]
    have first : pattern (.wild span) captures before = .ok ((.any, ty), captures) middle := by
      rw [pattern]
      exact state_lift_bind_eq_ok.mpr ⟨ty, middle, made, rfl⟩
    refine state_bind_eq_ok.mpr ⟨_, _, _, first, ?_⟩
    refine state_lift_bind_eq_ok.mpr ⟨_, _, equal, ?_⟩
    exact state_bind_eq_ok.mpr ⟨_, _, _, ih others, rfl⟩

/-- A pattern for values of a constructor: one pattern is checked against each of its fields, and
its type is the result. -/
def Matched (made : Session) (info : CtorInfo) (fields : List Ty) (result : Ty)
    (captures own : Captures) (pat : Pat) (ty : Ty) (last : Session) : Prop :=
  ty = result ∧ ∃ args subpatterns, args.length = fields.length ∧
    fieldPatterns args fields captures made = .ok (subpatterns, own) last ∧
    pat = .ctor info.name info.template info.index subpatterns

/-- A constructor with the same fields and the same result wherever it is used: they are the type of
its value, an argument is made equal to the fields and the application has the result, and so with
patterns. -/
structure Uses (during made : Session) (info : CtorInfo) (fields : List Ty)
    (result : Ty) : Prop where
  value : ∀ span, ∃ term last, infer (.ident span info.name) during = .ok term last ∧
    last.subst = made.subst ∧ term.ty = ctorTy fields result
  applied : ∀ {span span' arg term last},
    infer (.app span (.ident span' info.name) arg) during = .ok term last →
      ∃ argument middle, infer arg made = .ok argument middle ∧
        unify (Ty.tupled fields) argument.ty arg.span middle = .ok () last ∧
        term = .ctor info.name info.template info.index (some argument) result
  matched : ∀ {span args captures pat ty own last},
    pattern (.ctor span info.name args) captures during = .ok ((pat, ty), own) last →
      Matched made info fields result captures own pat ty last
  named : ∀ {span captures pat ty own last},
    pattern (.bind span info.name) captures during = .ok ((pat, ty), own) last →
      ty = result ∧ fields = [] ∧ own = captures ∧ last = made ∧
        pat = .ctor info.name info.template info.index []

section Uses

variable {fields : List Ty} {result : Ty} {made : Session}

theorem ctorPattern_eq_ok (known : during.registry.ctors.get? info.name = some info)
    (instanced : ctorInstance info during = .ok (fields, result) made) {span : Span}
    {found : CtorInfo × List Ty × Ty} {after : Session}
    (run : ctorPattern info.name span during = .ok found after) :
    found = (info, fields, result) ∧ after = made := by
  obtain ⟨looked, middle, look, rest⟩ := bind_eq_ok.mp run
  obtain ⟨rfl, rfl⟩ := Session.lookupCtor?_eq_ok look
  rw [known] at rest
  obtain ⟨pair, last, again, finish⟩ := bind_eq_ok.mp rest
  obtain ⟨rfl, rfl⟩ := EStateM.Result.ok.inj (instanced.symm.trans again)
  obtain ⟨rfl, rfl⟩ := pure_eq_ok.mp finish
  exact ⟨rfl, rfl⟩

theorem value_of_instance (known : during.registry.ctors.get? info.name = some info)
    (instanced : ctorInstance info during = .ok (fields, result) made)
    (arity : fields.length = info.arity)
    (span : Span) : ∃ term last, infer (.ident span info.name) during = .ok term last ∧
      last.subst = made.subst ∧ term.ty = ctorTy fields result := by
  have value : infer (.ident span info.name) during = ctorValue info during := by
    unfold infer identifier
    rw [bind_apply, lookupCtor?, bind_apply, get_apply]
    simp only [pure_apply, known]
  rw [value, ctorValue, bind_apply, instanced]
  dsimp only
  split
  · rename_i none
    obtain rfl := List.length_eq_zero_iff.mp (arity.trans none)
    exact ⟨_, _, rfl, rfl, rfl⟩
  · rename_i some
    obtain _ | ⟨field, fields⟩ := fields
    · exact absurd arity.symm some
    · exact ⟨_, _, rfl, rfl, rfl⟩

theorem applied_of_instance (known : during.registry.ctors.get? info.name = some info)
    (instanced : ctorInstance info during = .ok (fields, result) made) {span span' : Span}
    {arg : Surface.Expr}
    {term : Term} {last : Session}
    (run : infer (.app span (.ident span' info.name) arg) during = .ok term last) :
    ∃ argument middle, infer arg made = .ok argument middle ∧
      unify (Ty.tupled fields) argument.ty arg.span middle = .ok () last ∧
      term = .ctor info.name info.template info.index (some argument) result := by
  unfold infer at run
  obtain ⟨applied, middle, look, rest⟩ := bind_eq_ok.mp run
  obtain ⟨rfl, rfl⟩ := Session.lookupCtor?_eq_ok look
  rw [known] at rest
  obtain ⟨⟨⟩, next, accepts, rest'⟩ := bind_eq_ok.mp rest
  obtain ⟨rfl, -⟩ := Session.acceptsArgument_eq_ok accepts
  obtain ⟨pair, _, again, argued⟩ := bind_eq_ok.mp rest'
  obtain ⟨rfl, rfl⟩ := EStateM.Result.ok.inj (instanced.symm.trans again)
  obtain ⟨inner, inferred, found, compared⟩ := bind_eq_ok.mp argued
  obtain ⟨argument, _, checked, finish⟩ := bind_eq_ok.mp compared
  obtain ⟨rfl, rfl⟩ := pure_eq_ok.mp finish
  obtain ⟨⟨⟩, _, equal, finish'⟩ := bind_eq_ok.mp checked
  obtain ⟨rfl, rfl⟩ := pure_eq_ok.mp finish'
  exact ⟨inner, inferred, found, equal, rfl⟩

theorem named_of_instance (known : during.registry.ctors.get? info.name = some info)
    (instanced : ctorInstance info during = .ok (fields, result) made) {span : Span}
    {captures own : Captures}
    {pat : Pat} {ty : Ty} {last : Session}
    (run : pattern (.bind span info.name) captures during = .ok ((pat, ty), own) last) :
    ty = result ∧ fields = [] ∧ own = captures ∧ last = made ∧
      pat = .ctor info.name info.template info.index [] := by
  unfold pattern at run
  obtain ⟨looked, middle, look, rest⟩ := state_lift_bind_eq_ok.mp run
  obtain ⟨rfl, rfl⟩ := Session.lookupCtor?_eq_ok look
  rw [known] at rest
  obtain ⟨found, next, ctor, rest'⟩ := state_lift_bind_eq_ok.mp rest
  obtain ⟨rfl, rfl⟩ := ctorPattern_eq_ok known instanced ctor
  obtain ⟨⟨⟩, _, expect, finish⟩ := state_lift_bind_eq_ok.mp rest'
  obtain ⟨rfl, none⟩ := Session.expectFields_eq_ok expect
  obtain ⟨same, rfl, rfl⟩ := state_pure_eq_ok.mp finish
  obtain ⟨rfl, rfl⟩ := Prod.mk.inj same
  exact ⟨rfl, List.length_eq_zero_iff.mp none.symm, rfl, rfl, rfl⟩

theorem matched_of_fields (args : List Surface.Pattern) {captures own : Captures}
    {pat : Pat} {ty : Ty} {last : Session} (length : args.length = fields.length)
    (run : (do
      let subpatterns ← fieldPatterns args fields
      pure (.ctor info.name info.template info.index subpatterns, result) : Capturing (Pat × Ty))
        captures made = .ok ((pat, ty), own) last) :
    Matched made info fields result captures own pat ty last := by
  obtain ⟨subpatterns, _, _, found, finish⟩ := state_bind_eq_ok.mp run
  obtain ⟨same, rfl, rfl⟩ := state_pure_eq_ok.mp finish
  obtain ⟨rfl, rfl⟩ := Prod.mk.inj same
  exact ⟨rfl, args, subpatterns, length, found, rfl⟩

theorem matched_of_wild {wildSpan : Span} {captures own : Captures} {pat : Pat} {ty : Ty}
    {last : Session} (run : (do
      let subpatterns ← wildFields wildSpan fields
      pure (.ctor info.name info.template info.index subpatterns, result) : Capturing (Pat × Ty))
        captures made = .ok ((pat, ty), own) last) :
    Matched made info fields result captures own pat ty last := by
  obtain ⟨subpatterns, _, found, finish⟩ := state_lift_bind_eq_ok.mp run
  obtain ⟨same, rfl, rfl⟩ := state_pure_eq_ok.mp finish
  obtain ⟨rfl, rfl⟩ := Prod.mk.inj same
  exact ⟨rfl, _, subpatterns, List.length_map _, fieldPatterns_of_wildFields found, rfl⟩

theorem matched_of_instance (known : during.registry.ctors.get? info.name = some info)
    (instanced : ctorInstance info during = .ok (fields, result) made) {span : Span}
    {args : List Surface.Pattern} {captures own : Captures} {pat : Pat} {ty : Ty} {last : Session}
    (run : pattern (.ctor span info.name args) captures during = .ok ((pat, ty), own) last) :
    Matched made info fields result captures own pat ty last := by
  unfold pattern at run
  obtain ⟨found, middle, ctor, rest⟩ := state_lift_bind_eq_ok.mp run
  clear run
  obtain ⟨rfl, rfl⟩ := ctorPattern_eq_ok known instanced ctor
  dsimp only at rest
  split at rest
  · split at rest
    · next elements several => exact matched_of_fields elements several.2 rest
    · next tupleSpan elements _ =>
      obtain ⟨⟨⟩, _, expect, rest'⟩ := state_lift_bind_eq_ok.mp rest
      obtain ⟨rfl, length⟩ := Session.expectFields_eq_ok expect
      exact matched_of_fields [.tuple tupleSpan elements] length rest'
  · split at rest
    · exact matched_of_wild rest
    · obtain ⟨⟨⟩, _, expect, rest'⟩ := state_lift_bind_eq_ok.mp rest
      obtain ⟨rfl, -⟩ := Session.expectFields_eq_ok expect
      exact matched_of_wild rest'
  · obtain ⟨⟨⟩, _, expect, rest'⟩ := state_lift_bind_eq_ok.mp rest
    obtain ⟨rfl, length⟩ := Session.expectFields_eq_ok expect
    exact matched_of_fields args length rest'

end Uses

end Check

namespace Session

open Check

variable {options : Options} {session : Session}

/-- The table of constructors agrees with the definitions after any units. While expressions and
patterns of a further unit are checked it stays the same, and wherever they use a constructor its
fields and its result make up the type of its scheme at new variables. -/
theorem constructor_table_agrees (reachable : session.Reachable options) :
    session.registry.Agrees ∧
      (∀ written, Keeps (fun during : Session => session.registry.Adding during.registry) anything
        (infer written)) ∧
      (∀ written captures,
        Keeps (fun during : Session => session.registry.Adding during.registry) anything
        (pattern written captures)) ∧
      ∀ (during : Session) (name : Name) (info : CtorInfo),
        session.registry.Adding during.registry → during.registry.ctors.get? name = some info →
        ∃ fields result, ctorTy fields result = info.scheme.at (instanceOf during info).1 ∧
          fields.length = info.arity ∧
            Uses during (instanceOf during info).2 info fields result := by
  have agrees := reachable.agrees
  refine ⟨agrees, fun written => (steady_infer solving_adding written).keeps,
    fun written captures => ((steady_pattern solving_adding written) captures).keeps.weaken,
    fun during name info adding entry => ?_⟩
  obtain ⟨rfl, template, dataCase, describes⟩ := agrees.adding adding name info entry
  have instanced := ctorInstance_apply describes
  have arity :
    (during.registry.fieldsAt info.template info.index (instanceOf during info).1).length =
      info.arity := by
    rw [describes.fieldsAt, List.length_map, describes.arity]
  refine ⟨_, _, describes.ctorTy_fieldsAt ?_, arity, ⟨?_, ?_, ?_, ?_⟩⟩
  · rw [instanceOf, List.length_map, Subst.length_pushMany]
  · exact value_of_instance entry instanced arity
  · exact applied_of_instance entry instanced
  · exact matched_of_instance entry instanced
  · exact named_of_instance entry instanced

/-- The constructor of the data type `box`, at the next variable. -/
theorem boxDecl_ctor_agrees : ∃ checked after info,
    Check.decl boxDecl (Session.start .standard) = .ok checked after ∧
    after.registry.ctors.get? "Box" = some info ∧ after.registry.Agrees ∧
      ∃ fields result, ctorTy fields result = .arrow (.var ⟨1⟩) (.nominal ⟨2⟩ [.var ⟨1⟩]) ∧
        Uses after (instanceOf after info).2 info fields result := by
  have shown :
    gives (fun _ after => decide (after.subst.size = 1 ∧ after.registry.ctors.get? "Box" =
      some ⟨"Box", ⟨2⟩, 0, 1, ⟨[⟨0⟩], .arrow (.var ⟨0⟩) (.nominal ⟨2⟩ [.var ⟨0⟩])⟩⟩))
      (Check.decl boxDecl (Session.start .standard)) = true := by cbv
  obtain ⟨checked, after, accepted, shown⟩ := exists_of_gives shown
  obtain ⟨size, known⟩ := of_decide_eq_true shown
  have reachable : after.Reachable .standard := .decl .start boxDecl (.inl ⟨checked, accepted⟩)
  obtain ⟨agrees, -, -, uses⟩ := constructor_table_agrees reachable
  obtain ⟨fields, result, same, -, used⟩ := uses after "Box" _ (Registry.adding_refl _) known
  refine ⟨checked, after, _, accepted, known, agrees, fields, result, same.trans ?_, used⟩
  simp [Scheme.at, instanceOf, Subst.pushMany, Subst.push, size, Ty.substitute, Ty.substituteAll,
    Assignment.ofLists]

end Session

end PolyCheck
