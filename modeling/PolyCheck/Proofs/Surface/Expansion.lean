import PolyCheck.Proofs.Lambda
import PolyCheck.Proofs.Surface
import PolyCheck.Proofs.Ty.Sorted

/-! Aliases written out. Where an alias has at least as many arguments as parameters, its body takes
its place with the arguments in place of the parameters; quantifiers are renamed as needed, so that
none of them catches a variable of an argument. Read as a lambda term a written type stays the same
if the alias stands for the function that its body is, and it keeps its kind if the alias has the
kind of that function. -/
namespace PolyCheck.Surface

open Lambda

section Given

variable {α β : Type} {names : List Name} {name : Name}

/-- Names that are given values. Of two values for one name the later one counts. -/
def given : List Name → List α → (Name → α) → Name → α
  | name :: names, value :: values, outer => given names values (Function.update outer name value)
  | _, _, outer => outer

theorem map_given (change : α → β) (names : List Name) (values : List α) (outer : Name → α)
    (name : Name) :
    change (given names values outer name) = given names (values.map change)
    (change ∘ outer) name := by
  induction names generalizing values outer with
  | nil => rfl
  | cons first names ih =>
    cases values with
    | nil => rfl
    | cons value values => rw [given, ih, List.map_cons, given, Function.comp_update]

theorem given_related (holds : α → β → Prop) {values : List α} {values' : List β} {outer : Name → α}
    {outer' : Name → β}
    (enough : names.length ≤ values.length) (enough' : names.length ≤ values'.length)
    (each : ∀ pair ∈ values.zip values', holds pair.1 pair.2)
    (outside : name ∉ names → holds (outer name) (outer' name)) :
    holds (given names values outer name) (given names values' outer' name) := by
  induction names generalizing values values' outer outer' with
  | nil => exact outside List.not_mem_nil
  | cons first names ih =>
    obtain ⟨value, values, rfl⟩ :=
      List.exists_cons_of_length_pos (Nat.lt_of_lt_of_le (Nat.succ_pos _) enough)
    obtain ⟨value', values', rfl⟩ :=
      List.exists_cons_of_length_pos (Nat.lt_of_lt_of_le (Nat.succ_pos _) enough')
    obtain ⟨same, each⟩ := List.forall_mem_cons.mp each
    refine ih (Nat.le_of_succ_le_succ enough) (Nat.le_of_succ_le_succ enough') each fun later => ?_
    rw [Function.update_apply, Function.update_apply]
    split
    · exact same
    · rename_i different
      exact outside fun member => (List.mem_cons.mp member).elim different later

theorem given_holds {holds : α → Prop} {values : List α} {outer : Name → α}
    (each : ∀ value ∈ values, holds value)
    (outside : holds (outer name)) : holds (given names values outer name) := by
  induction names generalizing values outer with
  | nil => exact outside
  | cons first names ih =>
    cases values with
    | nil => exact outside
    | cons value values =>
      obtain ⟨first, rest⟩ := List.forall_mem_cons.mp each
      refine ih rest ?_
      rw [Function.update_apply]
      split
      · exact first
      · exact outside

theorem assign_eq_given (names : List Name) (terms : List Lambda) (outer : Name → Lambda) :
    assign names terms outer = given names terms outer := by
  induction names generalizing terms outer with
  | nil => rfl
  | cons first names ih =>
    cases terms with
    | nil => rfl
    | cons term terms => exact ih terms _

end Given

structure Synonym where
  name : Name
  params : List Name
  body : TypeExpr

mutual

def TypeExpr.typeNames : TypeExpr → List Name
  | .name _ n => [n]
  | .var _ _ => []
  | .app _ head args => head.typeNames ++ typeNamesAll args
  | .arrow _ param result => param.typeNames ++ result.typeNames
  | .tuple _ elements => typeNamesAll elements
  | .quantified _ _ body => body.typeNames
  | .hole _ => []

def TypeExpr.typeNamesAll : List TypeExpr → List Name
  | [] => []
  | written :: rest => written.typeNames ++ typeNamesAll rest

end

mutual

/-- The type variables that a written type mentions and does not quantify. -/
def TypeExpr.freeVars : TypeExpr → List Name
  | .name _ _ => []
  | .var _ v => [v]
  | .app _ head args => head.freeVars ++ freeVarsAll args
  | .arrow _ param result => param.freeVars ++ result.freeVars
  | .tuple _ elements => freeVarsAll elements
  | .quantified _ params body => body.freeVars.filter (· ∉ params)
  | .hole _ => []

def TypeExpr.freeVarsAll : List TypeExpr → List Name
  | [] => []
  | written :: rest => written.freeVars ++ freeVarsAll rest

end

def TypeExpr.applied (span : Span) (head : TypeExpr) : List TypeExpr → TypeExpr
  | [] => head
  | args => .app span head args

inductive TypeExpr.Applied (name : Name) : TypeExpr → List TypeExpr → Prop where
  | name (span : Span) : Applied name (.name span name) []
  | app (span : Span) {head : TypeExpr} {first : List TypeExpr} (inner : Applied name head first)
      (args : List TypeExpr) : Applied name (.app span head args) (first ++ args)
  | group (span : Span) {written : TypeExpr} {args : List TypeExpr}
      (inside : Applied name written args) : Applied name (.tuple span [written]) args

/-- What a type variable becomes: another one or a written type. -/
inductive Image where
  | name (name : Name)
  | type (written : TypeExpr)

def Image.freeVars : Image → List Name
  | .name v => [v]
  | .type written => written.freeVars

/-- Variables become what they are given, under quantifiers that are renamed so that they catch
nothing, and uses of the alias, if there is one, may be written out. -/
inductive TypeExpr.Becomes : Option Synonym → (Name → Image) → TypeExpr → TypeExpr → Prop where
  | name {synonym : Option Synonym} {images : Name → Image} (span span' : Span) (name : Name) :
    Becomes synonym images (.name span name) (.name span' name)
  | renamed {synonym : Option Synonym} {images : Name → Image} {name name' : Name}
      (span span' : Span)
    (image : images name = .name name') : Becomes synonym images (.var span name) (.var span' name')
  | replaced {synonym : Option Synonym} {images : Name → Image} {name : Name} {written : TypeExpr}
      (span : Span)
    (image : images name = .type written) : Becomes synonym images (.var span name) written
  | app {synonym : Option Synonym} {images : Name → Image} {head head' : TypeExpr}
      {args args' : List TypeExpr}
    (span span' : Span) (fst : Becomes synonym images head head')
      (length : args.length = args'.length)
    (each : ∀ pair ∈ args.zip args', Becomes synonym images pair.1 pair.2) :
    Becomes synonym images (.app span head args) (.app span' head' args')
  | arrow {synonym : Option Synonym} {images : Name → Image}
      {param param' result result' : TypeExpr} (span span' : Span)
    (fst : Becomes synonym images param param') (snd : Becomes synonym images result result') :
    Becomes synonym images (.arrow span param result) (.arrow span' param' result')
  | tuple {synonym : Option Synonym} {images : Name → Image} {elements elements' : List TypeExpr}
      (span span' : Span) (length : elements.length = elements'.length)
    (each : ∀ pair ∈ elements.zip elements', Becomes synonym images pair.1 pair.2) :
    Becomes synonym images (.tuple span elements) (.tuple span' elements')
  | quantified {synonym : Option Synonym} {images : Name → Image} {params params' : List Name}
      {body body' : TypeExpr}
    (span span' : Span) (length : params.length = params'.length) (once : params'.Nodup)
    (outside : ∀ name ∈ body.freeVars, name ∉ params → ∀ v ∈ (images name).freeVars, v ∉ params')
    (inside : Becomes synonym (given params (params'.map .name) images) body body') :
    Becomes synonym images (.quantified span params body) (.quantified span' params' body')
  | use {used : Synonym} {images : Name → Image} {written body' : TypeExpr}
      {args args' : List TypeExpr} (span : Span)
    (uses : Applied used.name written args) (enough : used.params.length ≤ args.length)
    (length : args.length = args'.length)
    (each : ∀ pair ∈ args.zip args', Becomes (some used) images pair.1 pair.2)
    (filled : Becomes none (given used.params (args'.map .type) .name) used.body body') :
    Becomes (some used) images written (applied span body' (args'.drop used.params.length))

/-- Some uses of the alias with enough arguments are written out. -/
abbrev TypeExpr.Expands (used : Synonym) : TypeExpr → TypeExpr → Prop := Becomes (some used) .name

variable {names names' : Name → Lambda} {env env' : Name → Lambda} {written written' : TypeExpr}
  {params : List Name}
  {name : Name} {synonym : Option Synonym} {images : Name → Image} {args : List TypeExpr}

theorem TypeExpr.mem_freeVarsAll {types : List TypeExpr} :
    name ∈ freeVarsAll types ↔ ∃ written ∈ types, name ∈ written.freeVars := by
  induction types with
  | nil => simp [freeVarsAll]
  | cons written types ih => simp [freeVarsAll, ih]

theorem TypeExpr.mem_typeNamesAll {types : List TypeExpr} :
    name ∈ typeNamesAll types ↔ ∃ written ∈ types, name ∈ written.typeNames := by
  induction types with
  | nil => simp [typeNamesAll]
  | cons written types ih => simp [typeNamesAll, ih]

theorem TypeExpr.Applied.mem_freeVars (used : Applied name written args) {v : Name}
    (free : v ∈ freeVarsAll args) : v ∈ written.freeVars := by
  induction used with
  | name _ => cases free
  | app _ _ args ih =>
    obtain ⟨arg, member, inside⟩ := mem_freeVarsAll.mp free
    rw [freeVars]
    rcases List.mem_append.mp member with first | last
    · exact List.mem_append_left _ (ih (mem_freeVarsAll.mpr ⟨arg, first, inside⟩))
    · exact List.mem_append_right _ (mem_freeVarsAll.mpr ⟨arg, last, inside⟩)
  | group _ _ ih => exact mem_freeVarsAll.mpr ⟨_, List.mem_singleton_self _, ih free⟩

theorem TypeExpr.completeAll_iff {types : List TypeExpr} : CompleteAll types ↔ ∀ written ∈ types,
    written.Complete := by
  induction types with
  | nil => simp [CompleteAll]
  | cons written types ih => simp [CompleteAll, ih]

theorem TypeExpr.Applied.complete (uses : Applied name written args) (complete : written.Complete) :
    ∀ arg ∈ args, arg.Complete := by
  induction uses with
  | name _ => exact List.forall_mem_nil _
  | app _ _ args ih =>
    exact List.forall_mem_append.mpr ⟨ih complete.1, completeAll_iff.mp complete.2⟩
  | group _ _ ih => exact ih complete.1

/-- What takes the place of a variable has no hole. -/
def Image.Complete : Image → Prop
  | .name _ => True
  | .type written => written.Complete

theorem forall_of_zip {α β : Type} {holds : β → Prop} {left : List α} {right : List β}
    (length : left.length = right.length)
    (each : ∀ pair ∈ left.zip right, holds pair.2) : ∀ value ∈ right, holds value := by
  rw [← List.map_snd_zip length.ge]
  exact List.forall_mem_map.mpr each

theorem TypeExpr.Becomes.complete (becomes : Becomes synonym images written written')
    (complete : written.Complete)
    (closed : ∀ used, synonym = some used → used.body.Complete)
    (replaced : ∀ name, (images name).Complete) :
    written'.Complete := by
  induction becomes with
  | name _ _ _ | renamed _ _ _ => trivial
  | @replaced _ _ name _ _ image =>
    have replaced := replaced name
    rwa [image] at replaced
  | app _ _ _ length _ ihHead ih =>
    have each := completeAll_iff.mp complete.2
    refine ⟨ihHead complete.1 closed replaced,
      completeAll_iff.mpr (forall_of_zip length fun pair member => ?_)⟩
    exact ih pair member (each _ (List.of_mem_zip member).1) closed replaced
  | arrow _ _ _ _ ihParam ihResult =>
    exact ⟨ihParam complete.1 closed replaced, ihResult complete.2 closed replaced⟩
  | tuple _ _ length _ ih =>
    have each := completeAll_iff.mp complete
    refine completeAll_iff.mpr (forall_of_zip length fun pair member => ?_)
    exact ih pair member (each _ (List.of_mem_zip member).1) closed replaced
  | quantified _ _ _ _ _ _ ih =>
    refine ih complete closed fun name => given_holds (List.forall_mem_map.mpr fun _ _ => trivial)
      (replaced name)
  | @use used _ _ _ args args' span uses _ length _ _ ih ihFilled =>
    have each := uses.complete complete
    have args_complete : ∀ arg ∈ args', arg.Complete := forall_of_zip length fun pair member =>
      ih pair member (each _ (List.of_mem_zip member).1) closed replaced
    have none : ∀ other : Synonym, Option.none = some other → other.body.Complete :=
      fun _ absurd => by cases absurd
    have filled := ihFilled (closed used rfl) none fun name =>
      given_holds (List.forall_mem_map.mpr args_complete) (trivial : (Image.name name).Complete)
    rw [applied.eq_def]
    split
    · exact filled
    · exact ⟨filled, completeAll_iff.mpr fun arg member =>
        args_complete arg (List.mem_of_mem_drop member)⟩

section Terms

def tupled : List Lambda → Lambda
  | [only] => only
  | terms => spine (.atom (.tuple terms.length)) terms

mutual

/-- The term of a written type, where its names and its free variables stand for terms. -/
def TypeExpr.lambda (names : Name → Lambda) : TypeExpr → (Name → Lambda) → Lambda
  | .name _ n, _ => names n
  | .var _ v, env => env v
  | .app _ head args, env => spine (head.lambda names env) (lambdas names args env)
  | .arrow _ param result, env =>
    .app (.app (.atom .arrow) (param.lambda names env)) (result.lambda names env)
  | .tuple _ elements, env => tupled (lambdas names elements env)
  | .quantified _ params body, env => lams params (body.lambda names (enterAll params env))
  | .hole _, _ => .atom (.tuple 0)

def TypeExpr.lambdas (names : Name → Lambda) : List TypeExpr → (Name → Lambda) → List Lambda
  | [], _ => []
  | written :: rest, env => written.lambda names env :: lambdas names rest env

end

theorem TypeExpr.lambdas_eq_map (types : List TypeExpr) : lambdas names types env = types.map
    (·.lambda names env) := by
  induction types with
  | nil => rfl
  | cons written types ih => rw [lambdas, ih, List.map_cons]

@[simp] theorem TypeExpr.length_lambdas (types : List TypeExpr) :
    (lambdas names types env).length = types.length := by
  rw [lambdas_eq_map, List.length_map]

theorem TypeExpr.lambda_congr (same : ∀ name ∈ written.typeNames, names name = names' name)
    (same' : ∀ name ∈ written.freeVars, env name = env' name) :
      written.lambda names env = written.lambda names' env' := by
  induction written using TypeExpr.rec (motive_2 := fun types => ∀ {env env' : Name → Lambda},
    (∀ name ∈ typeNamesAll types, names name = names' name) →
    (∀ name ∈ freeVarsAll types, env name = env' name) →
      lambdas names types env = lambdas names' types env') generalizing env env' with
  | name _ n => exact same n (List.mem_singleton_self _)
  | var _ v => exact same' v (List.mem_singleton_self _)
  | hole _ => rfl
  | app _ head args ihHead ih =>
    obtain ⟨same, each⟩ := List.forall_mem_append.mp same
    obtain ⟨same', each'⟩ := List.forall_mem_append.mp same'
    rw [lambda, lambda, ihHead same same', ih each each']
  | arrow _ param result ihParam ihResult =>
    obtain ⟨same, snd⟩ := List.forall_mem_append.mp same
    obtain ⟨same', snd'⟩ := List.forall_mem_append.mp same'
    rw [lambda, lambda, ihParam same same', ihResult snd snd']
  | tuple _ elements ih => rw [lambda, lambda, ih same same']
  | quantified _ params body ih =>
    rw [lambda, lambda, ih same fun name free => enterAll_congr fun outer => same' name ?_]
    exact List.mem_filter.mpr ⟨free, decide_eq_true outer⟩
  | nil => rfl
  | cons written rest ih ihRest =>
    rename_i same same'
    obtain ⟨same, each⟩ := List.forall_mem_append.mp same
    obtain ⟨same', each'⟩ := List.forall_mem_append.mp same'
    rw [lambdas, lambdas, ih same same', ihRest each each']

theorem tupled_of_ne {terms : List Lambda} (several : terms.length ≠ 1) :
    tupled terms = spine (.atom (.tuple terms.length)) terms := by
  rcases terms with _ | ⟨first, _ | ⟨second, rest⟩⟩
  · rfl
  · exact absurd rfl several
  · rfl

theorem subst_tupled (terms : List Lambda) (images : Nat → Lambda) :
    (tupled terms).subst images = tupled (terms.map (subst images)) := by
  by_cases single : terms.length = 1
  · obtain ⟨only, rfl⟩ := List.length_eq_one_iff.mp single
    rfl
  · rw [tupled_of_ne single, tupled_of_ne (by rwa [List.length_map]), subst_spine, List.length_map]
    rfl

theorem equal_tupled {terms terms' : List Lambda} (each : List.Forall₂ Equal terms terms') :
    Equal (tupled terms) (tupled terms') := by
  by_cases single : terms.length = 1
  · obtain ⟨only, rfl⟩ := List.length_eq_one_iff.mp single
    cases each with
    | cons first rest =>
      cases rest
      exact first
  · rw [tupled_of_ne single, tupled_of_ne (each.length_eq ▸ single), each.length_eq]
    exact .spine (.refl _) each

def Fixed (names : Name → Lambda) : Prop := ∀ name images, (names name).subst images = names name

theorem TypeExpr.subst_lambda (fixed : Fixed names) (written : TypeExpr) (env : Name → Lambda)
    (images : Nat → Lambda) :
    (written.lambda names env).subst images = written.lambda names fun v =>
    (env v).subst images := by
  induction written using TypeExpr.rec
    (motive_2 := fun types => ∀ (env : Name → Lambda) (images : Nat → Lambda),
    (lambdas names types env).map (subst images) = lambdas names types fun v =>
      (env v).subst images)
    generalizing env images with
  | name _ n => exact fixed n images
  | var _ v => rfl
  | hole _ => rfl
  | app _ head args ihHead ih => rw [lambda, lambda, subst_spine, ihHead, ih]
  | arrow _ param result ihParam ihResult =>
    rw [lambda, lambda, ← ihParam, ← ihResult]
    rfl
  | tuple _ elements ih => rw [lambda, lambda, subst_tupled, ih]
  | quantified _ params body ih => exact Natural.lams ih params env images
  | nil => rfl
  | cons written rest ih ihRest =>
    rename_i env images
    rw [lambdas, lambdas, List.map_cons, ih, ihRest]

theorem TypeExpr.lambda_enterAll (fixed : Fixed names)
    (apart : ∀ v ∈ written.freeVars, v ∉ params) :
    written.lambda names (enterAll params env) =
    (written.lambda names env).raise params.length := by
  rw [raise, rename_eq_subst, subst_lambda fixed]
  refine lambda_congr (fun _ _ => rfl) fun v free => ?_
  rw [enterAll_of_not_mem (apart v free), raise, rename_eq_subst]

/-- The term of what a variable becomes. -/
def Image.lambda (names : Name → Lambda) (env : Name → Lambda) : Image → Lambda
  | .name v => env v
  | .type written => written.lambda names env

theorem Image.lambda_enterAll {image : Image} (fixed : Fixed names)
    (apart : ∀ v ∈ image.freeVars, v ∉ params) :
    image.lambda names (enterAll params env) = (image.lambda names env).raise params.length := by
  cases image with
  | name v => exact enterAll_of_not_mem (apart v (List.mem_singleton_self v))
  | type written => exact TypeExpr.lambda_enterAll fixed apart

/-- What a variable becomes below a quantifier that has been renamed stands for what the variable
stood for. -/
theorem Image.lambda_given (fixed : Fixed names) {params' : List Name}
    (length : params.length = params'.length) (once : params'.Nodup) (outside : name ∉ params →
      env name = (images name).lambda names env' ∧ ∀ v ∈ (images name).freeVars, v ∉ params') :
    enterAll params env name =
      (given params (params'.map Image.name) images name).lambda names (enterAll params' env') := by
  induction params generalizing params' env env' images with
  | nil =>
    obtain rfl := List.length_eq_zero_iff.mp length.symm
    exact (outside List.not_mem_nil).1
  | cons p params ih =>
    obtain ⟨q, params', rfl⟩ := List.exists_cons_of_length_eq_add_one length.symm
    obtain ⟨apart, once⟩ := List.nodup_cons.mp once
    refine ih (Nat.succ.inj length) once fun later => ?_
    rw [Function.update_apply, enter]
    split
    · exact ⟨(if_pos rfl).symm, List.forall_mem_singleton.mpr apart⟩
    · rename_i different
      obtain ⟨same, free⟩ := outside fun member => (List.mem_cons.mp member).elim different later
      refine ⟨?_, fun v member inside => free v member (List.mem_cons_of_mem q inside)⟩
      have sparing : ∀ v ∈ (images name).freeVars, v ∉ [q] := fun v member only =>
        free v member (List.mem_cons.mpr (.inl (List.mem_singleton.mp only)))
      exact (congrArg (raise 1) same).trans (Image.lambda_enterAll fixed sparing).symm

theorem lams_of_length {ν ν' : Type} {params : List ν} {params' : List ν'}
    (length : params.length = params'.length) (body : Lambda) :
    lams params body = lams params' body := by
  induction params generalizing params' with
  | nil =>
    rw [List.length_eq_zero_iff.mp length.symm]
    rfl
  | cons p params ih =>
    obtain ⟨q, params', rfl⟩ := List.exists_cons_of_length_eq_add_one length.symm
    have length := Nat.succ.inj length
    have ends : params.isEmpty = params'.isEmpty := by
      rw [Bool.eq_iff_iff, List.isEmpty_iff_length_eq_zero, List.isEmpty_iff_length_eq_zero, length]
    rw [lams, lams, ih length, ends]

theorem forall₂_lambdas {types types' : List TypeExpr} (length : types.length = types'.length)
    (each : ∀ pair ∈ types.zip types', Equal (pair.1.lambda names env) (pair.2.lambda names env')) :
    List.Forall₂ Equal (TypeExpr.lambdas names types env) (TypeExpr.lambdas names types' env') := by
  rw [TypeExpr.lambdas_eq_map, TypeExpr.lambdas_eq_map, List.forall₂_map_left_iff,
    List.forall₂_map_right_iff]
  exact List.forall₂_iff_zip.mpr ⟨length, fun member => each _ member⟩

theorem TypeExpr.lambda_applied (span : Span) (head : TypeExpr) (args : List TypeExpr) :
    (applied span head args).lambda names env = spine (head.lambda names env)
    (lambdas names args env) := by
  cases args <;> rfl

theorem TypeExpr.Applied.lambda (uses : Applied name written args) :
    written.lambda names env = spine (names name) (lambdas names args env) := by
  induction uses with
  | name _ => rfl
  | app _ _ args ih =>
    rw [TypeExpr.lambda, ih, ← spine_append, lambdas_eq_map, lambdas_eq_map, lambdas_eq_map,
      List.map_append]
  | group _ _ ih => exact ih

def Synonym.Equals (names : Name → Lambda) (used : Synonym) : Prop :=
  ∀ env, Equal (names used.name)
    (lams used.params (used.body.lambda names (enterAll used.params env)))

theorem TypeExpr.Becomes.lambda (becomes : Becomes synonym images written written')
    (fixed : Fixed names)
    (equals : ∀ used, synonym = some used → used.Equals names) {env env' : Name → Lambda}
    (same : ∀ v ∈ written.freeVars, env v = (images v).lambda names env') :
    Equal (written.lambda names env) (written'.lambda names env') := by
  induction becomes generalizing env env' with
  | name _ _ _ => exact .refl _
  | renamed _ _ image | replaced _ image =>
    have same := same _ (List.mem_singleton_self _)
    rw [image] at same
    exact .of_eq same
  | app _ _ _ length _ ihHead ih =>
    obtain ⟨first, rest⟩ := List.forall_mem_append.mp same
    refine Equal.spine (ihHead equals first)
      (forall₂_lambdas length fun pair member => ih pair member equals fun v free => ?_)
    exact rest v (mem_freeVarsAll.mpr ⟨_, (List.of_mem_zip member).1, free⟩)
  | arrow _ _ _ _ ihParam ihResult =>
    obtain ⟨first, second⟩ := List.forall_mem_append.mp same
    exact .app (.app (.refl _) (ihParam equals first)) (ihResult equals second)
  | tuple _ _ length _ ih =>
    refine equal_tupled (forall₂_lambdas length fun pair member =>
      ih pair member equals fun v free => ?_)
    exact same v (mem_freeVarsAll.mpr ⟨_, (List.of_mem_zip member).1, free⟩)
  | @quantified _ images params params' body body' _ _ length once outside _ ih =>
    have inside : Equal (body.lambda names (enterAll params env))
        (body'.lambda names (enterAll params' env')) := by
      refine ih equals fun v free => Image.lambda_given fixed length once fun outer =>
        ⟨same v ?_, outside v free outer⟩
      exact List.mem_filter.mpr ⟨free, decide_eq_true outer⟩
    rw [TypeExpr.lambda, TypeExpr.lambda, lams_of_length length]
    exact inside.lams params'
  | @use used images written body' args args' _ uses enough length _ _ ih ihFilled =>
    have args_equal := forall₂_lambdas length fun pair member => ih pair member equals fun v free =>
      same v (uses.mem_freeVars (mem_freeVarsAll.mpr ⟨_, (List.of_mem_zip member).1, free⟩))
    have taken :=
      (Natural.equal_spine (TypeExpr.subst_lambda fixed used.body) used.params
        (lambdas names args' env') env')
    have enough : used.params.length ≤ args'.length := length ▸ enough
    have none : used.params.drop (lambdas names args' env').length = [] :=
      List.drop_eq_nil_of_le (by rwa [length_lambdas])
    rw [none, assign_eq_given] at taken
    have images_eq : ∀ v, given used.params (lambdas names args' env') env' v =
        (given used.params (args'.map Image.type) .name v).lambda names env' := fun v => by
      rw [map_given (Image.lambda names env'), lambdas_eq_map, List.map_map]
      rfl
    have nothing : ∀ other : Synonym, Option.none = some other → other.Equals names :=
      fun _ absurd => by cases absurd
    have filled : Equal (used.body.lambda names (given used.params (lambdas names args' env') env'))
        (body'.lambda names env') := ihFilled nothing fun v _ => images_eq v
    rw [uses.lambda, lambda_applied, lambdas_eq_map (args'.drop _), List.map_drop, ← lambdas_eq_map]
    exact .trans (.spine (equals used rfl env') args_equal) (taken.trans (.spine_left filled _))

end Terms

section Kinds

inductive TypeExpr.Kinds (names : Name → Option Kind) : (Name → Kind) → TypeExpr → Kind → Prop where
  | name {env : Name → Kind} {name : Name} {kind : Kind} (span : Span)
      (known : names name = some kind) : Kinds names env (.name span name) kind
  | var {env : Name → Kind} (span : Span) (name : Name) :
      Kinds names env (.var span name) (env name)
  | app {env : Name → Kind} {head : TypeExpr} {args : List TypeExpr} {kinds : List Kind}
      {kind : Kind} (span : Span)
    (fst : Kinds names env head (.function kinds kind)) (length : args.length = kinds.length)
    (each : ∀ entry ∈ args.zip kinds, Kinds names env entry.1 entry.2) :
      Kinds names env (.app span head args) kind
  | arrow {env : Name → Kind} {param result : TypeExpr} (span : Span)
      (fst : Kinds names env param .star)
    (snd : Kinds names env result .star) : Kinds names env (.arrow span param result) .star
  | group {env : Name → Kind} {inner : TypeExpr} {kind : Kind} (span : Span)
      (inside : Kinds names env inner kind) : Kinds names env (.tuple span [inner]) kind
  | tuple {env : Name → Kind} {elements : List TypeExpr} (span : Span)
      (several : elements.length ≠ 1)
    (each : ∀ element ∈ elements, Kinds names env element .star) :
      Kinds names env (.tuple span elements) .star
  | quantified {env : Name → Kind} {params : List Name} {kinds : List Kind} {body : TypeExpr}
      (span : Span) (once : params.Nodup) (length : params.length = kinds.length)
    (inside : Kinds names (given params kinds env) body .star) :
    Kinds names env (.quantified span params body) .star

variable {names names' : Name → Option Kind} {env env' : Name → Kind} {written written' : TypeExpr}
  {name : Name}
  {params : List Name} {synonym : Option Synonym} {images : Name → Image} {kind : Kind}
    {expected : List Kind}
  {args : List TypeExpr}

theorem TypeExpr.Kinds.congr (kinds : written.Kinds names env kind)
    (same : ∀ name ∈ written.typeNames, names name = names' name)
    (same' : ∀ v ∈ written.freeVars, env v = env' v) :
    written.Kinds names' env' kind := by
  induction kinds generalizing env' with
  | name span known => exact .name span ((same _ (List.mem_singleton_self _)).symm.trans known)
  | var span name =>
    rw [same' name (List.mem_singleton_self _)]
    exact .var span name
  | app span _ length _ ihHead ih =>
    obtain ⟨same, each⟩ := List.forall_mem_append.mp same
    obtain ⟨same', each'⟩ := List.forall_mem_append.mp same'
    refine .app span (ihHead same same') length fun entry member => ih entry member ?_ ?_
    · exact fun name inside =>
        each name (mem_typeNamesAll.mpr ⟨_, (List.of_mem_zip member).1, inside⟩)
    · exact fun name inside =>
        each' name (mem_freeVarsAll.mpr ⟨_, (List.of_mem_zip member).1, inside⟩)
  | arrow span _ _ ihParam ihResult =>
    obtain ⟨same, snd⟩ := List.forall_mem_append.mp same
    obtain ⟨same', snd'⟩ := List.forall_mem_append.mp same'
    exact .arrow span (ihParam same same') (ihResult snd snd')
  | group span _ ih =>
    refine .group span (ih (fun name inside => same name ?_) fun name inside => same' name ?_)
    · exact mem_typeNamesAll.mpr ⟨_, List.mem_singleton_self _, inside⟩
    · exact mem_freeVarsAll.mpr ⟨_, List.mem_singleton_self _, inside⟩
  | tuple span several _ ih =>
    refine .tuple span several fun element member => ih element member ?_ ?_
    · exact fun name inside => same name (mem_typeNamesAll.mpr ⟨_, member, inside⟩)
    · exact fun name inside => same' name (mem_freeVarsAll.mpr ⟨_, member, inside⟩)
  | quantified span once length _ ih =>
    refine .quantified span once length (ih same fun name free => ?_)
    refine given_related Eq length.le length.le (fun entry member => ?_) fun outer => same' name ?_
    · obtain ⟨index, inside, rfl⟩ := List.getElem_of_mem member
      rw [List.getElem_zip]
    · exact List.mem_filter.mpr ⟨free, decide_eq_true outer⟩

def Image.HasKind (names : Name → Option Kind) (env : Name → Kind) (kind : Kind) : Image → Prop
  | .name v => env v = kind
  | .type written => written.Kinds names env kind

theorem Image.HasKind.congr {image : Image} (has : image.HasKind names env kind)
    (same : ∀ v ∈ image.freeVars, env v = env' v) : image.HasKind names env' kind := by
  cases image with
  | name v => exact (same v (List.mem_singleton_self v)).symm.trans has
  | type written => exact TypeExpr.Kinds.congr has (fun _ _ => rfl) same

theorem Image.hasKind_given {params' : List Name} (length : params.length = params'.length)
    (length' : params.length = expected.length) (once : params'.Nodup)
    (outside : name ∉ params → (images name).HasKind names env' (env name) ∧
      ∀ v ∈ (images name).freeVars, v ∉ params') :
    (given params (params'.map Image.name) images name).HasKind names (given params' expected env')
      (given params expected env name) := by
  induction params generalizing params' expected env env' images with
  | nil =>
    obtain rfl := List.length_eq_zero_iff.mp length.symm
    obtain rfl := List.length_eq_zero_iff.mp length'.symm
    exact (outside List.not_mem_nil).1
  | cons p params ih =>
    obtain ⟨q, params', rfl⟩ := List.exists_cons_of_length_eq_add_one length.symm
    obtain ⟨kind, expected, rfl⟩ := List.exists_cons_of_length_eq_add_one length'.symm
    obtain ⟨apart, once⟩ := List.nodup_cons.mp once
    refine ih (Nat.succ.inj length) (Nat.succ.inj length') once fun later => ?_
    rw [Function.update_apply, Function.update_apply]
    split
    · exact ⟨Function.update_self .., List.forall_mem_singleton.mpr apart⟩
    · rename_i different
      obtain ⟨has, free⟩ := outside fun member => (List.mem_cons.mp member).elim different later
      refine ⟨has.congr fun v member => (Function.update_of_ne ?_ _ _).symm,
        fun v member inside => ?_⟩
      · exact fun same => free v member (List.mem_cons.mpr (.inl same))
      · exact free v member (List.mem_cons_of_mem q inside)

theorem zip_kinds {args' : List TypeExpr} (length : args.length = args'.length)
    (keep : ∀ {kind}, ∀ pair ∈ args.zip args', pair.1.Kinds names env kind →
      pair.2.Kinds names' env' kind)
    (each : ∀ entry ∈ args.zip expected, entry.1.Kinds names env entry.2) :
    ∀ entry ∈ args'.zip expected, entry.1.Kinds names' env' entry.2 := by
  intro entry member
  obtain ⟨index, inside, rfl⟩ := List.getElem_of_mem member
  rw [List.length_zip] at inside
  have short : index < args.length := by omega
  rw [List.getElem_zip]
  refine keep (args[index], args'[index])
    (List.mem_iff_getElem.mpr ⟨index, ?_, List.getElem_zip⟩) ?_
  · rw [List.length_zip]
    omega
  · refine each (args[index], expected[index])
      (List.mem_iff_getElem.mpr ⟨index, ?_, List.getElem_zip⟩)
    rw [List.length_zip]
    omega

theorem TypeExpr.Applied.kinds (uses : Applied name written args)
    (has : written.Kinds names env kind) :
    ∃ kinds, names name = some (.function kinds kind) ∧ args.length = kinds.length ∧
      ∀ entry ∈ args.zip kinds, entry.1.Kinds names env entry.2 := by
  induction uses generalizing kind with
  | name _ =>
    cases has with
    | name _ known => exact ⟨[], known, rfl, List.forall_mem_nil _⟩
  | app _ _ args ih =>
    cases has with
    | @app _ _ _ kinds' _ _ fst length each =>
      obtain ⟨kinds, known, length', each'⟩ := ih fst
      refine ⟨kinds ++ kinds', ?_, ?_, ?_⟩
      · rw [known, Kind.function_append]
      · rw [List.length_append, List.length_append, length, length']
      · rw [List.zip_append length']
        exact List.forall_mem_append.mpr ⟨each', each⟩
  | group _ _ ih =>
    cases has with
    | group _ inside => exact ih inside
    | tuple _ several _ => exact absurd rfl several

/-- The alias has the kind of the function that its body is. -/
def Synonym.HasKind (names : Name → Option Kind) (used : Synonym) : Prop :=
  ∃ kinds kind, names used.name = some (.function kinds kind) ∧ used.params.length = kinds.length ∧
    ∀ env, used.body.Kinds names (given used.params kinds env) kind

theorem TypeExpr.kinds_applied (span : Span) {head : TypeExpr}
    (fst : head.Kinds names env (.function expected kind))
    (length : args.length = expected.length)
    (each : ∀ entry ∈ args.zip expected, entry.1.Kinds names env entry.2) :
    (applied span head args).Kinds names env kind := by
  cases args with
  | nil =>
    obtain rfl := List.length_eq_zero_iff.mp length.symm
    exact fst
  | cons arg args => exact .app span fst length each

theorem TypeExpr.Becomes.kinds (becomes : Becomes synonym images written written')
    (known : ∀ used, synonym = some used → used.HasKind names) (has : written.Kinds names env kind)
    (same : ∀ v ∈ written.freeVars, (images v).HasKind names env' (env v)) :
      written'.Kinds names env' kind := by
  induction becomes generalizing env env' kind with
  | name _ span name =>
    cases has with
    | name _ found => exact .name span found
  | renamed _ span image =>
    cases has with
    | var _ _ =>
      have same := same _ (List.mem_singleton_self _)
      rw [image] at same
      exact same ▸ .var span _
  | replaced _ image =>
    cases has with
    | var _ _ =>
      have same := same _ (List.mem_singleton_self _)
      rwa [image] at same
  | app _ span _ length _ ihHead ih =>
    obtain ⟨first, rest⟩ := List.forall_mem_append.mp same
    cases has with
    | app _ fst count each =>
      refine .app span (ihHead known fst first) (length ▸ count)
        (zip_kinds length (fun pair member has => ?_) each)
      exact ih pair member known has fun v free =>
        rest v (mem_freeVarsAll.mpr ⟨_, (List.of_mem_zip member).1, free⟩)
  | arrow _ span _ _ ihParam ihResult =>
    obtain ⟨first, second⟩ := List.forall_mem_append.mp same
    cases has with
    | arrow _ fst snd => exact .arrow span (ihParam known fst first) (ihResult known snd second)
  | @tuple _ _ elements elements' _ span length _ ih =>
    have part : ∀ pair ∈ elements.zip elements', ∀ {kind}, pair.1.Kinds names env kind →
        pair.2.Kinds names env' kind :=
      fun pair member _ has => ih pair member known has fun v free =>
        same v (mem_freeVarsAll.mpr ⟨_, (List.of_mem_zip member).1, free⟩)
    cases has with
    | group _ inside =>
      obtain ⟨inner, rfl⟩ := List.length_eq_one_iff.mp length.symm
      exact .group span (part _ (List.mem_singleton_self _) inside)
    | tuple _ several each =>
      refine .tuple span (length ▸ several) fun element member => ?_
      obtain ⟨index, inside, rfl⟩ := List.getElem_of_mem member
      refine part (elements[index], elements'[index])
        (List.mem_iff_getElem.mpr ⟨index, ?_, List.getElem_zip⟩) (each _ (List.getElem_mem _))
      rw [List.length_zip]
      omega
  | quantified _ span length once outside _ ih =>
    cases has with
    | quantified _ _ count inside =>
      refine .quantified span once (length ▸ count) (ih known inside fun v free => ?_)
      refine Image.hasKind_given length count once fun outer => ⟨same v ?_, outside v free outer⟩
      exact List.mem_filter.mpr ⟨free, decide_eq_true outer⟩
  | @use used images written body' args args' span uses enough length _ _ ih ihFilled =>
    obtain ⟨kinds, found, count, each⟩ := uses.kinds has
    obtain ⟨params, result, found', count', body⟩ := known used rfl
    have whole : Kind.function params result = .function kinds kind :=
      Option.some.inj (found'.symm.trans found)
    obtain ⟨rest, rfl, rfl⟩ := Kind.function_prefix whole (by omega)
    have args_kinds : ∀ entry ∈ args'.zip (params ++ rest), entry.1.Kinds names env' entry.2 :=
      zip_kinds length (fun pair member has => ih pair member known has fun v free =>
        same v (uses.mem_freeVars (mem_freeVarsAll.mpr ⟨_, (List.of_mem_zip member).1, free⟩))) each
    rw [length, List.length_append, ← count'] at count
    have nothing : ∀ other : Synonym, Option.none = some other → other.HasKind names :=
      fun _ absurd => by cases absurd
    refine kinds_applied span (ihFilled nothing (body env') fun v _ => ?_) ?_ fun entry member =>
      args_kinds entry ?_
    · refine given_related (fun (image : Image) kind => image.HasKind names env' kind) ?_ count'.le
        (fun entry member => ?_) fun _ => rfl
      · rw [List.length_map]
        omega
      · rw [List.zip_map_left] at member
        obtain ⟨pair, inside, rfl⟩ := List.mem_map.mp member
        exact args_kinds pair (Ty.Sorted.mem_zip_append inside)
    · rw [List.length_drop, count, Nat.add_sub_cancel_left]
    · have reached : (args'.take used.params.length).length = params.length := by
        rw [List.length_take]
        omega
      rw [← List.take_append_drop used.params.length args', List.zip_append reached]
      exact List.mem_append_right _ member

end Kinds

end PolyCheck.Surface
