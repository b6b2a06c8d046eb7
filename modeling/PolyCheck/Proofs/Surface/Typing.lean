import PolyCheck.Literal.Escape
import PolyCheck.Literal.Integer
import PolyCheck.Proofs.Term.Typing
import PolyCheck.Surface

/-! Types of written expressions by the Hindley-Milner rules, which know of no substitution. They
cover literals, names of values, applications, tuples, functions whose parameter is not tested, and
groups that are not recursive. An expression has all types of a scheme if it has the type of the
scheme and the scheme quantifies over nothing that is free in the scope, because variables can be
given images throughout. -/
namespace PolyCheck

section Monotypes

def Ty.Monotype (ty : Ty) : Prop := ∃ bound, ty.FirstOrder bound

theorem exists_bound {types : List Ty} (each : ∀ ty ∈ types, ty.Monotype) :
    ∃ bound, ∀ ty ∈ types, ty.FirstOrder bound := by
  induction types with
  | nil => exact ⟨0, nofun⟩
  | cons ty types ih =>
    obtain ⟨⟨bound, first⟩, others⟩ := List.forall_mem_cons.mp each
    obtain ⟨bound', rest⟩ := ih others
    refine ⟨max bound bound', List.forall_mem_cons.mpr ⟨first.mono (Nat.le_max_left _ _), ?_⟩⟩
    exact fun other member => (rest other member).mono (Nat.le_max_right _ _)

theorem Ty.Monotype.under {ty : Ty} (plain : ty.Monotype) {images : TyVar → Ty}
    (each : ∀ v ∈ ty.leaves, (images v).Monotype) : (ty.under images).Monotype := by
  obtain ⟨bound, firstOrder⟩ := plain
  obtain ⟨bound', all⟩ := @exists_bound (ty.leaves.map images) fun image member => by
    obtain ⟨v, inLeaves, rfl⟩ := List.mem_map.mp member
    exact each v inLeaves
  exact ⟨bound', firstOrder.under fun v inLeaves => all _ (List.mem_map_of_mem inLeaves)⟩

end Monotypes

namespace Scheme

variable {scheme : Scheme} {images images' : TyVar → Ty} {ty : Ty}

/-- A type that a scheme gives at some types for its quantified variables, when its other variables
stand for their images. -/
def InstanceAt (scheme : Scheme) (images : TyVar → Ty) (ty : Ty) : Prop :=
  ∃ chosen : TyVar → Ty, (∀ v, v ∉ scheme.vars → chosen v = images v) ∧ ty = scheme.ty.under chosen

theorem InstanceAt.congr (isInstance : scheme.InstanceAt images ty) (plain : scheme.ty.Monotype)
    (same : ∀ v ∈ scheme.ty.leaves, v ∉ scheme.vars → images' v = images v) :
    scheme.InstanceAt images' ty := by
  classical
  obtain ⟨bound, firstOrder⟩ := plain
  obtain ⟨chosen, others, rfl⟩ := isInstance
  refine ⟨fun v => if v ∈ scheme.vars then chosen v else images' v, fun v free => if_neg free, ?_⟩
  refine firstOrder.under_congr fun v inLeaves => ?_
  by_cases quantified : v ∈ scheme.vars
  · rw [if_pos quantified]
  · rw [if_neg quantified, others v quantified, same v inLeaves quantified]

theorem instanceAt_mono (images : TyVar → Ty) (ty : Ty) :
    (Scheme.mono ty).InstanceAt images (ty.under images) :=
  ⟨images, fun _ _ => rfl, rfl⟩

theorem eq_of_instanceAt_mono {param : Ty} (isInstance : (Scheme.mono param).InstanceAt images ty) :
    ty = param.under images := by
  obtain ⟨chosen, others, rfl⟩ := isInstance
  rw [funext fun v => others v List.not_mem_nil]
  rfl

/-- The second scheme has every instance of the first when variables stand for their images. -/
def MapsTo (images : TyVar → Ty) (scheme scheme' : Scheme) : Prop :=
  ∀ ty, scheme.InstanceAt images ty → scheme'.Instance ty

/-- Quantified variables can be renamed apart from everything, so that the images of the free ones
do not run into them. -/
theorem exists_renamed (plain : scheme.ty.Monotype) (plainImages : ∀ v, (images v).Monotype)
    (bound : Nat) :
    ∃ (images' : TyVar → Ty) (vars : List TyVar), (∀ v, v ∉ scheme.vars → images' v = images v) ∧
      (∀ v, (images' v).Monotype) ∧ (∀ v ∈ vars, bound ≤ v.index) ∧
      scheme.MapsTo images ⟨vars, scheme.ty.under images'⟩ := by
  classical
  obtain ⟨small, whole⟩ := plain.under fun v _ => plainImages v
  obtain ⟨_, firstOrder⟩ := plain
  let shift : TyVar → TyVar := fun v => ⟨max bound small + v.index⟩
  refine ⟨fun v => if v ∈ scheme.vars then .var (shift v) else images v, scheme.vars.map shift,
    fun v free => if_neg free, fun v => ?_, fun v member => ?_, fun ty isInstance => ?_⟩
  · dsimp only
    split
    · exact ⟨_, .var (Nat.lt_succ_self _)⟩
    · exact plainImages v
  · obtain ⟨source, -, rfl⟩ := List.mem_map.mp member
    exact Nat.le_trans (Nat.le_max_left _ _) (Nat.le_add_right _ _)
  · obtain ⟨chosen, others, rfl⟩ := isInstance
    let back : TyVar → Ty := fun w =>
      if w ∈ scheme.vars.map shift then chosen ⟨w.index - max bound small⟩ else .var w
    refine ⟨back, fun w outside => if_neg outside, ?_⟩
    rw [firstOrder.under_under]
    refine firstOrder.under_congr fun v inLeaves => ?_
    by_cases quantified : v ∈ scheme.vars
    · have moved : back (shift v) = chosen v := by
        simp only [back, if_pos (List.mem_map_of_mem quantified)]
        simp only [shift, Nat.add_sub_cancel_left]
      rw [if_pos quantified, Ty.under, moved]
    · rw [if_neg quantified, others v quantified]
      have here := firstOrder.of_under whole v inLeaves
      refine (here.under_fixed fun w inImage => if_neg fun member => ?_).symm
      obtain ⟨source, -, rfl⟩ := List.mem_map.mp member
      have below := here.inside _ inImage
      simp only [shift] at below
      omega

end Scheme

namespace Context

variable {context context' : Context} {images images' : TyVar → Ty}
  {bindings bindings' : List (Name × Scheme)}

/-- First-order schemes over boundedly many variables. -/
def Monotypes (context : Context) : Prop :=
  ∃ bound, ∀ name scheme, context name = some scheme → scheme.ty.FirstOrder bound

theorem Monotypes.ty (monotypes : context.Monotypes) {name : Name} {scheme : Scheme}
    (known : context name = some scheme) : scheme.ty.Monotype :=
  monotypes.imp fun _ each => each name scheme known

theorem mem_of_lookup_reverse {name : Name} {scheme : Scheme}
    (bound : bindings.reverse.lookup name = some scheme) : (name, scheme) ∈ bindings := by
  obtain ⟨first, rest, split, -⟩ := List.lookup_eq_some_iff.mp bound
  refine List.mem_reverse.mp ?_
  rw [split]
  simp

theorem Monotypes.extend (monotypes : context.Monotypes)
    (each : ∀ binding ∈ bindings, binding.2.ty.Monotype) : (context.extend bindings).Monotypes := by
  obtain ⟨bound, outer⟩ := monotypes
  obtain ⟨bound', inner⟩ := @exists_bound (bindings.map (·.2.ty)) fun ty member => by
    obtain ⟨binding, inBindings, rfl⟩ := List.mem_map.mp member
    exact each binding inBindings
  refine ⟨max bound bound', fun name scheme known => ?_⟩
  rcases Option.or_eq_some_iff.mp known with found | ⟨-, outside⟩
  · exact (inner _ (List.mem_map_of_mem (mem_of_lookup_reverse found))).mono (Nat.le_max_right _ _)
  · exact (outer name scheme outside).mono (Nat.le_max_left _ _)

theorem Monotypes.extend_mono (monotypes : context.Monotypes) {name : Name} {ty : Ty}
    (plain : ty.Monotype) : (context.extend [(name, .mono ty)]).Monotypes :=
  monotypes.extend (List.forall_mem_singleton.mpr plain)

/-- The second context has every name of the first, with a related scheme. -/
def Within (related : Scheme → Scheme → Prop) (context context' : Context) : Prop :=
  ∀ name scheme, context name = some scheme →
    ∃ scheme', context' name = some scheme' ∧ related scheme scheme'

theorem Within.extend {related : Scheme → Scheme → Prop} (within : Within related context context')
    (each : List.Forall₂ (fun binding binding' =>
      binding.1 = binding'.1 ∧ related binding.2 binding'.2) bindings bindings') :
    Within related (context.extend bindings) (context'.extend bindings') := by
  intro name scheme known
  have both := rel_lookup (List.rel_reverse each) name
  rw [Context.extend] at known ⊢
  generalize bindings.reverse.lookup name = found at both known
  generalize bindings'.reverse.lookup name = found' at both
  cases both with
  | some holds =>
    obtain rfl := Option.some.inj known
    exact ⟨_, rfl, holds⟩
  | none => exact within name scheme known

theorem Within.extend_mono (within : Within (Scheme.MapsTo images) context context') (name : Name)
    {ty : Ty} (plain : ty.Monotype) (plainImages : ∀ v, (images v).Monotype) :
    Within (Scheme.MapsTo images) (context.extend [(name, .mono ty)])
      (context'.extend [(name, .mono (ty.under images))]) := by
  refine within.extend (.cons ⟨rfl, fun other isInstance => ?_⟩ .nil)
  obtain ⟨bound, whole⟩ := plain.under fun v _ => plainImages v
  rw [Scheme.eq_of_instanceAt_mono isInstance]
  exact ⟨.var, fun _ _ => rfl, whole.under_var.symm⟩

theorem Within.change (within : Within (Scheme.MapsTo images) context context')
    (monotypes : context.Monotypes) {vars : List TyVar} (closed : ∀ v ∈ vars, context.Closed v)
    (same : ∀ v, v ∉ vars → images' v = images v) :
    Within (Scheme.MapsTo images') context context' := by
  intro name scheme known
  obtain ⟨scheme', known', holds⟩ := within name scheme known
  refine ⟨scheme', known', fun ty isInstance => holds ty ?_⟩
  refine isInstance.congr (monotypes.ty known) fun v inLeaves free => (same v fun member => ?_).symm
  exact free (closed v member name scheme known inLeaves)

theorem within_refl (context : Context) : Within (Scheme.MapsTo .var) context context :=
  fun _ scheme known => ⟨scheme, known, fun _ => id⟩

end Context

namespace Surface

mutual

/-- The widths of the integer literals of an expression, from left to right. Patterns are left
out. -/
def Expr.widths (width : Nat) : Expr → List Nat
  | .lit _ (.int _ suffix) => [suffix.getD width]
  | .lit _ _ => []
  | .ident _ _ => []
  | .app _ func arg => func.widths width ++ arg.widths width
  | .tuple _ elements => Expr.widthsAll width elements
  | .lambda _ cases => Expr.widthsCases width cases
  | .letIn _ _ bindings body => Expr.widthsBindings width bindings ++ body.widths width
  | .matchOn _ scrutinee cases => scrutinee.widths width ++ Expr.widthsCases width cases
  | .ascribed _ inner _ => inner.widths width

def Expr.widthsAll (width : Nat) : List Expr → List Nat
  | [] => []
  | expr :: rest => expr.widths width ++ Expr.widthsAll width rest

def Expr.widthsCases (width : Nat) : List Case → List Nat
  | [] => []
  | ⟨_, _, body⟩ :: rest => body.widths width ++ Expr.widthsCases width rest

def Expr.widthsBindings (width : Nat) : List Binding → List Nat
  | [] => []
  | ⟨_, _, _, value⟩ :: rest => value.widths width ++ Expr.widthsBindings width rest

end

mutual

/-- The types of an expression. An integer literal without a suffix has the width given. -/
inductive HasType (registry : Registry) (width : Nat) : Context → Expr → Ty → Prop where
  | bool {context : Context} (span : Span) (value : Bool) :
    HasType registry width context (.lit span (.bool value)) Registry.boolTy
  | int {context : Context} (span : Span) {magnitude : Nat} {suffix : Option Nat} {value : Int}
    {id : TemplateId} (valid : intValue magnitude (suffix.getD width) = .ok value)
    (known : registry.ints.get? (suffix.getD width) = some id) :
    HasType registry width context (.lit span (.int magnitude suffix)) (.named id)
  | str {context : Context} (span : Span) {raw : String} {bytes : Bytes}
    (valid : Escape.decode raw = .ok bytes) :
    HasType registry width context (.lit span (.str raw)) Registry.stringTy
  | ident {context : Context} (span : Span) {name : Name} {scheme : Scheme} {ty : Ty}
    (isValue : registry.ctors.get? name = none) (known : context name = some scheme)
    (isInstance : scheme.Instance ty) (plain : ty.Monotype) :
    HasType registry width context (.ident span name) ty
  | app {context : Context} (span : Span) {func arg : Expr} {param result : Ty}
    (function : HasType registry width context func (.arrow param result))
    (argument : HasType registry width context arg param) :
    HasType registry width context (.app span func arg) result
  | tuple {context : Context} (span : Span) {elements : List Expr} {types : List Ty}
    (many : elements.length ≠ 1) (each : HaveTypes registry width context elements types) :
    HasType registry width context (.tuple span elements) (.tuple types)
  | wild {context : Context} (span caseSpan patternSpan : Span) {body : Expr} {param result : Ty}
    (plain : param.Monotype) (typed : HasType registry width context body result) :
    HasType registry width context (.lambda span [⟨caseSpan, .wild patternSpan, body⟩])
      (.arrow param result)
  | bind {context : Context} (span caseSpan patternSpan : Span) {name : Name} {body : Expr}
    {param result : Ty} (isValue : registry.ctors.get? name = none) (plain : param.Monotype)
    (typed : HasType registry width (context.extend [(name, .mono param)]) body result) :
    HasType registry width context (.lambda span [⟨caseSpan, .bind patternSpan name, body⟩])
      (.arrow param result)
  | letIn {context : Context} (span : Span) {bindings : List Binding}
    {schemes : List (Name × Scheme)} {body : Expr} {ty : Ty}
    (distinct : (bindings.map (·.name)).Nodup)
    (values : HaveSchemes registry width context bindings schemes)
    (typed : HasType registry width (context.extend schemes) body ty) :
    HasType registry width context (.letIn span false bindings body) ty

inductive HaveTypes (registry : Registry) (width : Nat) : Context → List Expr → List Ty → Prop where
  | nil {context : Context} : HaveTypes registry width context [] []
  | cons {context : Context} {expr : Expr} {exprs : List Expr} {ty : Ty} {types : List Ty}
    (first : HasType registry width context expr ty)
    (rest : HaveTypes registry width context exprs types) :
    HaveTypes registry width context (expr :: exprs) (ty :: types)

/-- The names of a group with schemes over what is not free in the scope. -/
inductive HaveSchemes (registry : Registry) (width : Nat) :
    Context → List Binding → List (Name × Scheme) → Prop where
  | nil {context : Context} : HaveSchemes registry width context [] []
  | cons {context : Context} (span : Span) {name : Name} {value : Expr} {bindings : List Binding}
    {scheme : Scheme} {schemes : List (Name × Scheme)} (plain : scheme.ty.Monotype)
    (general : ∀ v ∈ scheme.vars, context.Closed v)
    (first : HasType registry width context value scheme.ty)
    (rest : HaveSchemes registry width context bindings schemes) :
    HaveSchemes registry width context (⟨span, name, none, value⟩ :: bindings)
      ((name, scheme) :: schemes)

end

variable {registry : Registry} {width : Nat} {context context' : Context} {images : TyVar → Ty}

theorem HaveSchemes.monotypes {bindings : List Binding} {schemes : List (Name × Scheme)}
    (values : HaveSchemes registry width context bindings schemes) :
    ∀ binding ∈ schemes, binding.2.ty.Monotype := by
  induction bindings generalizing schemes with
  | nil =>
    cases values
    exact nofun
  | cons binding bindings ih =>
    cases values with
    | cons _ plain _ _ rest => exact List.forall_mem_cons.mpr ⟨plain, ih rest⟩

mutual

theorem HasType.under : ∀ (expr : Expr) {context context' : Context} {ty : Ty}
    {images : TyVar → Ty},
    HasType registry width context expr ty → context.Monotypes → context'.Monotypes →
    (∀ v, (images v).Monotype) → Context.Within (Scheme.MapsTo images) context context' →
    HasType registry width context' expr (ty.under images)
  | .lit span _, _, _, _, _, typed, _, _, _, _ => by
    cases typed with
    | bool _ value => exact .bool span value
    | int _ valid known => exact .int span valid known
    | str _ valid => exact .str span valid
  | .ident span _, _, _, _, images, typed, monotypes, _, plainImages, within => by
    cases typed with
    | ident _ isValue known isInstance plain =>
      obtain ⟨scheme', known', holds⟩ := within _ _ known
      obtain ⟨_, firstOrder⟩ := monotypes.ty known
      obtain ⟨chosen, others, rfl⟩ := isInstance
      refine .ident span isValue known'
        (holds _ ⟨fun v => (chosen v).under images, fun v free => ?_, ?_⟩)
        (plain.under fun v _ => plainImages v)
      · dsimp only
        rw [others v free, Ty.under]
      · exact firstOrder.under_under chosen _
  | .app span func arg, _, _, _, _, typed, monotypes, monotypes', plainImages, within => by
    cases typed with
    | app _ function argument =>
      have function' := HasType.under func function monotypes monotypes' plainImages within
      rw [Ty.under] at function'
      exact .app span function' (HasType.under arg argument monotypes monotypes' plainImages within)
  | .tuple span elements, _, _, _, _, typed, monotypes, monotypes', plainImages, within => by
    cases typed with
    | tuple _ many each =>
      rw [Ty.under]
      exact .tuple span many (HaveTypes.under elements each monotypes monotypes' plainImages within)
  | .lambda span cases, _, _, _, _, typed, monotypes, monotypes', plainImages, within => by
    cases typed with
    | @wild _ _ caseSpan patternSpan body _ _ plain typed =>
      rw [Ty.under]
      exact .wild span caseSpan patternSpan (plain.under fun v _ => plainImages v)
        (HasType.under body typed monotypes monotypes' plainImages within)
    | @bind _ _ caseSpan patternSpan name body _ _ isValue plain typed =>
      have plain' := plain.under fun v _ => plainImages v
      rw [Ty.under]
      exact .bind span caseSpan patternSpan isValue plain' (HasType.under body typed
        (monotypes.extend_mono plain) (monotypes'.extend_mono plain') plainImages
        (within.extend_mono name plain plainImages))
  | .letIn span _ bindings body, _, _, _, _, typed, monotypes, monotypes', plainImages, within => by
    cases typed with
    | letIn _ distinct values typed =>
      obtain ⟨schemes', values', each⟩ :=
        HaveSchemes.under bindings values monotypes monotypes' plainImages within
      exact .letIn span distinct values' (HasType.under body typed
        (monotypes.extend values.monotypes) (monotypes'.extend values'.monotypes) plainImages
        (within.extend each))
  | .matchOn _ _ _, _, _, _, _, typed, _, _, _, _ => by cases typed
  | .ascribed _ _ _, _, _, _, _, typed, _, _, _, _ => by cases typed
termination_by expr => sizeOf expr

theorem HaveTypes.under : ∀ (exprs : List Expr) {context context' : Context} {types : List Ty}
    {images : TyVar → Ty}, HaveTypes registry width context exprs types → context.Monotypes →
    context'.Monotypes → (∀ v, (images v).Monotype) →
      Context.Within (Scheme.MapsTo images) context context' →
    HaveTypes registry width context' exprs (Ty.underAll images types)
  | [], _, _, _, _, typed, _, _, _, _ => by
    cases typed
    exact .nil
  | expr :: exprs, _, _, _, _, typed, monotypes, monotypes', plainImages, within => by
    cases typed with
    | cons first rest =>
      rw [Ty.underAll]
      exact .cons (HasType.under expr first monotypes monotypes' plainImages within)
        (HaveTypes.under exprs rest monotypes monotypes' plainImages within)
termination_by exprs => sizeOf exprs

theorem HaveSchemes.under : ∀ (bindings : List Binding) {context context' : Context}
    {schemes : List (Name × Scheme)} {images : TyVar → Ty},
    HaveSchemes registry width context bindings schemes → context.Monotypes → context'.Monotypes →
    (∀ v, (images v).Monotype) → Context.Within (Scheme.MapsTo images) context context' →
    ∃ schemes', HaveSchemes registry width context' bindings schemes' ∧
      List.Forall₂ (fun binding binding' =>
        binding.1 = binding'.1 ∧ binding.2.MapsTo images binding'.2) schemes schemes'
  | [], _, _, _, _, values, _, _, _, _ => by
    cases values
    exact ⟨[], .nil, .nil⟩
  | ⟨span, name, _, value⟩ :: bindings, _, _, _, _, values, monotypes, monotypes', plainImages,
      within => by
    cases values with
    | @cons _ _ _ _ _ scheme _ plain general first rest =>
      obtain ⟨bound, below⟩ := monotypes'
      obtain ⟨images', vars, same, plainImages', far, instances⟩ :=
        Scheme.exists_renamed plain plainImages bound
      have within' := within.change monotypes general same
      have first' := HasType.under value first monotypes ⟨bound, below⟩ plainImages' within'
      obtain ⟨schemes', values', each⟩ :=
        HaveSchemes.under bindings rest monotypes ⟨bound, below⟩ plainImages within
      refine ⟨(name, ⟨vars, scheme.ty.under images'⟩) :: schemes', .cons span
        (plain.under fun v _ => plainImages' v) (fun v member => ?_) first' values',
        .cons ⟨rfl, instances⟩ each⟩
      intro other known found inLeaves
      exact absurd ((below other known found).inside v inLeaves) (Nat.not_lt.mpr (far v member))
termination_by bindings => sizeOf bindings

end

theorem HasType.isInstance {expr : Expr} {scheme : Scheme}
    (typed : HasType registry width context expr scheme.ty) (monotypes : context.Monotypes)
    (plain : scheme.ty.Monotype) (general : ∀ v ∈ scheme.vars, context.Closed v) {ty : Ty}
    (plainTy : ty.Monotype) (isInstance : scheme.Instance ty) :
    HasType registry width context expr ty := by
  classical
  obtain ⟨_, firstOrder⟩ := plain
  obtain ⟨bound, whole⟩ := plainTy
  obtain ⟨chosen, others, rfl⟩ := isInstance
  let images : TyVar → Ty := fun v => if v ∈ scheme.ty.leaves then chosen v else .var v
  have same : scheme.ty.under images = scheme.ty.under chosen :=
    firstOrder.under_congr fun v inLeaves => if_pos inLeaves
  rw [← same]
  refine HasType.under expr typed monotypes monotypes (fun v => ?_)
    ((Context.within_refl context).change monotypes general fun v free => ?_)
  · by_cases inLeaves : v ∈ scheme.ty.leaves
    · simp only [images, if_pos inLeaves]
      exact ⟨bound, firstOrder.of_under whole v inLeaves⟩
    · simp only [images, if_neg inLeaves]
      exact ⟨_, .var (Nat.lt_succ_self _)⟩
  · by_cases inLeaves : v ∈ scheme.ty.leaves
    · simp only [images, if_pos inLeaves, others v free]
    · simp only [images, if_neg inLeaves]

theorem HaveSchemes.instances {bindings : List Binding} {schemes : List (Name × Scheme)}
    (values : HaveSchemes registry width context bindings schemes) (monotypes : context.Monotypes)
    {pick : Name × Scheme → Ty}
    (each : ∀ binding ∈ schemes, (pick binding).Monotype ∧ binding.2.Instance (pick binding)) :
    List.Forall₂ (fun binding ty => HasType registry width context binding.value ty) bindings
      (schemes.map pick) := by
  induction bindings generalizing schemes with
  | nil =>
    cases values
    exact .nil
  | cons binding bindings ih =>
    cases values with
    | cons _ plain general first rest =>
      obtain ⟨here, others⟩ := List.forall_mem_cons.mp each
      exact .cons (first.isInstance monotypes plain general here.1 here.2) (ih rest others)

theorem HaveSchemes.names {bindings : List Binding} {schemes : List (Name × Scheme)}
    (values : HaveSchemes registry width context bindings schemes) :
    bindings.map (·.name) = schemes.map (·.1) := by
  induction bindings generalizing schemes with
  | nil =>
    cases values
    rfl
  | cons binding bindings ih =>
    cases values with
    | cons _ _ _ _ rest => exact congrArg _ (ih rest)

end Surface

end PolyCheck
