import PolyCheck.Proofs.Term.Selection
import PolyCheck.Proofs.Term.Values
import PolyCheck.Term.Lowering

/-! Terms and values before and after lowering. A function value goes with one whose body is the
lowered body, in a scope where the names of programs have values that go together; the names that
decision trees mint may stand beside them. Values that go together show the same heads and are
matched in the same way. -/
namespace PolyCheck

variable {subst : Subst} {registry : Registry}

namespace Term

/-- A term and what lowering makes of it, whichever names are minted for it. -/
def Lowers (subst : Subst) (registry : Registry) (term lowered : Term) : Prop :=
  ∃ supply : NameSupply, lowered = (term.lower subst registry supply).1

def LowersArm (subst : Subst) (registry : Registry) (arm lowered : Arm) : Prop :=
  lowered.pat = arm.pat ∧ Lowers subst registry arm.body lowered.body

def LowersDefinition (subst : Subst) (registry : Registry)
    (definition lowered : Definition) : Prop :=
  lowered.name = definition.name ∧ Lowers subst registry definition.value lowered.value

theorem lowers_lowerAll (terms : List Term) (supply : NameSupply) :
    List.Forall₂ (Lowers subst registry) terms (lowerAll subst registry terms supply).1 := by
  induction terms generalizing supply with
  | nil => exact .nil
  | cons term terms ih => exact .cons ⟨supply, rfl⟩ (ih _)

theorem lowers_lowerArms (arms : List Arm) (supply : NameSupply) :
    List.Forall₂ (LowersArm subst registry) arms (lowerArms subst registry arms supply).1 := by
  induction arms generalizing supply with
  | nil => exact .nil
  | cons arm arms ih =>
    obtain ⟨pat, body⟩ := arm
    refine List.Forall₂.cons ?_ (ih (lower subst registry body supply).2)
    exact ⟨rfl, supply, rfl⟩

theorem lowers_lowerDefinitions (definitions : List Definition) (supply : NameSupply) :
    List.Forall₂ (LowersDefinition subst registry) definitions
      (lowerDefinitions subst registry definitions supply).1 := by
  induction definitions generalizing supply with
  | nil => exact .nil
  | cons definition definitions ih =>
    obtain ⟨name, scheme, value⟩ := definition
    refine List.Forall₂.cons ?_ (ih (lower subst registry value supply).2)
    exact ⟨rfl, supply, rfl⟩

section Inversion

variable {lowered : Term} {ty : Ty}

theorem Lowers.tuple_inv {elems : List Term}
    (lowers : Lowers subst registry (.tuple elems ty) lowered) :
    ∃ elems', lowered = .tuple elems' ty ∧ List.Forall₂ (Lowers subst registry) elems elems' := by
  obtain ⟨supply, rfl⟩ := lowers
  exact ⟨_, rfl, lowers_lowerAll elems supply⟩

theorem Lowers.ctor_inv {name : Name} {id : TemplateId} {index : Nat} {arg : Term}
    (lowers : Lowers subst registry (.ctor name id index (some arg) ty) lowered) :
    ∃ arg', lowered = .ctor name id index (some arg') ty ∧ Lowers subst registry arg arg' := by
  obtain ⟨supply, rfl⟩ := lowers
  exact ⟨_, rfl, supply, rfl⟩

theorem Lowers.lambda_inv {param : Name} {paramTy : Ty} {body : Term}
    (lowers : Lowers subst registry (.lambda param paramTy body ty) lowered) :
    ∃ body', lowered = .lambda param paramTy body' ty ∧ Lowers subst registry body body' := by
  obtain ⟨supply, rfl⟩ := lowers
  exact ⟨_, rfl, supply, rfl⟩

theorem Lowers.app_inv {func arg : Term}
    (lowers : Lowers subst registry (.app func arg ty) lowered) :
    ∃ func' arg', lowered = .app func' arg' ty ∧ Lowers subst registry func func' ∧
      Lowers subst registry arg arg' := by
  obtain ⟨supply, rfl⟩ := lowers
  exact ⟨_, _, rfl, ⟨supply, rfl⟩, _, rfl⟩

theorem Lowers.letIn_inv {recursive : Bool} {definitions : List Definition} {body : Term}
    (lowers : Lowers subst registry (.letIn recursive definitions body ty) lowered) :
    ∃ definitions' body', lowered = .letIn recursive definitions' body' ty ∧
      List.Forall₂ (LowersDefinition subst registry) definitions definitions' ∧
      Lowers subst registry body body' := by
  obtain ⟨supply, rfl⟩ := lowers
  exact ⟨_, _, rfl, lowers_lowerDefinitions definitions supply, _, rfl⟩

theorem Lowers.matchOn_inv {scrutinee : Term} {arms : List Arm}
    (lowers : Lowers subst registry (.matchOn scrutinee arms ty) lowered) :
    ∃ scrutinee' arms' supply,
      lowered = (Decision.compile subst registry scrutinee' arms' ty supply).1 ∧
      Lowers subst registry scrutinee scrutinee' ∧
      List.Forall₂ (LowersArm subst registry) arms arms' := by
  obtain ⟨supply, rfl⟩ := lowers
  exact ⟨_, _, _, rfl, ⟨supply, rfl⟩, lowers_lowerArms arms _⟩

theorem Lowers.ty_eq {term : Term} (lowers : Lowers subst registry term lowered) :
    lowered.ty = term.ty := by
  obtain ⟨supply, rfl⟩ := lowers
  cases term <;> rw [lower] <;> rfl

end Inversion

end Term

inductive Value.Lowers (subst : Subst) (registry : Registry) : Value → Value → Prop where
  | bool (value : Bool) : Lowers subst registry (.bool value) (.bool value)
  | int (value : Int) : Lowers subst registry (.int value) (.int value)
  | str (bytes : Bytes) : Lowers subst registry (.str bytes) (.str bytes)
  | tuple {elems elems' : List Value} (length : elems.length = elems'.length)
    (each : ∀ entry ∈ elems.zip elems', Lowers subst registry entry.1 entry.2) :
    Lowers subst registry (.tuple elems) (.tuple elems')
  | constant (index : Nat) : Lowers subst registry (.ctor index none) (.ctor index none)
  | ctor (index : Nat) {arg arg' : Value} (holds : Lowers subst registry arg arg') :
    Lowers subst registry (.ctor index (some arg)) (.ctor index (some arg'))
  | closure {param : Name} {body body' : Term} {env env' : Bindings}
    (lowers : Term.Lowers subst registry body body')
    (names : ∀ name : Name, name.Apart → (env'.value? name).isSome = (env.value? name).isSome)
    (values : ∀ (name : Name) (value value' : Value), name.Apart → env.value? name = some value →
      env'.value? name = some value' → Lowers subst registry value value') :
    Lowers subst registry (.closure param body env) (.closure param body' env')

/-- The names of programs have values that go together. -/
def Bindings.Lowers (subst : Subst) (registry : Registry) (env env' : Bindings) : Prop :=
  ∀ name : Name, name.Apart →
    Option.Rel (Value.Lowers subst registry) (env.value? name) (env'.value? name)

namespace Value

theorem lowers_tuple_iff {elems elems' : List Value} :
    Lowers subst registry (.tuple elems) (.tuple elems') ↔
      List.Forall₂ (Lowers subst registry) elems elems' := by
  rw [List.forall₂_iff_zip]
  constructor
  · intro lowers
    cases lowers with
    | tuple length each => exact ⟨length, fun {a b} member => each (a, b) member⟩
  · exact fun ⟨length, each⟩ => .tuple length fun entry member => each member

theorem lowers_closure_iff {param : Name} {body : Term} {env : Bindings} {value : Value} :
    Lowers subst registry (.closure param body env) value ↔
      ∃ (body' : Term) (env' : Bindings), value = .closure param body' env' ∧
        Term.Lowers subst registry body body' ∧ Bindings.Lowers subst registry env env' := by
  constructor
  · intro lowers
    cases lowers with
    | closure lowers names values =>
      refine ⟨_, _, rfl, lowers, fun name apart => ?_⟩
      have same := names name apart
      rename_i env'
      cases found : env.value? name with
      | none =>
        rw [found] at same
        rw [Option.not_isSome_iff_eq_none.mp (by simp [same] : ¬ (env'.value? name).isSome)]
        exact .none
      | some value =>
        rw [found] at same
        obtain ⟨value', found'⟩ := Option.isSome_iff_exists.mp same
        rw [found']
        exact .some (values name value value' apart found found')
  · rintro ⟨body', env', rfl, lowers, values⟩
    refine .closure lowers (fun name apart => ?_) fun name value value' apart found found' => ?_
    · have related := values name apart
      generalize env.value? name = found at related
      generalize env'.value? name = found' at related
      cases related with
      | none => rfl
      | some _ => rfl
    · have related := values name apart
      rw [found, found'] at related
      cases related with
      | some lowers => exact lowers

theorem pack_eq_tuple {fields : List Value} (several : 2 ≤ fields.length) :
    pack fields = some (.tuple fields) := by
  match fields, several with
  | _ :: _ :: _, _ => rfl

theorem exists_fields {fields : List Value} {types : List Ty} {arg arg' : Value}
    (packed : pack fields = some arg) (each : List.Forall₂ (HasType subst registry) fields types)
    (lowers : Lowers subst registry arg arg')
    (keeps : ∀ {ty : Ty}, arg.HasType subst registry ty → arg'.HasType subst registry ty) :
    ∃ fields', pack fields' = some arg' ∧ List.Forall₂ (HasType subst registry) fields' types := by
  match fields, packed, each with
  | [_], packed, .cons first .nil =>
    obtain rfl := Option.some.inj packed
    exact ⟨[arg'], rfl, .cons (keeps first) .nil⟩
  | first :: second :: rest, packed, each =>
    obtain rfl := Option.some.inj packed
    have whole := keeps (.tuple (Pat.family_tuple subst registry types) each)
    cases lowers with
    | @tuple _ elems' length _ =>
      refine ⟨elems', pack_eq_tuple ?_, ?_⟩
      · rw [← length]
        simp
      · cases whole with
        | unknown family =>
          rw [Pat.family_tuple] at family
          cases family
        | tuple family each' =>
          rw [Pat.family_tuple] at family
          obtain rfl := Family.tuple.inj family
          exact each'

theorem Lowers.hasType {value value' : Value} (lowers : Lowers subst registry value value') :
    ∀ {ty : Ty}, value.HasType subst registry ty → value'.HasType subst registry ty := by
  induction lowers with
  | bool _ => exact fun typed => typed
  | int _ => exact fun typed => typed
  | str _ => exact fun typed => typed
  | @tuple elems elems' length each ih =>
    intro ty typed
    cases typed with
    | unknown family => exact .unknown family _
    | tuple family typed =>
      obtain ⟨typedLength, typedEach⟩ := List.forall₂_iff_get.mp typed
      refine .tuple family
        (List.forall₂_iff_get.mpr ⟨length ▸ typedLength, fun i inside inside' => ?_⟩)
      have inside'' : i < elems.length := length ▸ inside
      have member : (elems.get ⟨i, inside''⟩, elems'.get ⟨i, inside⟩) ∈ elems.zip elems' :=
        List.mem_iff_getElem.mpr ⟨i, by simp [inside, inside''], by simp⟩
      exact ih _ member (typedEach i inside'' inside')
  | constant _ => exact fun typed => typed
  | @ctor index arg arg' holds ih =>
    intro ty typed
    generalize same : Value.ctor index (some arg) = whole at typed
    cases typed with
    | unknown family => exact .unknown family _
    | bool _ => cases same
    | int _ _ => cases same
    | str _ => cases same
    | tuple _ _ => cases same
    | ctor family inside each =>
      obtain ⟨rfl, packed⟩ := Value.ctor.inj same
      obtain ⟨fields', packed', each'⟩ := exists_fields packed.symm each holds ih
      rw [← packed']
      exact .ctor family inside each'
  | closure _ _ _ =>
    intro ty typed
    cases typed with
    | unknown family => exact .unknown family _

end Value

def Bindings.LowersEach (subst : Subst) (registry : Registry) : Bindings → Bindings → Prop :=
  List.Forall₂ fun entry entry' => entry.1 = entry'.1 ∧ Value.Lowers subst registry entry.2 entry'.2

namespace Pat

abbrev MatchesLower (subst : Subst) (registry : Registry) : Option Bindings →
    Option Bindings → Prop :=
  Option.Rel (Bindings.LowersEach subst registry)

theorem matchesLower_ite {holds : Prop} [Decidable holds] {found found' : Option Bindings}
    (related : MatchesLower subst registry found found') :
    MatchesLower subst registry (if holds then found else none)
    (if holds then found' else none) := by
  split
  · exact related
  · exact .none

theorem matchHeld?_lowers {ps : List Pat} (all : ∀ {values values' : List Value},
      List.Forall₂ (Value.Lowers subst registry) values values' →
        MatchesLower subst registry (matchAll? ps values) (matchAll? ps values'))
    {arg arg' : Value} (lowers : arg.Lowers subst registry arg') :
    MatchesLower subst registry ((Value.unpack ps.length (some arg)).bind (matchAll? ps))
      ((Value.unpack ps.length (some arg')).bind (matchAll? ps)) := by
  obtain _ | ⟨p, _ | ⟨q, rest⟩⟩ := ps
  · cases lowers with
    | tuple length each => exact all (Value.lowers_tuple_iff.mp (.tuple length each))
    | _ => exact .none
  · exact all (.cons lowers .nil)
  · cases lowers with
    | tuple length each => exact all (Value.lowers_tuple_iff.mp (.tuple length each))
    | _ => exact .none

mutual

theorem match?_lowers : ∀ (p : Pat) {value value' : Value}, value.Lowers subst registry value' →
    MatchesLower subst registry (p.match? value) (p.match? value')
  | .wild capture, _, _, lowers => by
    rw [match?_wild, match?_wild]
    cases capture with
    | none => exact .some .nil
    | some name => exact .some (.cons ⟨rfl, lowers⟩ .nil)
  | .bool _, _, _, lowers => by
    cases lowers with
    | bool _ => exact matchesLower_ite (.some .nil)
    | _ => exact .none
  | .int _ _, _, _, lowers => by
    cases lowers with
    | int _ => exact matchesLower_ite (.some .nil)
    | _ => exact .none
  | .str _, _, _, lowers => by
    cases lowers with
    | str _ => exact matchesLower_ite (.some .nil)
    | _ => exact .none
  | .tuple elems, _, _, lowers => by
    cases lowers with
    | tuple length each =>
      exact matchAll?_lowers elems (Value.lowers_tuple_iff.mp (.tuple length each))
    | _ => exact .none
  | .ctor _ _ _ args, _, _, lowers => by
    cases lowers with
    | constant index =>
      refine matchesLower_ite ?_
      cases args with
      | nil => exact .some .nil
      | cons _ rest => cases rest <;> exact .none
    | ctor index holds => exact matchesLower_ite (matchHeld?_lowers (matchAll?_lowers args) holds)
    | _ => exact .none
  | .oneOf alternatives, _, _, lowers => matchFirst?_lowers alternatives lowers
termination_by structural p => p

theorem matchAll?_lowers : ∀ (ps : List Pat) {values values' : List Value},
    List.Forall₂ (Value.Lowers subst registry) values values' →
      MatchesLower subst registry (matchAll? ps values) (matchAll? ps values')
  | [], _, _, lowers => by
    cases lowers with
    | nil => exact .some .nil
    | cons _ _ => exact .none
  | p :: ps, _, _, lowers => by
    cases lowers with
    | nil => exact .none
    | @cons value value' values values' first rest =>
      have here := match?_lowers p first
      have others := matchAll?_lowers ps rest
      simp only [matchAll?, Option.bind_eq_bind]
      generalize p.match? value = found at here
      generalize p.match? value' = found' at here
      cases here with
      | none => exact .none
      | some one =>
        generalize matchAll? ps values = more at others
        generalize matchAll? ps values' = more' at others
        cases others with
        | none => exact .none
        | some two => exact .some (List.rel_append one two)
termination_by structural ps => ps

theorem matchFirst?_lowers : ∀ (ps : List Pat) {value value' : Value},
    value.Lowers subst registry value' →
    MatchesLower subst registry (matchFirst? ps value) (matchFirst? ps value')
  | [], _, _, _ => .none
  | p :: ps, value, value', lowers => by
    have here := match?_lowers p lowers
    have others := matchFirst?_lowers ps lowers
    rw [matchFirst?, matchFirst?]
    generalize p.match? value = found at here
    generalize p.match? value' = found' at here
    cases here with
    | some one => exact .some one
    | none => exact others
termination_by structural ps => ps

end

end Pat

section Scopes

variable {images : TyVar → Ty} {context : Context} {env env' more more' : Bindings}

namespace Bindings

theorem LowersEach.value? (each : LowersEach subst registry more more') (name : Name) :
    Option.Rel (Value.Lowers subst registry) (more.value? name) (more'.value? name) :=
  rel_lookup (List.forall₂_reverse_iff.mpr each) name

theorem Lowers.append (lowers : Lowers subst registry env env')
    (latest : ∀ name : Name, name.Apart →
      Option.Rel (Value.Lowers subst registry) (more.value? name) (more'.value? name)) :
    Lowers subst registry (env ++ more) (env' ++ more') := by
  intro name apart
  rw [value?_append, value?_append]
  have recent := latest name apart
  generalize more.value? name = found at recent
  generalize more'.value? name = found' at recent
  cases recent with
  | some holds => exact .some holds
  | none => exact lowers name apart

theorem value?_minted {supply : NameSupply} (minted : ∀ entry ∈ env, ¬ supply.Spent entry.1)
    {name : Name} (apart : name.Apart) : env.value? name = none := by
  rw [value?, List.lookup_eq_none_iff]
  intro entry member
  rw [bne_iff_ne]
  rintro rfl
  exact minted entry (List.mem_reverse.mp member) (NameSupply.spent_of_apart apart)

theorem Lowers.hide (lowers : Lowers subst registry env env') {supply : NameSupply}
    (minted : ∀ entry ∈ more', ¬ supply.Spent entry.1) :
    Lowers subst registry env (env' ++ more') := by
  intro name apart
  rw [value?_append, value?_minted minted apart, Option.none_or]
  exact lowers name apart

theorem mem_of_value? {name : Name} {value : Value} (found : env.value? name = some value) :
    (name, value) ∈ env := by
  obtain ⟨before, rest, split, -⟩ := List.lookup_eq_some_iff.mp found
  rw [← List.mem_reverse, split]
  simp

theorem value?_eq_none_iff {name : Name} : env.value? name = none ↔ name ∉ env.map (·.1) := by
  rw [value?, List.lookup_eq_none_iff]
  simp only [List.mem_reverse, bne_iff_ne, List.mem_map, not_exists, not_and]
  exact ⟨fun absent entry member same => absent entry member same.symm,
    fun absent entry member same => absent entry member same.symm⟩

theorem Typed.append (typed : Typed subst registry images context env)
    {bindings : List (Name × Scheme)}
    (latest : ∀ name,
      Option.Rel (fun scheme value => ∀ images', SameOutside scheme.vars images images' →
      Value.Typed subst registry value (scheme.ty.under images'))
      (bindings.reverse.lookup name) (more.value? name)) :
    Typed subst registry images (context.extend bindings) (env ++ more) := by
  intro name scheme value known found
  rw [Context.extend] at known
  rw [value?_append] at found
  have recent := latest name
  generalize bindings.reverse.lookup name = own at recent known
  generalize more.value? name = own' at recent found
  cases recent with
  | some holds =>
    obtain rfl := Option.some.inj known
    obtain rfl := Option.some.inj found
    exact holds
  | none => exact typed name scheme value known found

theorem Typed.captures (typed : Typed subst registry images context env)
    {captures : List (Name × Ty)} (captured : Pat.Captured subst registry images captures more)
    (names : (more.map (·.1)).Perm (captures.map (·.1))) (distinct : (captures.map (·.1)).Nodup) :
    Typed subst registry images (context.extend (Scheme.monos captures)) (env ++ more) := by
  have distinct' : ((Scheme.monos captures).map (·.1)).Nodup := by
    rw [Scheme.monos, List.map_map]
    exact distinct
  refine typed.append fun name => ?_
  cases found : more.value? name with
  | none =>
    have absent : (Scheme.monos captures).reverse.lookup name = none := by
      rw [List.lookup_eq_none_iff]
      intro entry member
      rw [bne_iff_ne]
      rintro rfl
      obtain ⟨capture, inside, rfl⟩ := List.mem_map.mp (List.mem_reverse.mp member)
      refine value?_eq_none_iff.mp found (names.mem_iff.mpr ?_)
      exact List.mem_map_of_mem inside
    rw [absent]
    exact .none
  | some value =>
    obtain ⟨ty, known, valued⟩ := captured _ (mem_of_value? found)
    have here : (Scheme.monos captures).reverse.lookup name = some (.mono ty) := by
      rw [lookup_eq_some_iff, List.mem_reverse]
      · exact List.mem_map_of_mem known
      · rw [List.map_reverse]
        exact List.nodup_reverse.mpr distinct'
    rw [here]
    refine .some fun images' same => ?_
    rw [show images' = images from funext fun v => same v nofun]
    exact valued

theorem Typed.change (typed : Typed subst registry images context env) {vars : List TyVar}
    (closed : ∀ v ∈ vars, context.Closed v) {images' : TyVar → Ty}
    (same : SameOutside vars images images') : Typed subst registry images' context env := by
  intro name scheme value known found images'' same'
  -- The types of the quantified variables may be any, so they are taken from the last assignment.
  have here := typed name scheme value known found
    (fun v => if v ∈ scheme.vars then images'' v else images v) fun v free => if_neg free
  have equal : scheme.ty.under (fun v => if v ∈ scheme.vars then images'' v else images v) =
      scheme.ty.under images'' := by
    refine scheme.ty.under_congr_leaves fun v member => ?_
    by_cases quantified : v ∈ scheme.vars
    · rw [if_pos quantified]
    · rw [if_neg quantified, same' v quantified]
      exact (same v fun inVars => quantified (closed v inVars name scheme known member)).symm
  rwa [equal] at here

end Bindings

end Scopes

end PolyCheck
