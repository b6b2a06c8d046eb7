import PolyCheck.Proofs.Kind.Solutions
import PolyCheck.Proofs.Session.Kinded
import PolyCheck.Proofs.Ty.Sorted

/-! Kinds of written types. While a group is read its kinds are known only in part; what is known is
a table of solved kind variables, the kinds of type variables and those of the parameters of
definitions. Whatever the kind variables turn out to be, a type that has been read has the kind that
was found for it, and as solutions are only added it keeps that kind while the rest of the group is
read. -/
namespace PolyCheck

open Run

structure Reading where
  values : Nat → Kind
  kinds : TyVar → Kind
  declared : TemplateId → Option (List Kind)

/-- What quantifiers may bind: variables of any kind, or types only. -/
def Binds (strict : Bool) (kind : Kind) : Prop := strict → kind = .star

variable {strict : Bool}

structure Sorting (strict : Bool) where
  table : KindTable
  size : Nat
  kinds : TyVar → Kind
  declared : TemplateId → Option (List Kind)

namespace Sorting

variable {sorting later : Sorting strict} {ty head : Ty} {kind left right : Kind} {id : TemplateId}
  {params : List Kind} {v : TyVar}

structure Admits (sorting : Sorting strict) (reading : Reading) : Prop where
  values : sorting.table.SatisfiedBy reading.values
  kinds : ∀ v, v.index < sorting.size → reading.kinds v = (sorting.kinds v).under reading.values
  declared : ∀ {id params}, sorting.declared id = some params →
    reading.declared id = some (params.map (Kind.under reading.values))

instance : Preorder (Sorting strict) where
  le first second := first.table.count ≤ second.table.count ∧ first.size ≤ second.size ∧
    ∀ reading, second.Admits reading → first.Admits reading
  le_refl _ := ⟨Nat.le_refl _, Nat.le_refl _, fun _ admits => admits⟩
  le_trans _ _ _ h k := ⟨Nat.le_trans h.1 k.1, Nat.le_trans h.2.1 k.2.1,
    fun reading admits => h.2.2 reading (k.2.2 reading admits)⟩

/-- The type has the kind, whatever the kind variables turn out to be. -/
structure Sorts (sorting : Sorting strict) (ty : Ty) (kind : Kind) : Prop where
  below : kind.Below sorting.table.count
  sorted : ∀ reading, sorting.Admits reading →
    ty.Sorted (Binds strict) reading.declared reading.kinds (kind.under reading.values)

def Declares (sorting : Sorting strict) (id : TemplateId) (params : List Kind) : Prop :=
  ∀ reading, sorting.Admits reading → reading.declared id =
  some (params.map (Kind.under reading.values))

/-- The kinds turn out to be the same. -/
def Agree (sorting : Sorting strict) (left right : Kind) : Prop :=
  ∀ reading, sorting.Admits reading → left.under reading.values = right.under reading.values

theorem Sorts.grow (sorts : sorting.Sorts ty kind) (grown : sorting ≤ later) :
    later.Sorts ty kind :=
  ⟨sorts.below.mono grown.1, fun reading admits => sorts.sorted reading (grown.2.2 reading admits)⟩

theorem Declares.grow (declares : sorting.Declares id params) (grown : sorting ≤ later) :
    later.Declares id params :=
  fun reading admits => declares reading (grown.2.2 reading admits)

section Types

theorem Sorts.arrow {param result : Ty} (fst : sorting.Sorts param .star)
    (snd : sorting.Sorts result .star) : sorting.Sorts (.arrow param result) .star :=
  ⟨trivial, fun reading admits => .arrow (fst.sorted reading admits) (snd.sorted reading admits)⟩

theorem Sorts.tuple {elems : List Ty} (each : ∀ t ∈ elems, sorting.Sorts t .star) :
    sorting.Sorts (.tuple elems) .star :=
  ⟨trivial, fun reading admits => .tuple fun t member => (each t member).sorted reading admits⟩

theorem Sorts.quantified {vars : List TyVar} {body : Ty}
    (bound : ∀ v ∈ vars, ∀ reading, sorting.Admits reading → Binds strict (reading.kinds v))
    (inside : sorting.Sorts body .star) : sorting.Sorts (.quantified vars body) .star :=
  ⟨trivial, fun reading admits =>
    .quantified (fun v member => bound v member reading admits) (inside.sorted reading admits)⟩

theorem Sorts.nominal {args : List Ty} (declares : sorting.Declares id params)
    (length : args.length = params.length)
    (each : ∀ entry ∈ args.zip params, sorting.Sorts entry.1 entry.2) :
    sorting.Sorts (.nominal id args) .star := by
  refine ⟨trivial, fun reading admits => .nominal (declares reading admits)
    (by rwa [List.length_map]) ?_⟩
  rw [List.zip_map_right]
  exact List.forall_mem_map.mpr fun entry member => (each entry member).sorted reading admits

theorem Sorts.named (declares : sorting.Declares id []) : sorting.Sorts (.named id) .star :=
  .nominal declares rfl (List.forall_mem_nil _)

theorem Sorts.convert (sorts : sorting.Sorts ty left) (below : right.Below sorting.table.count)
    (agree : sorting.Agree left right) : sorting.Sorts ty right :=
  ⟨below, fun reading admits => agree reading admits ▸ sorts.sorted reading admits⟩

theorem Sorts.function {entries : List (TyVar × Kind)} {body : Ty}
    (each : ∀ entry ∈ entries, sorting.Sorts (.var entry.1) entry.2)
    (inside : sorting.Sorts body kind) :
    sorting.Sorts (.quantified (entries.map (·.1)) body) (.function (entries.map (·.2)) kind) := by
  refine ⟨Kind.below_function.mpr ⟨List.forall_mem_map.mpr fun entry member =>
      (each entry member).below, inside.below⟩, fun reading admits => ?_⟩
  have same : (entries.map (·.2)).map (Kind.under reading.values) = (entries.map (·.1)).map
      reading.kinds := by
    rw [List.map_map, List.map_map]
    exact List.map_congr_left fun entry member =>
      ((each entry member).sorted reading admits).var_inv
  rw [Kind.under_function, same]
  exact .function (inside.sorted reading admits)

theorem Sorts.alias {entries : List (TyVar × Kind)} {body : Ty}
    (each : ∀ entry ∈ entries, sorting.Sorts (.var entry.1) entry.2)
    (inside : sorting.Sorts body kind) :
    sorting.Sorts (if entries.isEmpty then body else .quantified (entries.map (·.1)) body)
      (.function (entries.map (·.2)) kind) := by
  split
  · rename_i empty
    rw [List.isEmpty_iff.mp empty]
    exact inside
  · exact .function each inside

theorem Sorts.apply {entries : List (Ty × Kind)}
    (fst : sorting.Sorts head (.function (entries.map (·.2)) kind))
    (each : ∀ entry ∈ entries, sorting.Sorts entry.1 entry.2) :
    sorting.Sorts (head.apply (entries.map (·.1))) kind := by
  refine ⟨(Kind.below_function.mp fst.below).2, fun reading admits => ?_⟩
  have function := fst.sorted reading admits
  rw [Kind.under_function] at function
  refine function.apply (by simp) ?_
  rw [List.map_map, List.zip_map']
  exact List.forall_mem_map.mpr fun entry member => (each entry member).sorted reading admits

end Types

section Growth

def withTable (sorting : Sorting strict) (table : KindTable) : Sorting strict :=
  { sorting with table }

def extend (sorting : Sorting strict) (v : TyVar) (kind : Kind) : Sorting strict :=
  { sorting with size := v.index + 1, kinds := Function.update sorting.kinds v kind }

def declare (sorting : Sorting strict) (id : TemplateId) (params : List Kind) : Sorting strict :=
  { sorting with declared := Function.update sorting.declared id (some params) }

theorem le_fresh (sorting : Sorting strict) :
    sorting ≤ sorting.withTable sorting.table.fresh.2 := by
  refine ⟨?_, Nat.le_refl _, fun reading admits => ⟨admits.values.of_fresh, admits.kinds,
      admits.declared⟩⟩
  simp [withTable, KindTable.fresh, KindTable.count]

theorem le_of_equates {after : KindTable} (equates : sorting.table.Equates left right after) :
    sorting ≤ sorting.withTable after ∧ (sorting.withTable after).Agree left right :=
  ⟨⟨Nat.le_of_eq equates.count.symm, Nat.le_refl _,
    fun _ admits => ⟨equates.kept admits.values, admits.kinds, admits.declared⟩⟩,
    fun _ admits => equates.equal admits.values⟩

theorem kinds_extend_self (sorting : Sorting strict) (v : TyVar) (kind : Kind) :
    (sorting.extend v kind).kinds v = kind :=
  Function.update_self ..

theorem kinds_extend_of_ne {w : TyVar} (different : w ≠ v) (kind : Kind) :
    (sorting.extend v kind).kinds w = sorting.kinds w :=
  Function.update_of_ne different ..

theorem le_extend (new : sorting.size ≤ v.index) (kind : Kind) :
    sorting ≤ sorting.extend v kind := by
  refine ⟨Nat.le_refl _, Nat.le_succ_of_le new,
    fun reading admits => ⟨admits.values, fun w old => ?_, admits.declared⟩⟩
  have different : w ≠ v := by
    rintro rfl
    exact Nat.not_le_of_lt old new
  rw [admits.kinds w (Nat.lt_of_lt_of_le old (Nat.le_succ_of_le new)), kinds_extend_of_ne different]

theorem sorts_of_extend (below : kind.Below later.table.count)
    (grown : sorting.extend v kind ≤ later) : later.Sorts (.var v) kind := by
  refine ⟨below, fun reading admits => ?_⟩
  have same := (grown.2.2 reading admits).kinds v (Nat.lt_succ_self _)
  rw [kinds_extend_self] at same
  exact same ▸ .var v

theorem sorts_extend (sorting : Sorting strict) (v : TyVar)
    (below : kind.Below sorting.table.count) : (sorting.extend v kind).Sorts (.var v) kind :=
  sorts_of_extend below (le_refl _)

theorem declared_declare_self (sorting : Sorting strict) (id : TemplateId) (params : List Kind) :
    (sorting.declare id params).declared id = some params :=
  Function.update_self ..

theorem declared_declare_of_ne {other : TemplateId} (different : other ≠ id) (params : List Kind) :
    (sorting.declare id params).declared other = sorting.declared other :=
  Function.update_of_ne different ..

theorem le_declare (new : sorting.declared id = none) (params : List Kind) :
    sorting ≤ sorting.declare id params := by
  refine ⟨Nat.le_refl _, Nat.le_refl _,
    fun reading admits => ⟨admits.values, admits.kinds, fun {other found} known => ?_⟩⟩
  have different : other ≠ id := by
    rintro rfl
    cases new.symm.trans known
  exact admits.declared ((declared_declare_of_ne different params).trans known)

theorem declares_declare (sorting : Sorting strict) (id : TemplateId) (params : List Kind) :
    (sorting.declare id params).Declares id params :=
  fun _ admits => admits.declared (sorting.declared_declare_self id params)

end Growth

end Sorting

variable {opened : TemplateId → Prop} {sorting later : Sorting strict}

namespace Registry

def kind? (registry : Registry) (name : Name) : Option Kind :=
  match registry.types.get? name with
  | some (.data id) => (registry.template? id).map Template.kind
  | some (.synonym _ kind) => some kind
  | none => (Elaborate.intWidth? name).map fun _ => .star

instance : Preorder Registry where
  le registry later := later.types = registry.types ∧ registry.Grows later ∧
    ∀ {width id}, registry.ints.get? width = some id → later.ints.get? width = some id
  le_refl registry := ⟨rfl, grows_refl registry, id⟩
  le_trans _ _ _ first second :=
    ⟨second.1.trans first.1, first.2.1.trans second.2.1, fun known => second.2.2 (first.2.2 known)⟩

theorem le_alloc (registry : Registry) (template : Template) :
    registry ≤ (registry.alloc template).2 :=
  ⟨rfl, grows_alloc registry template, id⟩

theorem le_intTemplate (registry : Registry) (width : Nat) :
    registry ≤ (registry.intTemplate width).2 := by
  refine ⟨?_, grows_intTemplate registry width, (below_intTemplate registry width).ints⟩
  cases known : registry.ints.get? width with
  | some id => rw [intTemplate_of_some known]
  | none => rw [intTemplate_of_none known, types_record]

variable {registry : Registry}

theorem kind?_defineType_of_ne {name other : Name} (different : other ≠ name) (meaning : TypeDef) :
    (registry.defineType name meaning).kind? other = registry.kind? other := by
  have template : (registry.defineType name meaning).template? = registry.template? := by
    funext id
    rw [template?, template?, defineType, templates_record]
  have types : (registry.defineType name meaning).types.get? other = registry.types.get? other := by
    rw [defineType, types_record, Table.get?_insert, if_neg different]
  rw [kind?, kind?, types, template]

theorem kind?_modifyTemplate {id : TemplateId} {change : Template → Template}
    (kept : ∀ {old}, registry.template? id = some old → (change old).kind = old.kind) :
    (registry.modifyTemplate id change).kind? = registry.kind? := by
  funext name
  have types : (registry.modifyTemplate id change).types = registry.types := rfl
  rw [kind?, kind?, types]
  cases registry.types.get? name with
  | none => rfl
  | some entry =>
    cases entry with
    | synonym _ _ => rfl
    | data other =>
      simp only [template?_modify]
      split
      · rename_i same
        subst same
        cases found : registry.template? id with
        | none => rfl
        | some old => exact congrArg some (kept found)
      · rfl

end Registry

/-- The definition says what is known of its parameters, and its fields are types of values. -/
structure Template.Sorted (sorting : Sorting strict) (id : TemplateId)
    (template : Template) : Prop where
  declares : sorting.Declares id (template.params.map (·.2))
  params : ∀ param ∈ template.params, sorting.Sorts (.var param.1) param.2
  fields : ∀ dataCase ∈ template.cases, ∀ field ∈ dataCase.fields, sorting.Sorts field .star

def Template.Settled (template : Template) : Prop := ∀ param ∈ template.params, param.2.Closed

theorem Template.Sorted.grow {id : TemplateId} {template : Template}
    (sorted : template.Sorted sorting id) (grown : sorting ≤ later) : template.Sorted later id where
  declares := sorted.declares.grow grown
  params param member := (sorted.params param member).grow grown
  fields dataCase inside field member := (sorted.fields dataCase inside field member).grow grown

theorem Template.Sorted.sorts_selfTy {id : TemplateId} {template : Template}
    (sorted : template.Sorted sorting id) :
    sorting.Sorts (.quantified template.paramVars (template.selfTy id)) template.kind := by
  refine .function sorted.params ⟨trivial, fun reading admits => ?_⟩
  refine .nominal (sorted.declares reading admits) (by simp [Template.paramVars]) ?_
  rw [Template.paramVars, List.map_map, List.map_map, List.zip_map']
  exact List.forall_mem_map.mpr fun param member => (sorted.params param member).sorted
    reading admits

/-- Tables in which everything has its kind. The kinds of definitions that are not open are
settled. -/
structure Registry.Sorted (opened : TemplateId → Prop) (sorting : Sorting strict)
    (registry : Registry) : Prop where
  template : ∀ {id template}, registry.template? id = some template → template.Sorted sorting id
  settled : ∀ {id template}, registry.template? id = some template → ¬ opened id → template.Settled
  known : ∀ {id params}, sorting.declared id = some params → ∃ template,
    registry.template? id = some template
  ints : ∀ {width id}, registry.ints.get? width = some id → sorting.Declares id []
  data : ∀ {name id}, registry.types.get? name = some (.data id) → ∃ template,
    registry.template? id = some template
  synonym : ∀ {name ty kind}, registry.types.get? name = some (.synonym ty kind) → kind.Closed ∧
    sorting.Sorts ty kind

namespace Registry.Sorted

variable {registry after : Registry} {id : TemplateId} {template : Template}
  {opened' : TemplateId → Prop}

theorem grow (sorted : registry.Sorted opened sorting) (grown : sorting ≤ later)
    (same : later.declared = sorting.declared) : registry.Sorted opened later where
  template known := (sorted.template known).grow grown
  settled := sorted.settled
  known found := sorted.known (same ▸ found)
  ints found := (sorted.ints found).grow grown
  data := sorted.data
  synonym known := (sorted.synonym known).imp_right fun sorts => sorts.grow grown

theorem wider (sorted : registry.Sorted opened sorting) (wider : ∀ id, opened id → opened' id) :
    registry.Sorted opened' sorting :=
  { sorted with settled := fun known closed =>
    sorted.settled known fun isOpen => closed (wider _ isOpen) }

theorem declared_of_none (sorted : registry.Sorted opened sorting)
    (new : registry.template? id = none) : sorting.declared id = none := by
  cases found : sorting.declared id with
  | none => rfl
  | some params =>
    obtain ⟨template, known⟩ := sorted.known found
    cases new.symm.trans known

theorem of_templates (sorted : registry.Sorted opened sorting)
    (templates : after.templates = registry.templates)
    (ints : ∀ {width id}, after.ints.get? width = some id → sorting.Declares id [])
    (data : ∀ {name id}, after.types.get? name = some (.data id) → ∃ template,
      registry.template? id = some template)
    (synonym : ∀ {name ty kind}, after.types.get? name = some (.synonym ty kind) →
      kind.Closed ∧ sorting.Sorts ty kind) : after.Sorted opened sorting := by
  have same : ∀ id, after.template? id = registry.template? id := fun id => by
    rw [template?, template?, templates]
  exact {
    template := fun known => sorted.template ((same _).symm.trans known)
    settled := fun known => sorted.settled ((same _).symm.trans known)
    known := fun found => (sorted.known found).imp fun _ known => (same _).trans known
    ints := ints
    data := fun known => (data known).imp fun _ known => (same _).trans known
    synonym := synonym }

theorem of_tables (sorted : registry.Sorted opened sorting)
    (templates : after.templates = registry.templates)
    (ints : after.ints = registry.ints) (types : after.types = registry.types) :
      after.Sorted opened sorting :=
  sorted.of_templates templates (fun found => sorted.ints (ints ▸ found))
    (fun known => sorted.data (types ▸ known)) fun known => sorted.synonym (types ▸ known)

theorem alloc (sorted : registry.Sorted opened sorting)
    (params : ∀ param ∈ template.params, sorting.Sorts (.var param.1) param.2)
    (empty : template.cases = [])
    (wider : ∀ id, opened id → opened' id)
    (settled : opened' (registry.alloc template).1 ∨ template.Settled) :
    sorting ≤ sorting.declare (registry.alloc template).1 (template.params.map (·.2)) ∧
      (registry.alloc template).2.Sorted opened'
        (sorting.declare (registry.alloc template).1 (template.params.map (·.2))) := by
  have isNew : registry.template? (registry.alloc template).1 = none :=
    Array.getElem?_eq_none (Nat.le_refl _)
  have grown := sorting.le_declare (sorted.declared_of_none isNew) (template.params.map (·.2))
  have kept : ∀ {id found}, registry.template? id = some found →
      (registry.alloc template).2.template? id = some found :=
    fun known => grows_alloc registry template _ _ known
  refine ⟨grown, ?_⟩
  exact {
    template := fun {id found} known => by
      rw [template?_alloc] at known
      split at known
      · rename_i last
        obtain rfl : id = (registry.alloc template).1 := congrArg TemplateId.mk last
        obtain rfl := Option.some.inj known
        refine ⟨sorting.declares_declare _ _,
          fun param member => (params param member).grow grown, ?_⟩
        rw [empty]
        exact List.forall_mem_nil _
      · exact (sorted.template known).grow grown
    settled := fun {id found} known closed => by
      rw [template?_alloc] at known
      split at known
      · rename_i last
        obtain rfl : id = (registry.alloc template).1 := congrArg TemplateId.mk last
        obtain rfl := Option.some.inj known
        exact settled.resolve_left closed
      · exact sorted.settled known fun isOpen => closed (wider id isOpen)
    known := fun {id params} found => by
      by_cases same : id = (registry.alloc template).1
      · subst same
        exact ⟨template, by rw [template?_alloc]; exact if_pos rfl⟩
      · rw [Sorting.declared_declare_of_ne same] at found
        exact (sorted.known found).imp fun _ => kept
    ints := fun found => (sorted.ints found).grow grown
    data := fun known => (sorted.data known).imp fun _ => kept
    synonym := fun known => (sorted.synonym known).imp_right fun sorts => sorts.grow grown }

theorem intTemplate (sorted : registry.Sorted opened sorting) (width : Nat) :
    ∃ later, sorting ≤ later ∧
    (later = sorting ∨ later = sorting.declare (registry.intTemplate width).1 []) ∧
      (registry.intTemplate width).2.Sorted opened later ∧
        later.Declares (registry.intTemplate width).1 [] := by
  cases found : registry.ints.get? width with
  | some id =>
    rw [intTemplate_of_some found]
    exact ⟨sorting, le_rfl, .inl rfl, sorted, sorted.ints found⟩
  | none =>
    let made := Template.ofBuiltin ("i" ++ toString width) (.int width)
    have none : ∀ param ∈ made.params, sorting.Sorts (.var param.1) param.2 := List.forall_mem_nil _
    obtain ⟨grown, there⟩ := sorted.alloc none rfl (fun _ => id) (.inr (List.forall_mem_nil _))
    have declares := sorting.declares_declare (registry.alloc made).1 []
    rw [intTemplate_of_none found]
    refine ⟨_, grown, .inr rfl,
      there.of_templates (templates_record _ _) (fun {other id} known => ?_)
      (fun known => ?_) (fun known => ?_), declares⟩
    · rw [ints_record, Table.get?_insert] at known
      split at known
      · exact Option.some.inj known ▸ declares
      · exact there.ints known
    · rw [types_record] at known
      exact there.data known
    · rw [types_record] at known
      exact there.synonym known

theorem modifyTemplate (sorted : registry.Sorted opened sorting) {change : Template → Template}
    (changed : ∀ {old}, registry.template? id = some old → (change old).Sorted sorting id)
    (settled : ∀ {old}, registry.template? id = some old → ¬ opened id → (change old).Settled) :
    (registry.modifyTemplate id change).Sorted opened sorting := by
  have kept : ∀ {other}, (∃ template, registry.template? other = some template) →
      ∃ template, (registry.modifyTemplate id change).template? other = some template := by
    rintro other ⟨template, known⟩
    rw [template?_modify]
    split
    · exact ⟨_, by rw [known]; rfl⟩
    · exact ⟨template, known⟩
  exact {
    template := fun {other found} known => by
      rw [template?_modify] at known
      split at known
      · rename_i same
        obtain ⟨old, before, rfl⟩ := Option.map_eq_some_iff.mp known
        subst same
        exact changed before
      · exact sorted.template known
    settled := fun {other found} known closed => by
      rw [template?_modify] at known
      split at known
      · rename_i same
        obtain ⟨old, before, rfl⟩ := Option.map_eq_some_iff.mp known
        subst same
        exact settled before closed
      · exact sorted.settled known closed
    known := fun found => kept (sorted.known found)
    ints := sorted.ints
    data := fun known => kept (sorted.data known)
    synonym := sorted.synonym }

theorem defineType (sorted : registry.Sorted opened sorting) (name : Name) {meaning : TypeDef}
    (data : ∀ id, meaning = .data id → ∃ template, registry.template? id = some template)
    (synonym : ∀ ty kind, meaning = .synonym ty kind → kind.Closed ∧ sorting.Sorts ty kind) :
    (registry.defineType name meaning).Sorted opened sorting := by
  refine sorted.of_templates (templates_record _ _) (fun {other id} known => ?_)
    (fun {other id} known => ?_) fun {other ty kind} known => ?_
  · rw [Registry.defineType, ints_record] at known
    exact sorted.ints known
  · rw [Registry.defineType, types_record, Table.get?_insert] at known
    split at known
    · exact data id (Option.some.inj known)
    · exact sorted.data known
  · rw [Registry.defineType, types_record, Table.get?_insert] at known
    split at known
    · exact synonym ty kind (Option.some.inj known)
    · exact sorted.synonym known

theorem foldl_defineCtor (sorted : registry.Sorted opened sorting) (infos : List CtorInfo) :
    (infos.foldl Registry.defineCtor registry).Sorted opened sorting := by
  induction infos generalizing registry with
  | nil => exact sorted
  | cons info infos ih =>
    exact ih (sorted.of_tables (templates_record _ _) (ints_record _ _) (types_record _ _))

theorem closed_kind? (sorted : registry.Sorted (fun _ => False) sorting) {name : Name} {kind : Kind}
    (known : registry.kind? name = some kind) :
    kind.Closed := by
  rw [kind?] at known
  cases found : registry.types.get? name with
  | none =>
    simp only [found] at known
    obtain ⟨_, _, rfl⟩ := Option.map_eq_some_iff.mp known
    trivial
  | some entry =>
    cases entry with
    | synonym ty other =>
      simp only [found] at known
      obtain rfl := Option.some.inj known
      exact (sorted.synonym found).1
    | data id =>
      simp only [found] at known
      obtain ⟨template, defined, rfl⟩ := Option.map_eq_some_iff.mp known
      refine Kind.below_function.mpr ⟨List.forall_mem_map.mpr fun param member => ?_, trivial⟩
      exact sorted.settled defined not_false param member

theorem kind?_le (sorted : registry.Sorted opened sorting) (grown : registry ≤ after) :
    after.kind? = registry.kind? := by
  funext name
  rw [kind?, kind?, grown.1]
  cases found : registry.types.get? name with
  | none => rfl
  | some entry =>
    cases entry with
    | synonym ty kind => rfl
    | data id =>
      obtain ⟨template, defined⟩ := sorted.data found
      simp only [defined, grown.2.1 id template defined]

end Registry.Sorted

end PolyCheck
