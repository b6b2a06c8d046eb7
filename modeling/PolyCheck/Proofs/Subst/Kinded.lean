import PolyCheck.Proofs.Session.KindSound
import PolyCheck.Proofs.Subst.Fits
import PolyCheck.Proofs.Subst.Repeat

/-! Kinds of solutions. Where no type is applied and quantifiers bind types only, the form of a type
fixes the kinds of its parts. Two types of one kind then leave parts of one kind each when they are
compared, so variables are solved by types of their own kinds. -/
namespace PolyCheck

open Run

theorem Kind.function_inj {params others : List Kind} {result other : Kind}
    (same : function params result = function others other)
    (length : params.length = others.length) :
    params = others ∧ result = other := by
  obtain ⟨rest, rfl, rfl⟩ := function_prefix same length.le
  have none : rest = [] := List.length_eq_zero_iff.mp (by simpa using length)
  rw [none, List.append_nil]
  exact ⟨rfl, rfl⟩

theorem zip_of_forall₂ {α β κ : Type} {related : α → β → Prop} {holds : α × κ → Prop}
    {holds' : β × κ → Prop}
    {items : List α} {items' : List β} {marks : List κ} (walks : List.Forall₂ related items items')
    (each : ∀ entry ∈ items.zip marks, holds entry)
    (keep : ∀ {item item' mark}, holds (item, mark) → related item item' → holds' (item', mark)) :
    ∀ entry ∈ items'.zip marks, holds' entry := by
  induction walks generalizing marks with
  | nil => exact List.forall_mem_nil _
  | cons first _ ih =>
    cases marks with
    | nil => exact List.forall_mem_nil _
    | cons mark marks =>
      obtain ⟨here, each⟩ := List.forall_mem_cons.mp each
      exact List.forall_mem_cons.mpr ⟨keep here first, ih each⟩

variable {strict : Bool} {sorting later : Sorting strict} {ty body : Ty} {kind other : Kind}
  {v w : TyVar}

namespace Sorting

section Inversion

def asKnown (sorting : Sorting strict) : Reading :=
  ⟨fun _ => .star, sorting.kinds, sorting.declared⟩

variable (closed : sorting.Closed)
include closed

theorem Closed.admits_asKnown : sorting.Admits sorting.asKnown where
  values := by
    rw [closed.table]
    exact nofun
  kinds v _ := ((closed.kinds v).under_eq _).symm
  declared known :=
    known.trans (congrArg some (Kind.map_under_of_closed (closed.declared known) _).symm)

theorem Closed.closed_kind (sorts : sorting.Sorts ty kind) : kind.Closed := by
  have below := sorts.below
  rwa [closed.table] at below

theorem Closed.sorted (sorts : sorting.Sorts ty kind) {reading : Reading}
    (admits : sorting.Admits reading) :
    ty.Sorted (Binds strict) reading.declared reading.kinds kind := by
  have sorted := sorts.sorted reading admits
  rwa [(closed.closed_kind sorts).under_eq] at sorted

omit closed in
theorem sorts_of (isClosed : kind.Closed) (each : ∀ reading, sorting.Admits reading →
    ty.Sorted (Binds strict) reading.declared reading.kinds kind) : sorting.Sorts ty kind := by
  refine ⟨isClosed.mono (Nat.zero_le _), fun reading admits => ?_⟩
  rw [isClosed.under_eq]
  exact each reading admits

theorem Closed.kinds_eq (sorts : sorting.Sorts (.var v) kind) : sorting.kinds v = kind :=
  (closed.sorted sorts closed.admits_asKnown).var_inv.symm

theorem Closed.index_lt (sorts : sorting.Sorts (.var v) kind) : v.index < sorting.size := by
  by_contra outside
  let other : Reading :=
    { sorting.asKnown with kinds := Function.update sorting.kinds v (.arrow kind kind) }
  have admits : sorting.Admits other :=
    { closed.admits_asKnown with
      kinds := fun w inside => by
        have different : w ≠ v := by
          rintro rfl
          exact outside inside
        exact (Function.update_of_ne different ..).trans ((closed.kinds w).under_eq _).symm }
  have same : kind = .arrow kind kind :=
    (closed.sorted sorts admits).var_inv.trans (Function.update_self ..)
  have sizes := congrArg Kind.size same
  rw [Kind.size] at sizes
  omega

theorem Closed.kind_unique (sorts : sorting.Sorts (.var v) kind)
    (sorts' : sorting.Sorts (.var v) other) : kind = other :=
  (closed.kinds_eq sorts).symm.trans (closed.kinds_eq sorts')

theorem Closed.arrow_inv {param result : Ty} (sorts : sorting.Sorts (.arrow param result) kind) :
    kind = .star ∧ sorting.Sorts param .star ∧ sorting.Sorts result .star := by
  refine ⟨?_, sorts_of trivial fun reading admits => ?_, sorts_of trivial fun reading admits => ?_⟩
  · cases closed.sorted sorts closed.admits_asKnown
    rfl
  · cases closed.sorted sorts admits with
    | arrow fst _ => exact fst
  · cases closed.sorted sorts admits with
    | arrow _ snd => exact snd

theorem Closed.tuple_inv {elems : List Ty} (sorts : sorting.Sorts (.tuple elems) kind) :
    kind = .star ∧ ∀ t ∈ elems, sorting.Sorts t .star := by
  refine ⟨?_, fun t member => sorts_of trivial fun reading admits => ?_⟩
  · cases closed.sorted sorts closed.admits_asKnown
    rfl
  · cases closed.sorted sorts admits with
    | tuple each => exact each t member

theorem Closed.nominal_inv {id : TemplateId} {args : List Ty}
    (sorts : sorting.Sorts (.nominal id args) kind) :
    kind = .star ∧ ∃ params, sorting.declared id = some params ∧ args.length = params.length ∧
      ∀ entry ∈ args.zip params, sorting.Sorts entry.1 entry.2 := by
  have sorted := closed.sorted sorts closed.admits_asKnown
  generalize same : Ty.nominal id args = whole at sorted
  cases sorted with
  | nominal known length _ =>
    obtain ⟨rfl, rfl⟩ := Ty.nominal.inj same
    refine ⟨rfl, _, known, length, fun entry member => ?_⟩
    refine sorts_of (closed.declared known _ (List.of_mem_zip member).2) fun reading admits => ?_
    have declared := admits.declared known
    rw [Kind.map_under_of_closed (closed.declared known)] at declared
    cases closed.sorted sorts admits with
    | nominal known' _ each =>
      obtain rfl := Option.some.inj (declared.symm.trans known')
      exact each entry member
  | _ => cases same

theorem Closed.quantified_inv (types : strict) {params : List TyVar}
    (sorts : sorting.Sorts (.quantified params body) kind) :
    (kind = .star ∧ (∀ v ∈ params, sorting.Sorts (.var v) .star) ∧ sorting.Sorts body .star) ∨
      ∃ (entries : List (TyVar × Kind)) (result : Kind), params = entries.map Prod.fst ∧
        kind = .function (entries.map Prod.snd) result ∧
        (∀ entry ∈ entries, sorting.Sorts (.var entry.1) entry.2) ∧ sorting.Sorts body result := by
  have closedKind := closed.closed_kind sorts
  have ofStar : kind = .star → (∀ v ∈ params, sorting.Sorts (.var v) .star) ∧
      sorting.Sorts body .star := by
    rintro rfl
    have each : ∀ reading, sorting.Admits reading → (∀ v ∈ params, reading.kinds v = .star) ∧
        body.Sorted (Binds strict) reading.declared reading.kinds .star := by
      intro reading admits
      have sorted := closed.sorted sorts admits
      generalize same : Kind.star = whole at sorted
      cases sorted with
      | quantified bound inside => exact ⟨fun v member => bound v member types, inside⟩
      | function inside =>
        cases params with
        | cons _ _ => cases same
        | nil =>
          obtain rfl : Kind.star = _ := same
          exact ⟨List.forall_mem_nil _, inside⟩
    refine ⟨fun v member => sorts_of trivial fun reading admits => ?_,
      sorts_of trivial fun reading admits => (each reading admits).2⟩
    rw [← (each reading admits).1 v member]
    exact .var v
  have sorted := closed.sorted sorts closed.admits_asKnown
  generalize isKind : kind = known at sorted
  cases sorted with
  | quantified _ _ => exact .inl ⟨rfl, ofStar isKind⟩
  | @function _ _ result inside =>
    refine .inr ⟨params.map fun v => (v, sorting.kinds v), result, ?_, ?_, ?_⟩
    · rw [List.map_map]
      exact (List.map_id _).symm
    · rw [List.map_map]
      rfl
    rw [isKind] at closedKind
    obtain ⟨-, closedResult⟩ := Kind.below_function.mp closedKind
    have each : ∀ reading, sorting.Admits reading →
      (∀ v ∈ params, reading.kinds v = sorting.kinds v) ∧
        body.Sorted (Binds strict) reading.declared reading.kinds result := by
      intro reading admits
      have sorted := closed.sorted sorts admits
      rw [isKind] at sorted
      generalize same : Kind.function (params.map sorting.asKnown.kinds) result = whole at sorted
      cases sorted with
      | quantified _ inner =>
        cases params with
        | cons _ _ => cases same
        | nil =>
          obtain rfl : result = .star := same
          exact ⟨List.forall_mem_nil _, inner⟩
      | function inner =>
        obtain ⟨kinds, rfl⟩ := Kind.function_inj same (by simp)
        exact ⟨fun v member => (List.map_inj_left.mp kinds v member).symm, inner⟩
    refine ⟨List.forall_mem_map.mpr fun v member => ?_,
      sorts_of closedResult fun reading admits => (each reading admits).2⟩
    refine sorts_of (closed.kinds v) fun reading admits => ?_
    rw [← (each reading admits).1 v member]
    exact .var v

theorem Closed.requantify (types : strict) {params : List TyVar} {body' : Ty}
    (sorts : sorting.Sorts (.quantified params body) kind)
    (inside : ∀ {kind}, sorting.Sorts body kind → sorting.Sorts body' kind) :
    sorting.Sorts (.quantified params body') kind := by
  rcases closed.quantified_inv types sorts with ⟨rfl, each, old⟩ | ⟨entries, result, rfl,
    rfl, each, old⟩
  · refine .quantified (fun v member reading admits _ => ?_) (inside old)
    exact (closed.sorted (each v member) admits).var_inv.symm
  · exact .function each (inside old)

theorem Closed.quantified_star (types : strict) {params : List TyVar}
    (sorts : sorting.Sorts (.quantified params body) .star) :
    (∀ v ∈ params, sorting.Sorts (.var v) .star) ∧ sorting.Sorts body .star := by
  rcases closed.quantified_inv types sorts with ⟨-, inside⟩ | ⟨entries, result, rfl,
    same, -, inside⟩
  · exact inside
  · cases entries with
    | cons _ _ => cases same
    | nil =>
      obtain rfl : Kind.star = result := same
      exact ⟨List.forall_mem_nil _, inside⟩

theorem Closed.children (types : strict) (unapplied : ty.Unapplied)
    (sorts : sorting.Sorts ty kind) : ∀ child ∈ ty.children, ∃ kind, sorting.Sorts child kind := by
  cases unapplied with
  | var v => exact List.forall_mem_nil _
  | arrow _ _ =>
    obtain ⟨-, fst, snd⟩ := closed.arrow_inv sorts
    exact List.forall_mem_cons.mpr ⟨⟨_, fst⟩, List.forall_mem_singleton.mpr ⟨_, snd⟩⟩
  | tuple _ => exact fun child member => ⟨_, (closed.tuple_inv sorts).2 child member⟩
  | @nominal _ args _ =>
    obtain ⟨-, params, -, length, each⟩ := closed.nominal_inv sorts
    intro child member
    obtain ⟨index, inside, rfl⟩ := List.getElem_of_mem (show child ∈ args from member)
    exact ⟨_, each _ (getElem_mem_zip inside (length ▸ inside))⟩
  | quantified _ =>
    refine List.forall_mem_singleton.mpr ?_
    rcases closed.quantified_inv types sorts with ⟨-, -, inside⟩ | ⟨_, _, -, -, -, inside⟩
    · exact ⟨_, inside⟩
    · exact ⟨_, inside⟩
  | app may _ _ _ => exact may.elim

end Inversion

theorem Sorts.substitute_ofLists {vars : List TyVar} {types : List Ty}
    (sorts : sorting.Sorts ty kind)
    (each : ∀ entry ∈ types.zip vars, ∃ kind, sorting.Sorts entry.1 kind ∧
      sorting.Sorts (.var entry.2) kind) :
    sorting.Sorts (ty.substitute (.ofLists vars types)) kind := by
  refine ⟨sorts.below, fun reading admits => ?_⟩
  refine (sorts.sorted reading admits).substitute_ofLists ?_
  rw [List.zip_map_right]
  refine List.forall_mem_map.mpr fun entry member => ?_
  obtain ⟨kind, isKind, sorts⟩ := each entry member
  have there := isKind.sorted reading admits
  rwa [(sorts.sorted reading admits).var_inv] at there

end Sorting

/-- Variables are solved by types of their own kinds. -/
structure Subst.Sorted (sorting : Sorting strict) (subst : Subst) : Prop where
  link : ∀ {v w}, subst.cell v = .link w → ∃ kind, sorting.Sorts (.var v) kind ∧
    sorting.Sorts (.var w) kind
  bound : ∀ {v ty}, subst.cell v = .bound ty → ∃ kind, sorting.Sorts (.var v) kind ∧
    sorting.Sorts ty kind

namespace Subst.Sorted

variable {subst after : Subst} {depth : Nat} {head result : Ty}

theorem grow (sorted : subst.Sorted sorting) (grown : sorting ≤ later) : subst.Sorted later where
  link linked := (sorted.link linked).imp fun _ both => ⟨both.1.grow grown, both.2.grow grown⟩
  bound solved := (sorted.bound solved).imp fun _ both => ⟨both.1.grow grown, both.2.grow grown⟩

theorem lengthen (sorted : subst.Sorted sorting) (longer : subst.Lengthened after) :
    after.Sorted sorting where
  link {v w} linked := by
    rcases longer.cell_cases v with same | ⟨-, isNew⟩
    · exact sorted.link (same ▸ linked)
    · rw [linked] at isNew
      exact isNew.elim
  bound {v ty} solved := by
    rcases longer.cell_cases v with same | ⟨-, isNew⟩
    · exact sorted.bound (same ▸ solved)
    · rw [solved] at isNew
      exact isNew.elim

theorem linked (sorted : subst.Sorted sorting) (fst : sorting.Sorts (.var v) kind)
    (snd : sorting.Sorts (.var w) kind) : (subst.link v w).Sorted sorting where
  link {x y} linked := by
    rcases subst.cell_write_cases v x (.link w) with kept | ⟨rfl, written⟩
    · exact sorted.link (kept ▸ linked)
    · obtain rfl := Cell.link.inj (written.symm.trans linked)
      exact ⟨kind, fst, snd⟩
  bound {x ty} solved := by
    rcases subst.cell_write_cases v x (.link w) with kept | ⟨-, written⟩
    · exact sorted.bound (kept ▸ solved)
    · cases written.symm.trans solved

theorem solved (sorted : subst.Sorted sorting) (fst : sorting.Sorts (.var v) kind)
    (snd : sorting.Sorts ty kind) : (subst.bind v ty).Sorted sorting where
  link {x y} linked := by
    rcases subst.cell_write_cases v x (.bound ty) with kept | ⟨-, written⟩
    · exact sorted.link (kept ▸ linked)
    · cases written.symm.trans linked
  bound {x solution} solved := by
    rcases subst.cell_write_cases v x (.bound ty) with kept | ⟨rfl, written⟩
    · exact sorted.bound (kept ▸ solved)
    · obtain rfl := Cell.bound.inj (written.symm.trans solved)
      exact ⟨kind, fst, snd⟩

section Walks

variable (closed : sorting.Closed) (sorted : subst.Sorted sorting)
include closed sorted

theorem sorts_root (sorts : sorting.Sorts (.var v) kind) :
    sorting.Sorts (.var (subst.root v)) kind := by
  have along : ∀ v w, sorting.Sorts (.var v) kind → subst.cell v = .link w →
      sorting.Sorts (.var w) kind := by
    intro v w sorts linked
    obtain ⟨other, fst, snd⟩ := sorted.link linked
    rwa [closed.kind_unique sorts fst]
  exact Subst.root_mem along sorts

variable (solutions : subst.Solutions Ty.Unapplied)
include solutions

theorem shallowWithin (unapplied : ty.Unapplied) (sorts : sorting.Sorts ty kind)
    (walk : subst.shallowWithin depth ty = some result) : sorting.Sorts result kind := by
  replace walk := heads_of_walk walk
  induction walk with
  | unsolved _ => exact sorted.sorts_root closed sorts
  | @solved v solution _ cell _ ih =>
    obtain ⟨other, fst, snd⟩ := sorted.bound cell
    exact ih (solutions.solved cell) (closed.kind_unique (sorted.sorts_root closed sorts) fst ▸ snd)
  | arrow | tuple | nominal | quantified => exact sorts
  | applied _ _ _ _ | collected _ _ | stuck _ _ _ =>
    cases unapplied with
    | app may _ _ _ => exact may.elim

theorem shallow (unapplied : ty.Unapplied) (sorts : sorting.Sorts ty kind) :
    sorting.Sorts (subst.shallow ty) kind := by
  rw [Subst.shallow, Subst.shallow?]
  cases walk : subst.shallowWithin (subst.depthBound ty.size) ty with
  | none => exact sorts
  | some result => exact sorted.shallowWithin closed solutions unapplied sorts walk

variable (types : strict)
include types

theorem zonkWithin (unapplied : ty.Unapplied) (sorts : sorting.Sorts ty kind)
    (walk : subst.zonkWithin depth ty = some result) : sorting.Sorts result kind := by
  induction depth generalizing ty result kind with
  | zero => cases walk
  | succ depth ih =>
    obtain ⟨head, shallow, rebuilt⟩ := zonkWithin_eq_some_iff.mp walk
    have held := solutions.shallowWithin (Ty.hereditary_applied False) unapplied shallow
    have sorts := sorted.shallowWithin closed solutions unapplied sorts shallow
    cases rebuilt with
    | var _ => exact sorts
    | arrow first second =>
      obtain ⟨fst, snd⟩ := (Ty.hereditary_applied False).arrow.mp held
      obtain ⟨rfl, sorts, sorts'⟩ := closed.arrow_inv sorts
      exact .arrow (ih fst sorts first) (ih snd sorts' second)
    | tuple walks =>
      have each := (Ty.hereditary_applied False).tuple.mp held
      obtain ⟨rfl, parts⟩ := closed.tuple_inv sorts
      refine .tuple
        (forall_of_forall₂ walks (fun t member => And.intro (each t member) (parts t member)) ?_)
      exact fun _ _ both walk => ih both.1 both.2 walk
    | nominal walks =>
      have each := (Ty.hereditary_applied False).nominal.mp held
      obtain ⟨rfl, params, known, length, parts⟩ := closed.nominal_inv sorts
      refine .nominal (fun _ admits => admits.declared known) (walks.length_eq ▸ length)
        (zip_of_forall₂ walks
        (fun entry member => And.intro (each _ (List.of_mem_zip member).1) (parts entry member)) ?_)
      exact fun both walk => ih both.1 both.2 walk
    | quantified within =>
      have inside := (Ty.hereditary_applied False).quantified.mp held
      exact closed.requantify types sorts fun sorts => ih inside sorts within
    | app _ _ =>
      cases held with
      | app may _ _ _ => exact may.elim

theorem zonk (unapplied : ty.Unapplied) (sorts : sorting.Sorts ty kind) :
    sorting.Sorts (subst.zonk ty) kind := by
  rw [Subst.zonk, Subst.zonk?]
  cases walk : subst.zonkWithin (subst.depthBound ty.size) ty with
  | none => exact sorts
  | some result => exact sorted.zonkWithin closed solutions types unapplied sorts walk

theorem freeVars (unapplied : ty.Unapplied) (sorts : sorting.Sorts ty kind) :
    ∀ v ∈ subst.freeVars ty, ∃ kind, sorting.Sorts (.var v) kind := by
  refine @freeVars_induct ty subst (fun ty => ty.Unapplied ∧ ∃ kind, sorting.Sorts ty kind) _
    (fun {_ head _} own walk => ?_) ⟨unapplied, kind, sorts⟩
  obtain ⟨unapplied, kind, sorts⟩ := own
  have held := solutions.shallowWithin (Ty.hereditary_applied False) unapplied walk
  have sorts := sorted.shallowWithin closed solutions unapplied sorts walk
  refine ⟨fun v same => ⟨kind, same ▸ sorts⟩,
    fun child member => ⟨?_, closed.children types held sorts child member⟩⟩
  exact (Ty.hereditary_applied False).children held child member

end Walks

end Subst.Sorted

theorem Sorting.Closed.extend (closed : sorting.Closed) (v : TyVar) (isClosed : kind.Closed) :
    (sorting.extend v kind).Closed where
  table := closed.table
  kinds w := by
    by_cases same : w = v
    · rw [same, Sorting.kinds_extend_self]
      exact isClosed
    · rw [Sorting.kinds_extend_of_ne same]
      exact closed.kinds w
  declared := closed.declared

/-- Everything that has a cell and everything that is solved has its kind, and the definitions
declare theirs. -/
structure Subst.WellKinded (declared : TemplateId → Option (List Kind)) (sorting : Sorting strict)
    (subst : Subst) : Prop where
  closed : sorting.Closed
  size : sorting.size ≤ subst.size
  declared : sorting.declared = declared
  sorted : subst.Sorted sorting
  solutions : subst.Solutions Ty.Unapplied

namespace Subst.WellKinded

variable {declared : TemplateId → Option (List Kind)} {subst after : Subst} {cell : Cell}

theorem push (here : subst.WellKinded declared sorting) (isNew : cell.IsNew)
    (isClosed : kind.Closed) : sorting ≤ sorting.extend (subst.push cell).1 kind ∧
      (subst.push cell).2.WellKinded declared (sorting.extend (subst.push cell).1 kind) ∧
      (sorting.extend (subst.push cell).1 kind).Sorts (.var (subst.push cell).1) kind := by
  have grown : sorting ≤ sorting.extend (subst.push cell).1 kind := Sorting.le_extend here.size kind
  refine ⟨grown, ⟨here.closed.extend _ isClosed, ?_, here.declared, ?_, here.solutions.push isNew⟩,
    ?_⟩
  · exact Nat.le_of_eq (subst.size_push cell).symm
  · exact (here.sorted.grow grown).lengthen (subst.lengthened_push isNew)
  · exact sorting.sorts_extend _ (isClosed.mono (Nat.zero_le _))

theorem pushMany (here : subst.WellKinded declared sorting) (isNew : cell.IsNew) {kinds : List Kind}
    (isClosed : ∀ kind ∈ kinds, kind.Closed) :
    ∃ later, sorting ≤ later ∧ (subst.pushMany cell kinds.length).2.WellKinded declared later ∧
      (subst.pushMany cell kinds.length).1.length = kinds.length ∧
      ∀ entry ∈ (subst.pushMany cell kinds.length).1.zip kinds,
        later.Sorts (.var entry.1) entry.2 := by
  induction kinds generalizing subst sorting with
  | nil => exact ⟨sorting, le_rfl, here, rfl, List.forall_mem_nil _⟩
  | cons kind kinds ih =>
    obtain ⟨first, rest⟩ := List.forall_mem_cons.mp isClosed
    obtain ⟨grown, there, sorts⟩ := here.push isNew first
    obtain ⟨later, grown', there, length, each⟩ := ih there rest
    refine ⟨later, grown.trans grown', there, congrArg Nat.succ length, ?_⟩
    exact List.forall_mem_cons.mpr ⟨sorts.grow grown', each⟩

theorem pushStars (here : subst.WellKinded declared sorting) (isNew : cell.IsNew) (count : Nat) :
    ∃ later, sorting ≤ later ∧ (subst.pushMany cell count).2.WellKinded declared later ∧
      ∀ v ∈ (subst.pushMany cell count).1, later.Sorts (.var v) .star := by
  have stars : ∀ kind ∈ List.replicate count Kind.star, kind.Closed := fun kind member =>
    List.eq_of_mem_replicate member ▸ trivial
  obtain ⟨later, grown, there, length, each⟩ := here.pushMany isNew stars
  rw [List.length_replicate] at there length each
  refine ⟨later, grown, there, fun v member => ?_⟩
  obtain ⟨index, inside, rfl⟩ := List.getElem_of_mem member
  have within : index < (List.replicate count Kind.star).length := by
    rw [List.length_replicate, ← length]
    exact inside
  have entry := each _ (getElem_mem_zip inside within)
  rwa [List.getElem_replicate] at entry

theorem opened (here : subst.WellKinded declared sorting) (types : strict)
    {vars copies : List TyVar}
    (unapplied : body.Unapplied) (sorts : sorting.Sorts (.quantified vars body) .star)
    (each : ∀ v ∈ copies, sorting.Sorts (.var v) .star) :
    sorting.Sorts ((subst.zonk body).substitute (.ofLists vars (copies.map .var))) .star := by
  obtain ⟨stars, inside⟩ := here.closed.quantified_star types sorts
  have resolved := here.sorted.zonk here.closed here.solutions types unapplied inside
  refine resolved.substitute_ofLists fun entry member => ?_
  obtain ⟨isCopy, isVar⟩ := List.of_mem_zip member
  obtain ⟨v, copied, same⟩ := List.mem_map.mp isCopy
  exact ⟨.star, same ▸ each v copied, stars _ isVar⟩

end Subst.WellKinded

namespace Unify

variable {declared : TemplateId → Option (List Kind)} {subst after : Subst} {depth : Nat}
  {left right : Ty} {pair : Ty × Ty} {below : List (Ty × Ty)}

/-- Two types of one kind without applications. -/
def Alike (sorting : Sorting strict) (pair : Ty × Ty) : Prop :=
  pair.1.Unapplied ∧ pair.2.Unapplied ∧ ∃ kind, sorting.Sorts pair.1 kind ∧
  sorting.Sorts pair.2 kind

theorem lasts_alike : Lasts (@Alike strict) :=
  fun grown alike =>
    ⟨alike.1, alike.2.1, alike.2.2.imp fun _ both => ⟨both.1.grow grown, both.2.grow grown⟩⟩

theorem alike_zip {types types' : List Ty} {params : List Kind}
    (length : types.length = params.length)
    (length' : types'.length = params.length) (unapplied : ∀ t ∈ types, t.Unapplied)
    (unapplied' : ∀ t ∈ types', t.Unapplied)
    (each : ∀ entry ∈ types.zip params, sorting.Sorts entry.1 entry.2)
    (each' : ∀ entry ∈ types'.zip params, sorting.Sorts entry.1 entry.2) :
    ∀ pair ∈ types.zip types', Alike sorting pair := by
  intro pair member
  obtain ⟨index, inside, rfl⟩ := List.getElem_of_mem member
  rw [List.getElem_zip]
  rw [List.length_zip] at inside
  exact ⟨unapplied _ (List.getElem_mem _), unapplied' _ (List.getElem_mem _), _,
    each _ (getElem_mem_zip (by omega) (by omega)), each' _ (getElem_mem_zip (by omega) (by omega))⟩

end Unify

namespace Sorting.Closed

variable (closed : sorting.Closed) (types : strict) {params params' : List TyVar} {body' : Ty}
include closed types

theorem params_of_quantified (sorts : sorting.Sorts (.quantified params body) kind) :
    ∃ (kinds : List Kind) (result : Kind), params.length = kinds.length ∧
      sorting.Sorts body result ∧
      (∀ entry ∈ params.zip kinds, sorting.Sorts (.var entry.1) entry.2) ∧
      (kind = .function kinds result ∨ kind = .star ∧ result = .star ∧ ∀ kind ∈ kinds,
        kind = .star) := by
  rcases closed.quantified_inv types sorts with ⟨rfl, each, inside⟩ | ⟨entries, result, rfl, rfl,
    each, inside⟩
  · refine ⟨List.replicate params.length .star, .star, (List.length_replicate ..).symm, inside,
      fun entry member => ?_, .inr ⟨rfl, rfl, fun _ => List.eq_of_mem_replicate⟩⟩
    obtain ⟨isParam, isKind⟩ := List.of_mem_zip member
    rw [List.eq_of_mem_replicate isKind]
    exact each entry.1 isParam
  · refine ⟨entries.map Prod.snd, result, by simp, inside, ?_, .inl rfl⟩
    rw [List.zip_map']
    exact List.forall_mem_map.mpr each

theorem params_of_both (length : params.length = params'.length)
    (sorts : sorting.Sorts (.quantified params body) kind)
    (sorts' : sorting.Sorts (.quantified params' body') kind) :
    ∃ (kinds : List Kind) (result : Kind), params.length = kinds.length ∧
      (sorting.Sorts body result ∧ ∀ entry ∈ params.zip kinds,
        sorting.Sorts (.var entry.1) entry.2) ∧
      sorting.Sorts body' result ∧ ∀ entry ∈ params'.zip kinds,
        sorting.Sorts (.var entry.1) entry.2 := by
  obtain ⟨kinds, result, count, inside, each, whole⟩ := closed.params_of_quantified types sorts
  obtain ⟨kinds', result', count', inside', each', whole'⟩ :=
    closed.params_of_quantified types sorts'
  suffices same : kinds' = kinds ∧ result' = result by
    obtain ⟨rfl, rfl⟩ := same
    exact ⟨kinds', result', count, ⟨inside, each⟩, inside', each'⟩
  have counts : kinds'.length = kinds.length := count'.symm.trans (length.symm.trans count)
  have ofStar : ∀ {some : List Kind} {last : Kind}, Kind.star = .function some last → some = [] ∧
      last = .star := by
    intro some last same
    cases some with
    | nil => exact ⟨rfl, same.symm⟩
    | cons _ _ => cases same
  rcases whole with taken | ⟨isStar, rfl, stars⟩ <;> rcases whole' with taken' | ⟨isStar',
    rfl, stars'⟩
  · exact Kind.function_inj (taken'.symm.trans taken) counts
  · obtain ⟨rfl, rfl⟩ := ofStar (isStar'.symm.trans taken)
    exact ⟨List.length_eq_zero_iff.mp counts, rfl⟩
  · obtain ⟨rfl, rfl⟩ := ofStar (isStar.symm.trans taken')
    exact ⟨(List.length_eq_zero_iff.mp counts.symm).symm, rfl⟩
  · rw [List.eq_replicate_iff.mpr ⟨rfl, stars⟩, List.eq_replicate_iff.mpr ⟨rfl, stars'⟩, counts]
    exact ⟨rfl, rfl⟩

end Sorting.Closed

namespace Unify

variable {declared : TemplateId → Option (List Kind)} {subst after : Subst} {depth : Nat}
  {left right : Ty} {pair : Ty × Ty} {below : List (Ty × Ty)}

theorem sorts_renamed {params skolems : List TyVar} {kinds : List Kind}
    (count : params.length = kinds.length)
    (each : ∀ entry ∈ params.zip kinds, sorting.Sorts (.var entry.1) entry.2)
    (each' : ∀ entry ∈ skolems.zip kinds, sorting.Sorts (.var entry.1) entry.2)
    (sorts : sorting.Sorts body kind) :
    sorting.Sorts (body.substitute (.ofLists params (skolems.map .var))) kind := by
  refine sorts.substitute_ofLists fun entry member => ?_
  rw [List.zip_map_left] at member
  obtain ⟨⟨skolem, param⟩, isPair, rfl⟩ := List.mem_map.mp member
  obtain ⟨index, inside, same⟩ := List.getElem_of_mem isPair
  rw [List.getElem_zip] at same
  obtain ⟨rfl, rfl⟩ := Prod.mk.inj same
  rw [List.length_zip] at inside
  exact ⟨_, each' _ (getElem_mem_zip (by omega) (by omega)),
    each _ (getElem_mem_zip (by omega) (by omega))⟩

theorem wellKinded_moves (here : subst.WellKinded declared sorting) (types : strict)
    (alike : Alike sorting (left, right)) (roots : ∀ x, left = .var x → subst.root x = x)
    (roots' : ∀ x, right = .var x → subst.root x = x)
    (moves : Moves depth subst left right below after) :
    ∃ later, sorting ≤ later ∧ after.WellKinded declared later ∧ ∀ pair ∈ below,
      Alike later pair := by
  obtain ⟨unapplied, unapplied', kind, sorts, sorts'⟩ := alike
  have hereditary := Ty.hereditary_applied False
  have solutions :=
    (solutions_moves hereditary here.solutions unapplied unapplied' roots roots' moves).1
  have closed := here.closed
  have size : ∀ v cell, sorting.size ≤ (subst.write v cell).size := fun v cell =>
    (subst.size_write v cell).symm ▸ here.size
  cases moves with
  | same _ => exact ⟨sorting, le_rfl, here, List.forall_mem_nil _⟩
  | link _ _ =>
    exact ⟨sorting, le_rfl,
      ⟨closed, size _ _, here.declared, here.sorted.linked sorts sorts', solutions⟩,
      List.forall_mem_nil _⟩
  | linkBack _ _ _ =>
    exact ⟨sorting, le_rfl,
      ⟨closed, size _ _, here.declared, here.sorted.linked sorts' sorts, solutions⟩,
      List.forall_mem_nil _⟩
  | bind _ _ _ =>
    exact ⟨sorting, le_rfl,
      ⟨closed, size _ _, here.declared, here.sorted.solved sorts sorts', solutions⟩,
      List.forall_mem_nil _⟩
  | bindBack _ _ _ =>
    exact ⟨sorting, le_rfl,
      ⟨closed, size _ _, here.declared, here.sorted.solved sorts' sorts, solutions⟩,
      List.forall_mem_nil _⟩
  | arrow _ _ _ _ =>
    obtain ⟨fst, snd⟩ := hereditary.arrow.mp unapplied
    obtain ⟨fst', snd'⟩ := hereditary.arrow.mp unapplied'
    obtain ⟨-, param, result⟩ := closed.arrow_inv sorts
    obtain ⟨-, param', result'⟩ := closed.arrow_inv sorts'
    exact ⟨sorting, le_rfl, here, List.forall_mem_cons.mpr ⟨⟨fst, fst', _, param, param'⟩,
      List.forall_mem_singleton.mpr ⟨snd, snd', _, result, result'⟩⟩⟩
  | tuple length =>
    have each := hereditary.tuple.mp unapplied
    have each' := hereditary.tuple.mp unapplied'
    obtain ⟨-, parts⟩ := closed.tuple_inv sorts
    obtain ⟨-, parts'⟩ := closed.tuple_inv sorts'
    refine ⟨sorting, le_rfl, here, fun pair member => ?_⟩
    obtain ⟨isLeft, isRight⟩ := List.of_mem_zip member
    exact ⟨each _ isLeft, each' _ isRight, _, parts _ isLeft, parts' _ isRight⟩
  | nominal length =>
    obtain ⟨-, params, known, count, each⟩ := closed.nominal_inv sorts
    obtain ⟨-, params', known', count', each'⟩ := closed.nominal_inv sorts'
    obtain rfl := Option.some.inj (known.symm.trans known')
    exact ⟨sorting, le_rfl, here, alike_zip count count' (hereditary.nominal.mp unapplied)
      (hereditary.nominal.mp unapplied') each each'⟩
  | @quantified ps qs b c b' c' skolems _ length opened zonked zonked' =>
    obtain ⟨kinds, result, count, ⟨inside, each⟩, inside', each'⟩ :=
      closed.params_of_both types length sorts sorts'
    have isClosed : ∀ kind ∈ kinds, kind.Closed := by
      intro kind member
      obtain ⟨index, less, rfl⟩ := List.getElem_of_mem member
      exact closed.closed_kind (each _ (getElem_mem_zip (count ▸ less) less))
    obtain ⟨later, grown, there, -, fresh⟩ := here.pushMany (Cell.isNew_rigid none) isClosed
    rw [count] at opened
    rw [opened] at there fresh
    have body := there.sorted.zonkWithin there.closed there.solutions types
      (hereditary.quantified.mp unapplied) (inside.grow grown) zonked
    have body' := there.sorted.zonkWithin there.closed there.solutions types
      (hereditary.quantified.mp unapplied') (inside'.grow grown) zonked'
    have rigid : ∀ t ∈ skolems.map Ty.var, t.Unapplied := List.forall_mem_map.mpr fun v _ => .var v
    refine ⟨later, grown, there, List.forall_mem_singleton.mpr ⟨?_, ?_, result, ?_, ?_⟩⟩
    · exact hereditary.substitute_ofLists
        (there.solutions.zonkWithin hereditary (hereditary.quantified.mp unapplied) zonked) rigid
    · exact hereditary.substitute_ofLists
        (there.solutions.zonkWithin hereditary (hereditary.quantified.mp unapplied') zonked') rigid
    · exact sorts_renamed count (fun entry member => (each entry member).grow grown) fresh body
    · exact sorts_renamed (length ▸ count) (fun entry member => (each' entry member).grow grown)
        fresh body'
  | app _ _ _ _ | abstract _ =>
    cases unapplied with
    | app may _ _ _ => exact may.elim
  | abstractBack _ =>
    cases unapplied' with
    | app may _ _ _ => exact may.elim

theorem reaches_step_wellKinded (types : strict) (depth : Nat) {sorting : Sorting strict}
    {pair : Ty × Ty} (alike : Alike sorting pair) :
    Reaches (Subst.WellKinded declared) sorting
    (fun later below => ∀ other ∈ below, Alike later other) (step depth pair) := by
  refine reaches_of_ok fun subst after below here run => ?_
  obtain ⟨left, right, shallow, shallow', moves⟩ := step_eq_ok run
  obtain ⟨unapplied, unapplied', kind, sorts, sorts'⟩ := alike
  have hereditary := Ty.hereditary_applied False
  refine wellKinded_moves here types ⟨here.solutions.shallowWithin hereditary unapplied shallow,
    here.solutions.shallowWithin hereditary unapplied' shallow', kind,
    here.sorted.shallowWithin here.closed here.solutions unapplied sorts shallow,
    here.sorted.shallowWithin here.closed here.solutions unapplied' sorts' shallow'⟩ ?_ ?_ moves
  · rintro x rfl
    exact (here.solutions.ends.shallowWithin_var shallow).1
  · rintro x rfl
    exact (here.solutions.ends.shallowWithin_var shallow').1

end Unify

theorem Subst.reaches_unify_wellKinded {declared : TemplateId → Option (List Kind)} (types : strict)
    {left right : Ty} (alike : Unify.Alike sorting (left, right)) :
    Reaches (Subst.WellKinded declared) sorting unsaid (Subst.unify left right) :=
  .get fun _ _ => .walk (Unify.lasts_alike : Lasts (@Unify.Alike strict)) (.throw _)
    (fun depth _ => Unify.reaches_step_wellKinded types depth) (List.forall_mem_singleton.mpr alike)

end PolyCheck
