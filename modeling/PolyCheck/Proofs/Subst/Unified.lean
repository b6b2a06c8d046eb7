import PolyCheck.Proofs.Subst.Solving

/-! Most general solutions of pairs of first-order types. A solver gives images of the variables
that fix the rigid ones and make the pairs equal; cells are most general for some pairs if they make
them equal and every solver goes through them. Such cells come from solving a variable, from one
pair after the other, and from the parts of types with the same head. -/
namespace PolyCheck.Subst

variable {subst after : Subst}

/-- Later cells, in which more may be solved. -/
structure Extends (subst after : Subst) : Prop where
  size_le : subst.size ≤ after.size
  rigid : ∀ {v : TyVar} {name : Option Name}, v.index < subst.size →
    (after.cell v = .rigid name ↔ subst.cell v = .rigid name)
  resolved : ∀ {ty : Ty}, ty.FirstOrder subst.size → after.zonk (subst.zonk ty) = after.zonk ty

theorem Tame.extends_refl (tame : subst.Tame) : subst.Extends subst where
  size_le := Nat.le_refl _
  rigid _ := Iff.rfl
  resolved plain := tame.zonk_zonk plain

theorem Extends.trans {middle : Subst} (tame : subst.Tame) (first : subst.Extends middle)
    (second : middle.Extends after) : subst.Extends after where
  size_le := Nat.le_trans first.size_le second.size_le
  rigid inside :=
    (second.rigid (Nat.lt_of_lt_of_le inside first.size_le)).trans (first.rigid inside)
  resolved plain := by
    have plain' := plain.mono first.size_le
    have resolved' := (tame.zonk_firstOrder plain).mono first.size_le
    rw [← second.resolved resolved', first.resolved plain, second.resolved plain']

/-- Images of variables that fix the rigid ones and make pairs of types equal. -/
structure Solver (subst : Subst) (pairs : List (Ty × Ty)) (images : TyVar → Ty) : Prop where
  rigid : ∀ {v : TyVar} {name : Option Name}, subst.cell v = .rigid name → images v = .var v
  equal : ∀ pair ∈ pairs, (subst.zonk pair.1).under images = (subst.zonk pair.2).under images

def Involves (subst : Subst) (pairs : List (Ty × Ty)) (v : TyVar) : Prop :=
  ∃ pair ∈ pairs, v ∈ (subst.zonk pair.1).leaves ∨ v ∈ (subst.zonk pair.2).leaves

/-- Cells in which pairs of types have become equal. Every solver goes through them, and they differ
from the cells before only in what the pairs involve. -/
structure Unified (subst : Subst) (pairs : List (Ty × Ty)) (after : Subst) : Prop where
  tame : after.Tame
  size : after.size = subst.size
  later : subst.Extends after
  equal : ∀ pair ∈ pairs, after.zonk pair.1 = after.zonk pair.2
  general : ∀ {images : TyVar → Ty}, subst.Solver pairs images →
    ∀ {ty : Ty}, ty.FirstOrder subst.size →
      (after.zonk ty).under images = (subst.zonk ty).under images
  leaves : ∀ {ty : Ty}, ty.FirstOrder subst.size → ∀ {v : TyVar}, v ∈ (after.zonk ty).leaves →
    v ∈ (subst.zonk ty).leaves ∨ subst.Involves pairs v
  untouched : ∀ {v : TyVar}, ¬ subst.Involves pairs v → after.cell v = subst.cell v

section Unified

theorem Tame.unified_of_equal (tame : subst.Tame) {pairs : List (Ty × Ty)}
    (equal : ∀ pair ∈ pairs, subst.zonk pair.1 = subst.zonk pair.2) :
    subst.Unified pairs subst where
  tame := tame
  size := rfl
  later := tame.extends_refl
  equal := equal
  general _ _ _ := rfl
  leaves _ _ member := .inl member
  untouched _ := rfl

theorem Solver.rest {middle : Subst} {pairs rest : List (Ty × Ty)} {images : TyVar → Ty}
    (unified : subst.Unified pairs middle) (solver : subst.Solver (pairs ++ rest) images)
    (plain : ∀ pair ∈ rest, pair.1.FirstOrder subst.size ∧ pair.2.FirstOrder subst.size) :
    subst.Solver pairs images ∧ middle.Solver rest images := by
  have first : subst.Solver pairs images :=
    ⟨solver.rigid, fun pair member => solver.equal pair (List.mem_append_left _ member)⟩
  refine ⟨first, ?_, fun pair member => ?_⟩
  · intro v name cell
    have inside' : v.index < subst.size := by
      rw [← unified.size]
      exact inside_of_cell cell (by simp)
    exact solver.rigid ((unified.later.rigid inside').mp cell)
  · have plains := plain pair member
    rw [unified.general first plains.1, unified.general first plains.2]
    exact solver.equal pair (List.mem_append_right _ member)

theorem Unified.append {middle : Subst} {pairs rest : List (Ty × Ty)} (tame : subst.Tame)
    (plainFirst : ∀ pair ∈ pairs, pair.1.FirstOrder subst.size ∧ pair.2.FirstOrder subst.size)
    (plain : ∀ pair ∈ rest, pair.1.FirstOrder subst.size ∧ pair.2.FirstOrder subst.size)
    (first : subst.Unified pairs middle) (second : middle.Unified rest after) :
    subst.Unified (pairs ++ rest) after := by
  have involved : ∀ {v : TyVar}, middle.Involves rest v → subst.Involves (pairs ++ rest) v := by
    rintro v ⟨pair, member, inPair⟩
    have plains := plain pair member
    have known : (v ∈ (subst.zonk pair.1).leaves ∨ v ∈ (subst.zonk pair.2).leaves) ∨
        subst.Involves pairs v := by
      rcases inPair with inPair | inPair
      · exact (first.leaves plains.1 inPair).imp_left .inl
      · exact (first.leaves plains.2 inPair).imp_left .inr
    rcases known with here | ⟨other, member', inOther⟩
    · exact ⟨pair, List.mem_append_right _ member, here⟩
    · exact ⟨other, List.mem_append_left _ member', inOther⟩
  have before : ∀ {v : TyVar}, subst.Involves pairs v → subst.Involves (pairs ++ rest) v :=
    fun ⟨pair, member, inPair⟩ => ⟨pair, List.mem_append_left _ member, inPair⟩
  refine ⟨second.tame, second.size.trans first.size, first.later.trans tame second.later,
    fun pair member => ?_, fun solver ty plainTy => ?_, fun plainTy v member => ?_,
    fun notInvolved => ?_⟩
  · rcases List.mem_append.mp member with member | member
    · have plains := plainFirst pair member
      rw [← second.later.resolved (first.size ▸ plains.1), first.equal pair member,
        second.later.resolved (first.size ▸ plains.2)]
    · exact second.equal pair member
  · obtain ⟨solver, solverRest⟩ := solver.rest first plain
    rw [second.general solverRest (first.size ▸ plainTy), first.general solver plainTy]
  · rcases second.leaves (first.size ▸ plainTy) member with member | inRest
    · exact (first.leaves plainTy member).imp_right before
    · exact .inr (involved inRest)
  · rw [second.untouched fun inRest => notInvolved (involved inRest),
      first.untouched fun inPairs => notInvolved (before inPairs)]

theorem Solves.unified {x : TyVar} {image : Ty} {pair : Ty × Ty} (tame : subst.Tame)
    (solves : subst.Solves x image after)
    (plain : pair.1.FirstOrder subst.size ∧ pair.2.FirstOrder subst.size)
    (sides : subst.zonk pair.1 = .var x ∧ subst.zonk pair.2 = subst.zonk image ∨
      subst.zonk pair.1 = subst.zonk image ∧ subst.zonk pair.2 = .var x) :
    subst.Unified [pair] after := by
  have inPair : subst.Involves [pair] x := by
    refine ⟨pair, List.mem_singleton_self pair, ?_⟩
    rcases sides with ⟨left, -⟩ | ⟨-, right⟩
    · exact .inl (by simp [left, Ty.leaves])
    · exact .inr (by simp [right, Ty.leaves])
  have imageInPair : ∀ {v : TyVar}, v ∈ (subst.zonk image).leaves → subst.Involves [pair] v := by
    intro v member
    refine ⟨pair, List.mem_singleton_self pair, ?_⟩
    rcases sides with ⟨-, right⟩ | ⟨left, -⟩
    · exact .inr (right ▸ member)
    · exact .inl (left ▸ member)
  have resolvedImage := tame.zonk_firstOrder solves.plain
  have imageFixed : (subst.zonk image).under (Ty.single x (subst.zonk image)) =
      subst.zonk image := resolvedImage.under_fixed fun v member => by
    have different : v ≠ x := fun same => solves.apart (same ▸ member)
    exact Ty.single_of_ne different _
  refine ⟨solves.tame tame, solves.size, ⟨Nat.le_of_eq solves.size.symm, fun {v name} _ => ?_,
    fun {ty} plainTy => ?_⟩, fun other member => ?_, fun {images} solver ty plainTy => ?_,
    fun {ty} plainTy v member => ?_, fun {v} notInvolved => ?_⟩
  · by_cases same : v = x
    · subst same
      rcases solves.own with ⟨y, -, cell⟩ | ⟨-, cell⟩ <;> simp [cell, solves.unbound]
    · rw [solves.others same]
  · rw [solves.zonk tame (tame.zonk_firstOrder plainTy), tame.zonk_zonk plainTy,
      solves.zonk tame plainTy]
  · rw [List.mem_singleton.mp member, solves.zonk tame plain.1, solves.zonk tame plain.2]
    rcases sides with ⟨left, right⟩ | ⟨left, right⟩
    · rw [left, right, imageFixed, Ty.under, Ty.single_self]
    · rw [left, right, imageFixed, Ty.under, Ty.single_self]
  · have imageOf : (subst.zonk image).under images = images x := by
      have equal := solver.equal pair (List.mem_singleton_self pair)
      rcases sides with ⟨left, right⟩ | ⟨left, right⟩
      · rw [left, right, Ty.under] at equal
        exact equal.symm
      · rw [left, right, Ty.under] at equal
        exact equal
    rw [solves.zonk tame plainTy, (tame.zonk_firstOrder plainTy).under_under]
    refine (tame.zonk_firstOrder plainTy).under_congr fun v _ => ?_
    by_cases same : v = x
    · rw [same, Ty.single_self, imageOf]
    · rw [Ty.single_of_ne same, Ty.under]
  · rw [solves.zonk tame plainTy, (tame.zonk_firstOrder plainTy).mem_leaves_under] at member
    obtain ⟨w, inLeaves, inImage⟩ := member
    by_cases same : w = x
    · rw [same, Ty.single_self] at inImage
      exact .inr (imageInPair inImage)
    · rw [Ty.single_of_ne same, Ty.leaves, List.mem_singleton] at inImage
      exact .inl (inImage ▸ inLeaves)
  · exact solves.others fun same => notInvolved (same ▸ inPair)

end Unified

section Parts

theorem map_eq_map_iff_zip {α β : Type} (f : α → β) {items items' : List α}
    (length : items.length = items'.length) :
    items.map f = items'.map f ↔ ∀ pair ∈ items.zip items', f pair.1 = f pair.2 := by
  induction items generalizing items' with
  | nil =>
    cases items' with
    | nil => simp
    | cons _ _ => simp at length
  | cons item items ih =>
    cases items' with
    | nil => simp at length
    | cons item' items' => simp [ih (Nat.succ.inj length)]

/-- Two types with the same head over equally many parts. -/
inductive SameHead : Ty → Ty → Prop where
  | arrow (p r q s : Ty) : SameHead (.arrow p r) (.arrow q s)
  | tuple {es fs : List Ty} (length : es.length = fs.length) : SameHead (.tuple es) (.tuple fs)
  | nominal (template : TemplateId) {as bs : List Ty} (length : as.length = bs.length) :
    SameHead (.nominal template as) (.nominal template bs)

/-- What makes the parts of two types with the same head equal makes the types equal, and the other
way round. -/
theorem Tame.under_eq_iff_parts (tame : subst.Tame) {left right : Ty} (head : SameHead left right)
    (plain : left.FirstOrder subst.size) (plain' : right.FirstOrder subst.size)
    (images : TyVar → Ty) :
    (subst.zonk left).under images = (subst.zonk right).under images ↔
      ∀ pair ∈ left.children.zip right.children,
        (subst.zonk pair.1).under images = (subst.zonk pair.2).under images := by
  cases head with
  | arrow p r q s =>
    cases plain with
    | arrow fst snd =>
      cases plain' with
      | arrow fst' snd' =>
        rw [tame.zonk_arrow fst snd, tame.zonk_arrow fst' snd']
        simp [Ty.under, Ty.children]
  | tuple length =>
    cases plain with
    | tuple each =>
      cases plain' with
      | tuple each' =>
        rw [tame.zonk_tuple each, tame.zonk_tuple each', Ty.under, Ty.under, Ty.underAll_eq_map,
          Ty.underAll_eq_map, List.map_map, List.map_map, Ty.tuple.injEq,
          map_eq_map_iff_zip _ length]
        rfl
  | nominal template length =>
    cases plain with
    | nominal each =>
      cases plain' with
      | nominal each' =>
        rw [tame.zonk_nominal each, tame.zonk_nominal each', Ty.under, Ty.under,
          Ty.underAll_eq_map, Ty.underAll_eq_map, List.map_map, List.map_map, Ty.nominal.injEq,
          map_eq_map_iff_zip _ length]
        simp [Ty.children]

theorem Tame.sameHead_of_under_eq (tame : subst.Tame) {left right : Ty}
    (plain : left.FirstOrder subst.size) (plain' : right.FirstOrder subst.size)
    (notVar : left.isVar = false) (notVar' : right.isVar = false) {images : TyVar → Ty}
    (equal : (subst.zonk left).under images = (subst.zonk right).under images) :
    SameHead left right := by
  cases plain with
  | var _ => simp at notVar
  | arrow fst snd =>
    rw [tame.zonk_arrow fst snd, Ty.under] at equal
    cases plain' with
    | var _ => simp at notVar'
    | arrow _ _ => exact .arrow _ _ _ _
    | tuple each => simp [tame.zonk_tuple each, Ty.under] at equal
    | nominal each => simp [tame.zonk_nominal each, Ty.under] at equal
  | tuple each =>
    rw [tame.zonk_tuple each, Ty.under] at equal
    cases plain' with
    | var _ => simp at notVar'
    | arrow fst snd => simp [tame.zonk_arrow fst snd, Ty.under] at equal
    | tuple each' =>
      rw [tame.zonk_tuple each', Ty.under, Ty.tuple.injEq, Ty.underAll_eq_map,
        Ty.underAll_eq_map] at equal
      exact .tuple (by simpa using congrArg List.length equal)
    | nominal each' => simp [tame.zonk_nominal each', Ty.under] at equal
  | nominal each =>
    rw [tame.zonk_nominal each, Ty.under] at equal
    cases plain' with
    | var _ => simp at notVar'
    | arrow fst snd => simp [tame.zonk_arrow fst snd, Ty.under] at equal
    | tuple each' => simp [tame.zonk_tuple each', Ty.under] at equal
    | nominal each' =>
      rw [tame.zonk_nominal each', Ty.under, Ty.nominal.injEq, Ty.underAll_eq_map,
        Ty.underAll_eq_map] at equal
      obtain ⟨rfl, args⟩ := equal
      exact .nominal _ (by simpa using congrArg List.length args)

theorem Tame.leaves_of_child (tame : subst.Tame) {ty part : Ty} (plain : ty.FirstOrder subst.size)
    (member : part ∈ ty.children) {v : TyVar} (inPart : v ∈ (subst.zonk part).leaves) :
    v ∈ (subst.zonk ty).leaves := by
  have plainPart := plain.child member
  obtain ⟨w, inLeaves, inImage⟩ := (tame.mem_leaves_zonk plainPart).mp inPart
  refine (tame.mem_leaves_zonk plain).mpr ⟨w, ?_, inImage⟩
  cases plain with
  | var _ => simp [Ty.children] at member
  | arrow _ _ =>
    simp only [Ty.children, List.mem_cons, List.not_mem_nil, or_false] at member
    rcases member with rfl | rfl <;> simp [Ty.leaves, inLeaves]
  | tuple _ => exact Ty.mem_leavesAll.mpr ⟨part, member, inLeaves⟩
  | nominal _ => exact Ty.mem_leavesAll.mpr ⟨part, member, inLeaves⟩

theorem Tame.height_child_lt (tame : subst.Tame) {ty part : Ty} (plain : ty.FirstOrder subst.size)
    (member : part ∈ ty.children) : (subst.zonk part).height < (subst.zonk ty).height := by
  cases plain with
  | var _ => simp [Ty.children] at member
  | arrow fst snd =>
    simp only [Ty.children, List.mem_cons, List.not_mem_nil, or_false] at member
    rw [tame.zonk_arrow fst snd, Ty.height]
    rcases member with rfl | rfl <;> omega
  | tuple each =>
    rw [tame.zonk_tuple each, Ty.height]
    exact Nat.lt_succ_of_le (Ty.height_le_heightAll (List.mem_map_of_mem member))
  | nominal each =>
    rw [tame.zonk_nominal each, Ty.height]
    exact Nat.lt_succ_of_le (Ty.height_le_heightAll (List.mem_map_of_mem member))

theorem size_child_le {ty part : Ty} {bound : Nat} (plain : ty.FirstOrder bound)
    (member : part ∈ ty.children) : part.size ≤ ty.size := by
  cases plain with
  | var _ => simp [Ty.children] at member
  | arrow _ _ =>
    simp only [Ty.children, List.mem_cons, List.not_mem_nil, or_false] at member
    rw [Ty.size]
    rcases member with rfl | rfl <;> omega
  | tuple _ => exact Nat.le_succ_of_le (Ty.size_le_sizeAll member)
  | nominal _ => exact Nat.le_succ_of_le (Ty.size_le_sizeAll member)

end Parts

end PolyCheck.Subst
