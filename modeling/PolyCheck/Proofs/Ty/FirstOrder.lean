import Mathlib
import PolyCheck.Ty

/-! First-order types: variables, functions, tuples and named types, without quantifiers and without
applications. On them a substitution of types for variables is a plain replacement of leaves, which
`under` writes as a function on variables. -/
namespace PolyCheck.Ty

/-- A type over the variables below a bound, without quantifiers and applications. -/
inductive FirstOrder (bound : Nat) : Ty → Prop where
  | var {v : TyVar} (inside : v.index < bound) : FirstOrder bound (.var v)
  | arrow {param result : Ty} (fst : FirstOrder bound param) (snd : FirstOrder bound result) :
    FirstOrder bound (.arrow param result)
  | tuple {elems : List Ty} (each : ∀ t ∈ elems, FirstOrder bound t) :
    FirstOrder bound (.tuple elems)
  | nominal {template : TemplateId} {args : List Ty} (each : ∀ t ∈ args, FirstOrder bound t) :
    FirstOrder bound (.nominal template args)

mutual

/-- The variables at the leaves of a type, from left to right. -/
def leaves : Ty → List TyVar
  | var v => [v]
  | arrow param result => leaves param ++ leaves result
  | tuple elems => leavesAll elems
  | nominal _ args => leavesAll args
  | quantified _ body => leaves body
  | app head args => leaves head ++ leavesAll args

def leavesAll : List Ty → List TyVar
  | [] => []
  | t :: ts => leaves t ++ leavesAll ts

end

mutual

/-- Puts a type in place of every free variable. -/
def under (images : TyVar → Ty) : Ty → Ty
  | var v => images v
  | arrow param result => arrow (under images param) (under images result)
  | tuple elems => tuple (underAll images elems)
  | nominal template args => nominal template (underAll images args)
  | quantified params body =>
    quantified params (under (fun v => if params.contains v then var v else images v) body)
  | app head args => app (under images head) (underAll images args)

def underAll (images : TyVar → Ty) : List Ty → List Ty
  | [] => []
  | t :: ts => under images t :: underAll images ts

end

def single (x : TyVar) (image : Ty) (v : TyVar) : Ty :=
  if v = x then image else var v

mutual

def height : Ty → Nat
  | var _ => 1
  | arrow param result => max (height param) (height result) + 1
  | tuple elems => heightAll elems + 1
  | nominal _ args => heightAll args + 1
  | quantified _ body => height body + 1
  | app head args => max (height head) (heightAll args) + 1

def heightAll : List Ty → Nat
  | [] => 0
  | t :: ts => max (height t) (heightAll ts)

end

def isVar (ty : Ty) : Bool := ty.asVar?.isSome

@[simp] theorem isVar_var (v : TyVar) : (Ty.var v).isVar = true := rfl
@[simp] theorem isVar_arrow (param result : Ty) : (Ty.arrow param result).isVar = false := rfl
@[simp] theorem isVar_tuple (elems : List Ty) : (Ty.tuple elems).isVar = false := rfl
@[simp] theorem isVar_nominal (template : TemplateId) (args : List Ty) :
    (Ty.nominal template args).isVar = false := rfl

@[simp] theorem single_self (x : TyVar) (image : Ty) : single x image x = image := if_pos rfl

theorem single_of_ne {x v : TyVar} (different : v ≠ x) (image : Ty) :
    single x image v = var v := if_neg different

theorem mem_leavesAll {v : TyVar} {types : List Ty} :
    v ∈ leavesAll types ↔ ∃ t ∈ types, v ∈ leaves t := by
  induction types with
  | nil => simp [leavesAll]
  | cons t ts ih => simp [leavesAll, ih]

theorem underAll_eq_map (images : TyVar → Ty) (types : List Ty) :
    underAll images types = types.map (under images) := by
  induction types with
  | nil => rfl
  | cons t ts ih => rw [underAll, ih, List.map_cons]

theorem height_le_heightAll {t : Ty} {types : List Ty} (member : t ∈ types) :
    t.height ≤ heightAll types := by
  induction types with
  | nil => simp at member
  | cons u us ih =>
    rw [heightAll]
    rcases List.mem_cons.mp member with rfl | member
    · exact Nat.le_max_left _ _
    · exact Nat.le_trans (ih member) (Nat.le_max_right _ _)

theorem heightAll_le {types : List Ty} {bound : Nat} (each : ∀ t ∈ types, t.height ≤ bound) :
    heightAll types ≤ bound := by
  induction types with
  | nil => simp [heightAll]
  | cons t ts ih =>
    rw [heightAll]
    exact Nat.max_le.mpr ⟨each t List.mem_cons_self,
      ih fun u member => each u (List.mem_cons_of_mem t member)⟩

theorem size_le_sizeAll {t : Ty} {types : List Ty} (member : t ∈ types) :
    t.size ≤ sizeAll types := by
  induction types with
  | nil => simp at member
  | cons u us ih =>
    rw [sizeAll]
    rcases List.mem_cons.mp member with rfl | member
    · exact Nat.le_add_right _ _
    · exact Nat.le_trans (ih member) (Nat.le_add_left _ _)

theorem size_pos (t : Ty) : 0 < t.size := by
  cases t <;> simp [size]

theorem height_pos (t : Ty) : 0 < t.height := by
  cases t <;> simp [height]

theorem FirstOrder.mono {bound bound' : Nat} (le : bound ≤ bound') {ty : Ty}
    (plain : ty.FirstOrder bound) : ty.FirstOrder bound' := by
  induction plain with
  | var inside => exact .var (Nat.lt_of_lt_of_le inside le)
  | arrow _ _ ihParam ihResult => exact .arrow ihParam ihResult
  | tuple _ ih => exact .tuple ih
  | nominal _ ih => exact .nominal ih

theorem FirstOrder.inside {bound : Nat} {ty : Ty} (plain : ty.FirstOrder bound) :
    ∀ v ∈ ty.leaves, v.index < bound := by
  induction plain with
  | var inside => simpa [leaves] using inside
  | arrow _ _ ihParam ihResult =>
    intro v member
    rw [leaves] at member
    exact (List.mem_append.mp member).elim (ihParam v) (ihResult v)
  | tuple _ ih =>
    intro v member
    rw [leaves] at member
    obtain ⟨t, inElems, inLeaves⟩ := mem_leavesAll.mp member
    exact ih t inElems v inLeaves
  | nominal _ ih =>
    intro v member
    rw [leaves] at member
    obtain ⟨t, inArgs, inLeaves⟩ := mem_leavesAll.mp member
    exact ih t inArgs v inLeaves

theorem FirstOrder.under_congr {bound : Nat} {ty : Ty} (plain : ty.FirstOrder bound)
    {images images' : TyVar → Ty} (same : ∀ v ∈ ty.leaves, images v = images' v) :
    ty.under images = ty.under images' := by
  induction plain with
  | var inside => exact same _ (by simp [leaves])
  | arrow _ _ ihParam ihResult =>
    rw [under, under, ihParam fun v member => same v (by simp [leaves, member]),
      ihResult fun v member => same v (by simp [leaves, member])]
  | tuple _ ih =>
    rw [under, under, underAll_eq_map, underAll_eq_map]
    refine congrArg Ty.tuple (List.map_congr_left fun t inElems => ?_)
    exact ih t inElems fun v member =>
      same v (by rw [leaves]; exact mem_leavesAll.mpr ⟨t, inElems, member⟩)
  | nominal _ ih =>
    rw [under, under, underAll_eq_map, underAll_eq_map]
    refine congrArg (Ty.nominal _) (List.map_congr_left fun t inArgs => ?_)
    exact ih t inArgs fun v member =>
      same v (by rw [leaves]; exact mem_leavesAll.mpr ⟨t, inArgs, member⟩)

theorem FirstOrder.under_var {bound : Nat} {ty : Ty} (plain : ty.FirstOrder bound) :
    ty.under Ty.var = ty := by
  induction plain with
  | var _ => rfl
  | arrow _ _ ihParam ihResult => rw [under, ihParam, ihResult]
  | tuple _ ih =>
    rw [under, underAll_eq_map, List.map_congr_left ih, List.map_id']
  | nominal _ ih =>
    rw [under, underAll_eq_map, List.map_congr_left ih, List.map_id']

/-- A type none of whose leaves is moved stays as it is. -/
theorem FirstOrder.under_fixed {bound : Nat} {ty : Ty} (plain : ty.FirstOrder bound)
    {images : TyVar → Ty} (fixed : ∀ v ∈ ty.leaves, images v = .var v) :
    ty.under images = ty :=
  (plain.under_congr fixed).trans plain.under_var

theorem FirstOrder.under_under {bound : Nat} {ty : Ty} (plain : ty.FirstOrder bound)
    (inner outer : TyVar → Ty) :
    (ty.under inner).under outer = ty.under fun v => (inner v).under outer := by
  induction plain with
  | var _ => rfl
  | arrow _ _ ihParam ihResult => rw [under, under, under, ihParam, ihResult]
  | tuple _ ih =>
    simp only [under, underAll_eq_map, List.map_map]
    exact congrArg Ty.tuple (List.map_congr_left ih)
  | nominal _ ih =>
    simp only [under, underAll_eq_map, List.map_map]
    exact congrArg (Ty.nominal _) (List.map_congr_left ih)

theorem FirstOrder.under {bound bound' : Nat} {ty : Ty} (plain : ty.FirstOrder bound)
    {images : TyVar → Ty} (each : ∀ v ∈ ty.leaves, (images v).FirstOrder bound') :
    (ty.under images).FirstOrder bound' := by
  induction plain with
  | var _ => exact each _ (by simp [leaves])
  | arrow _ _ ihParam ihResult =>
    rw [Ty.under]
    exact .arrow (ihParam fun v member => each v (by simp [leaves, member]))
      (ihResult fun v member => each v (by simp [leaves, member]))
  | tuple _ ih =>
    rw [Ty.under, underAll_eq_map]
    refine .tuple fun t member => ?_
    obtain ⟨u, inElems, rfl⟩ := List.mem_map.mp member
    exact ih u inElems fun v inLeaves =>
      each v (by rw [leaves]; exact mem_leavesAll.mpr ⟨u, inElems, inLeaves⟩)
  | nominal _ ih =>
    rw [Ty.under, underAll_eq_map]
    refine .nominal fun t member => ?_
    obtain ⟨u, inArgs, rfl⟩ := List.mem_map.mp member
    exact ih u inArgs fun v inLeaves =>
      each v (by rw [leaves]; exact mem_leavesAll.mpr ⟨u, inArgs, inLeaves⟩)

theorem FirstOrder.mem_leaves_under {bound : Nat} {ty : Ty} (plain : ty.FirstOrder bound)
    {images : TyVar → Ty} {w : TyVar} :
    w ∈ (ty.under images).leaves ↔ ∃ v ∈ ty.leaves, w ∈ (images v).leaves := by
  induction plain with
  | var _ => simp [Ty.under, leaves]
  | arrow _ _ ihParam ihResult =>
    simp only [Ty.under, leaves, List.mem_append, ihParam, ihResult]
    constructor
    · rintro (⟨v, member, inImage⟩ | ⟨v, member, inImage⟩)
      · exact ⟨v, .inl member, inImage⟩
      · exact ⟨v, .inr member, inImage⟩
    · rintro ⟨v, member | member, inImage⟩
      · exact .inl ⟨v, member, inImage⟩
      · exact .inr ⟨v, member, inImage⟩
  | tuple _ ih =>
    simp only [Ty.under, leaves, underAll_eq_map, mem_leavesAll, List.mem_map]
    constructor
    · rintro ⟨_, ⟨t, inElems, rfl⟩, member⟩
      obtain ⟨v, inLeaves, inImage⟩ := (ih t inElems).mp member
      exact ⟨v, ⟨t, inElems, inLeaves⟩, inImage⟩
    · rintro ⟨v, ⟨t, inElems, inLeaves⟩, inImage⟩
      exact ⟨_, ⟨t, inElems, rfl⟩, (ih t inElems).mpr ⟨v, inLeaves, inImage⟩⟩
  | nominal _ ih =>
    simp only [Ty.under, leaves, underAll_eq_map, mem_leavesAll, List.mem_map]
    constructor
    · rintro ⟨_, ⟨t, inArgs, rfl⟩, member⟩
      obtain ⟨v, inLeaves, inImage⟩ := (ih t inArgs).mp member
      exact ⟨v, ⟨t, inArgs, inLeaves⟩, inImage⟩
    · rintro ⟨v, ⟨t, inArgs, inLeaves⟩, inImage⟩
      exact ⟨_, ⟨t, inArgs, rfl⟩, (ih t inArgs).mpr ⟨v, inLeaves, inImage⟩⟩

theorem FirstOrder.image_eq {bound : Nat} {ty : Ty} (plain : ty.FirstOrder bound)
    {images images' : TyVar → Ty} (same : ty.under images = ty.under images') :
    ∀ v ∈ ty.leaves, images v = images' v := by
  have parts : ∀ {types : List Ty}, (∀ t ∈ types, t.under images = t.under images' →
      ∀ v ∈ t.leaves, images v = images' v) → underAll images types = underAll images' types →
      ∀ v ∈ leavesAll types, images v = images' v := by
    intro types each equal v member
    rw [underAll_eq_map, underAll_eq_map] at equal
    obtain ⟨t, inTypes, inLeaves⟩ := mem_leavesAll.mp member
    exact each t inTypes (List.map_inj_left.mp equal t inTypes) v inLeaves
  induction plain with
  | var _ =>
    intro v member
    rwa [List.mem_singleton.mp member]
  | arrow _ _ ihParam ihResult =>
    intro v member
    rw [Ty.under, Ty.under, Ty.arrow.injEq] at same
    exact (List.mem_append.mp member).elim (ihParam same.1 v) (ihResult same.2 v)
  | tuple _ ih =>
    rw [Ty.under, Ty.under, Ty.tuple.injEq] at same
    exact parts ih same
  | nominal _ ih =>
    rw [Ty.under, Ty.under, Ty.nominal.injEq] at same
    exact parts ih same.2

theorem FirstOrder.of_under {bound bound' : Nat} {ty : Ty} (plain : ty.FirstOrder bound)
    {images : TyVar → Ty} (whole : (ty.under images).FirstOrder bound') :
    ∀ v ∈ ty.leaves, (images v).FirstOrder bound' := by
  have parts : ∀ {types : List Ty}, (∀ t ∈ types, (t.under images).FirstOrder bound' →
      ∀ v ∈ t.leaves, (images v).FirstOrder bound') →
      (∀ t ∈ underAll images types, t.FirstOrder bound') →
      ∀ v ∈ leavesAll types, (images v).FirstOrder bound' := by
    intro types each all v member
    rw [underAll_eq_map] at all
    obtain ⟨t, inTypes, inLeaves⟩ := mem_leavesAll.mp member
    exact each t inTypes (all _ (List.mem_map_of_mem inTypes)) v inLeaves
  induction plain with
  | var _ =>
    intro v member
    rwa [List.mem_singleton.mp member]
  | arrow _ _ ihParam ihResult =>
    intro v member
    cases whole with
    | arrow fst snd => exact (List.mem_append.mp member).elim (ihParam fst v) (ihResult snd v)
  | tuple _ ih =>
    cases whole with
    | tuple each => exact parts ih each
  | nominal _ ih =>
    cases whole with
    | nominal each => exact parts ih each

theorem FirstOrder.size_image_le {bound : Nat} {ty : Ty} (plain : ty.FirstOrder bound)
    (images : TyVar → Ty) {v : TyVar} (member : v ∈ ty.leaves) :
    (images v).size ≤ (ty.under images).size := by
  induction plain with
  | var _ =>
    rw [leaves, List.mem_singleton] at member
    exact Nat.le_of_eq (by rw [member, Ty.under])
  | arrow _ _ ihParam ihResult =>
    rw [leaves] at member
    rw [Ty.under, size]
    rcases List.mem_append.mp member with member | member
    · have := ihParam member
      omega
    · have := ihResult member
      omega
  | tuple _ ih =>
    rw [leaves] at member
    obtain ⟨t, inElems, inLeaves⟩ := mem_leavesAll.mp member
    have here := ih t inElems inLeaves
    have all := size_le_sizeAll (List.mem_map_of_mem (f := Ty.under images) inElems)
    rw [Ty.under, underAll_eq_map, size]
    omega
  | nominal _ ih =>
    rw [leaves] at member
    obtain ⟨t, inArgs, inLeaves⟩ := mem_leavesAll.mp member
    have here := ih t inArgs inLeaves
    have all := size_le_sizeAll (List.mem_map_of_mem (f := Ty.under images) inArgs)
    rw [Ty.under, underAll_eq_map, size]
    omega

theorem FirstOrder.child {bound : Nat} {ty part : Ty} (plain : ty.FirstOrder bound)
    (member : part ∈ ty.children) : part.FirstOrder bound := by
  cases plain with
  | var _ => simp [children] at member
  | arrow fst snd =>
    rcases List.mem_cons.mp member with rfl | member
    · exact fst
    · rw [List.mem_singleton.mp member]
      exact snd
  | tuple each => exact each part member
  | nominal each => exact each part member

/-- The image of a leaf below the head is smaller than the whole, so no images make the two
equal. -/
theorem FirstOrder.image_ne {bound : Nat} {ty : Ty} (plain : ty.FirstOrder bound)
    (images : TyVar → Ty) {v : TyVar} (member : v ∈ ty.leaves) (notVar : ty.isVar = false) :
    images v ≠ ty.under images := by
  intro equal
  have sizes := congrArg Ty.size equal
  cases plain with
  | var _ => simp at notVar
  | arrow fst snd =>
    rw [leaves] at member
    rw [Ty.under, size] at sizes
    rcases List.mem_append.mp member with member | member
    · have := fst.size_image_le images member
      omega
    · have := snd.size_image_le images member
      omega
  | tuple each =>
    rw [leaves] at member
    obtain ⟨t, inElems, inLeaves⟩ := mem_leavesAll.mp member
    have here := (each t inElems).size_image_le images inLeaves
    have all := size_le_sizeAll (List.mem_map_of_mem (f := Ty.under images) inElems)
    rw [Ty.under, underAll_eq_map, size] at sizes
    omega
  | nominal each =>
    rw [leaves] at member
    obtain ⟨t, inArgs, inLeaves⟩ := mem_leavesAll.mp member
    have here := (each t inArgs).size_image_le images inLeaves
    have all := size_le_sizeAll (List.mem_map_of_mem (f := Ty.under images) inArgs)
    rw [Ty.under, underAll_eq_map, size] at sizes
    omega

end PolyCheck.Ty
