import PolyCheck.Proofs.Reaches
import PolyCheck.Proofs.Subst.Confined
import PolyCheck.Proofs.Subst.Moves
import PolyCheck.Proofs.Ty.Fits
import PolyCheck.Scheme

/-! Cells that refer to nothing that is missing. What fits the shape of the cells stays so however
it is looked at: what a variable is linked to or solved by fits, and so does everything that is
resolved, gathered or put together from there. Unification writes such cells only, whether it
succeeds or not. -/
namespace PolyCheck

open Run

variable {shape larger : Shape} {ty : Ty}

inductive Cell.Fits (shape : Shape) : Cell → Prop where
  | unbound : Fits shape .unbound
  | rigid (name : Option Name) : Fits shape (.rigid name)
  | link {v : TyVar} (inside : v.index < shape.cells) : Fits shape (.link v)
  | bound {ty : Ty} (fits : ty.Fits shape) : Fits shape (.bound ty)

theorem Cell.Fits.grow {cell : Cell} (fits : cell.Fits shape) (grown : shape ≤ larger) :
    cell.Fits larger := by
  cases fits with
  | unbound => exact .unbound
  | rigid name => exact .rigid name
  | link inside => exact .link (Nat.lt_of_lt_of_le inside grown.1)
  | bound fits => exact .bound (fits.grow grown)

theorem Cell.IsNew.fits {cell : Cell} (isNew : cell.IsNew) : cell.Fits shape := by
  cases cell with
  | unbound => exact .unbound
  | rigid name => exact .rigid name
  | link _ | bound _ => exact isNew.elim

/-- What the quantified variables and the type of a scheme refer to. -/
structure Scheme.Fits (shape : Shape) (scheme : Scheme) : Prop where
  vars : ∀ v ∈ scheme.vars, v.index < shape.cells
  ty : scheme.ty.Fits shape

theorem Scheme.Fits.grow {scheme : Scheme} (fits : scheme.Fits shape) (grown : shape ≤ larger) :
    scheme.Fits larger :=
  ⟨fun v member => Nat.lt_of_lt_of_le (fits.vars v member) grown.1, fits.ty.grow grown⟩

namespace Subst

/-- As many cells as the shape says, which refer to nothing that is missing. -/
structure Fits (shape : Shape) (subst : Subst) : Prop where
  size : subst.size = shape.cells
  cell : ∀ v, (subst.cell v).Fits shape

variable {subst : Subst} {depth : Nat} {result : Ty}

section FreeVars

variable {owns : Ty → Prop} {holds : TyVar → Prop}
  (parts : ∀ {ty head : Ty} {depth : Nat}, owns ty → subst.shallowWithin depth ty = some head →
    (∀ v, head = .var v → holds v) ∧ ∀ child ∈ head.children, owns child)
include parts

theorem gather_induct (own : owns ty) {gathered noted : Gathered} {below : List Ty}
    (leaves : ∀ v ∈ gathered.leaves, holds v)
    (run : subst.gather depth ty gathered = some (below, noted)) :
    (∀ v ∈ noted.leaves, holds v) ∧ ∀ t ∈ below, owns t := by
  rw [Subst.gather] at run
  cases walk : subst.shallowWithin depth ty with
  | none => simp [walk] at run
  | some head =>
    rw [walk] at run
    obtain ⟨isVar, each⟩ := parts own walk
    split at run
    · cases run
    · rename_i v same
      obtain rfl := Option.some.inj same
      obtain ⟨rfl, rfl⟩ := Prod.mk.inj (Option.some.inj run)
      refine ⟨fun w member => ?_, List.forall_mem_nil _⟩
      rcases List.mem_insert_iff.mp member with rfl | old
      · exact isVar _ rfl
      · exact leaves w old
    · rename_i params body same
      obtain rfl := Option.some.inj same
      obtain ⟨rfl, rfl⟩ := Prod.mk.inj (Option.some.inj run)
      exact ⟨leaves, each⟩
    · rename_i other _ _ same
      obtain rfl := Option.some.inj same
      obtain ⟨rfl, rfl⟩ := Prod.mk.inj (Option.some.inj run)
      exact ⟨leaves, each⟩

theorem descend_induct (own : owns ty) {gathered noted : Gathered}
    (leaves : ∀ v ∈ gathered.leaves, holds v)
    (run : Agenda.descend (fun _ => none) subst.gather depth ty gathered = some ((), noted)) :
    ∀ v ∈ noted.leaves, holds v := by
  induction depth generalizing ty gathered noted with
  | zero => cases run
  | succ depth ih =>
    rw [Agenda.descend] at run
    obtain ⟨⟨below, middle⟩, first, rest⟩ := Option.bind_eq_some_iff.mp run
    obtain ⟨leaves', each⟩ := gather_induct parts own leaves first
    clear run first own leaves
    induction below generalizing middle with
    | nil =>
      obtain ⟨-, rfl⟩ := Prod.mk.inj (Option.some.inj rest)
      exact leaves'
    | cons t below ihBelow =>
      dsimp only at rest
      rw [List.forM_cons] at rest
      obtain ⟨⟨⟨⟩, next⟩, here, others⟩ := Option.bind_eq_some_iff.mp rest
      obtain ⟨first, each'⟩ := List.forall_mem_cons.mp each
      exact ihBelow next others (ih first leaves' here) each'

theorem freeVars_induct (own : owns ty) : ∀ v ∈ subst.freeVars ty, holds v := by
  intro v member
  rw [Subst.freeVars, Subst.freeVars?, freeVarsWithin, Agenda.walk_singleton] at member
  cases run : Agenda.descend (fun _ => none) subst.gather (subst.depthBound ty.size) ty
    ⟨[], []⟩ with
  | none => simp [run] at member
  | some result =>
    obtain ⟨⟨⟩, noted⟩ := result
    simp only [run, Option.getD_some, List.mem_filter, List.mem_reverse] at member
    exact descend_induct parts own (List.forall_mem_nil _) run v member.1

end FreeVars

namespace Fits

theorem root (fits : subst.Fits shape) {v : TyVar} (inside : v.index < shape.cells) :
    (subst.root v).index < shape.cells := by
  have closed : ∀ v w : TyVar, v.index < shape.cells → subst.cell v = .link w →
      w.index < shape.cells := by
    intro v w _ linked
    have known := fits.cell v
    rw [linked] at known
    cases known with
    | link inside => exact inside
  exact root_mem closed inside

theorem shallowWithin (fits : subst.Fits shape) (known : ty.Fits shape)
    (walk : subst.shallowWithin depth ty = some result) : result.Fits shape := by
  replace walk := heads_of_walk walk
  induction walk with
  | unsolved _ => exact .var (fits.root known.index_lt)
  | @solved v solution _ cell _ ih =>
    have known := fits.cell (subst.root v)
    rw [show subst.cell (subst.root v) = .bound solution from cell] at known
    cases known with
    | bound known => exact ih known
  | arrow | tuple | nominal | quantified => exact known
  | applied _ _ ihFirst ih =>
    obtain ⟨fst, each⟩ := known.app_inv
    exact ih ((ihFirst fst).apply each)
  | collected _ ih =>
    obtain ⟨fst, each⟩ := known.app_inv
    obtain ⟨fst', firsts⟩ := (ih fst).app_inv
    exact .app fst' (List.forall_mem_append.mpr ⟨firsts, each⟩)
  | stuck _ _ ih =>
    obtain ⟨fst, each⟩ := known.app_inv
    exact .app (ih fst) each

theorem shallow (fits : subst.Fits shape) (known : ty.Fits shape) :
    (subst.shallow ty).Fits shape := by
  rw [Subst.shallow, Subst.shallow?]
  cases walk : subst.shallowWithin (subst.depthBound ty.size) ty with
  | none => exact known
  | some result => exact fits.shallowWithin known walk

theorem zonkWithin (fits : subst.Fits shape) (known : ty.Fits shape)
    (walk : subst.zonkWithin depth ty = some result) : result.Fits shape := by
  induction depth generalizing ty result with
  | zero => cases walk
  | succ depth ih =>
    obtain ⟨head, shallow, rebuilt⟩ := zonkWithin_eq_some_iff.mp walk
    have known := fits.shallowWithin known shallow
    cases rebuilt with
    | var _ => exact known
    | arrow first second =>
      cases known with
      | arrow fst snd => exact .arrow (ih fst first) (ih snd second)
    | tuple walks =>
      cases known with
      | tuple each => exact .tuple (forall_of_forall₂ walks each fun _ _ => ih)
    | nominal walks =>
      cases known with
      | nominal arity each =>
        exact .nominal (walks.length_eq ▸ arity) (forall_of_forall₂ walks each fun _ _ => ih)
    | quantified within =>
      cases known with
      | quantified params inside => exact .quantified params (ih inside within)
    | app first walks =>
      obtain ⟨fst, each⟩ := known.app_inv
      exact (ih fst first).apply (forall_of_forall₂ walks each fun _ _ => ih)

theorem zonk (fits : subst.Fits shape) (known : ty.Fits shape) : (subst.zonk ty).Fits shape := by
  rw [Subst.zonk, Subst.zonk?]
  cases walk : subst.zonkWithin (subst.depthBound ty.size) ty with
  | none => exact known
  | some result => exact fits.zonkWithin known walk

theorem freeVars (fits : subst.Fits shape) (known : ty.Fits shape) :
    ∀ v ∈ subst.freeVars ty, v.index < shape.cells := by
  refine freeVars_induct (fun {_ head _} known walk => ?_) known
  have fitsHead := fits.shallowWithin known walk
  refine ⟨fun v same => ?_, fitsHead.children⟩
  subst same
  exact fitsHead.index_lt

theorem generalize (fits : subst.Fits shape) (known : ty.Fits shape) (fixed : List TyVar) :
    (Scheme.generalize subst fixed ty).Fits shape where
  vars v member := fits.freeVars (fits.zonk known) v (List.mem_of_mem_filter member)
  ty := fits.zonk known

theorem push (fits : subst.Fits shape) {cell : Cell} (isNew : cell.IsNew) :
    (subst.push cell).2.Fits (shape.withCells (shape.cells + 1)) where
  size := by rw [size_push, fits.size]; rfl
  cell v := by
    rw [cell_push]
    split
    · exact isNew.fits
    · exact (fits.cell v).grow (Shape.le_withCells (Nat.le_succ _))

theorem pushMany (fits : subst.Fits shape) {cell : Cell} (isNew : cell.IsNew) (count : Nat) :
    ∃ larger, shape ≤ larger ∧ larger.arity? = shape.arity? ∧
    (subst.pushMany cell count).2.Fits larger ∧ (subst.pushMany cell count).1.length = count ∧
      ∀ v ∈ (subst.pushMany cell count).1, v.index < larger.cells := by
  induction count generalizing subst shape with
  | zero => exact ⟨shape, le_rfl, rfl, fits, rfl, List.forall_mem_nil _⟩
  | succ count ih =>
    obtain ⟨larger, grown, same, there, length, each⟩ := ih (fits.push isNew)
    refine ⟨larger, (Shape.le_withCells (Nat.le_succ _)).trans grown, same, there,
      congrArg Nat.succ length, ?_⟩
    refine List.forall_mem_cons.mpr ⟨Nat.lt_of_lt_of_le ?_ grown.1, each⟩
    exact Nat.lt_succ_of_le (Nat.le_of_eq fits.size)

theorem write (fits : subst.Fits shape) (v : TyVar) {cell : Cell} (known : cell.Fits shape) :
    (subst.write v cell).Fits shape where
  size := by rw [size_write, fits.size]
  cell w := by
    rcases subst.cell_write_cases v w cell with kept | ⟨-, written⟩
    · rw [kept]
      exact fits.cell w
    · rwa [written]

end Fits

structure FitsAmong (arity? : TemplateId → Option Nat) (shape : Shape) (subst : Subst) : Prop
    extends subst.Fits shape where
  same : shape.arity? = arity?

end Subst

namespace Unify

variable {arity? : TemplateId → Option Nat} {subst : Subst} {depth : Nat}

def FitBoth (shape : Shape) (pair : Ty × Ty) : Prop := pair.1.Fits shape ∧ pair.2.Fits shape

theorem lasts_fitBoth : Lasts FitBoth := fun grown fits => ⟨fits.1.grow grown, fits.2.grow grown⟩

theorem fitBoth_zip {types types' : List Ty} (each : ∀ t ∈ types, t.Fits shape)
    (each' : ∀ t ∈ types', t.Fits shape) : ∀ pair ∈ types.zip types', FitBoth shape pair :=
  fun _ member => ⟨each _ (List.of_mem_zip member).1, each' _ (List.of_mem_zip member).2⟩

theorem stays_finished {α β : Type} {post : Shape → β → Prop} {found : Option α}
    {next : α → Unify β}
    (then_ : ∀ value, found = some value → Stays (Subst.FitsAmong arity?) shape post (next value)) :
    Stays (Subst.FitsAmong arity?) shape post (finished found >>= next) := by
  cases found with
  | none => exact fun _ kept _ => ⟨shape, le_rfl, kept⟩
  | some value => exact then_ value rfl

theorem stays_vars {x y : TyVar} (inside : x.index < shape.cells)
    (inside' : y.index < shape.cells) : Stays (Subst.FitsAmong arity?) shape unsaid (vars x y) := by
  refine .get fun subst here => ?_
  split
  · exact .pure trivial
  · split
    · exact .set le_rfl ⟨here.write x (.link inside'), here.same⟩
    · split
      · exact .set le_rfl ⟨here.write y (.link inside), here.same⟩
      · exact .throw _

theorem stays_varWith (depth : Nat) (x : TyVar) {ty : Ty} (fits : ty.Fits shape) :
    Stays (Subst.FitsAmong arity?) shape unsaid (varWith depth x ty) := by
  refine .get fun subst here => ?_
  split
  · exact .throw _
  · refine stays_finished fun occurs _ => ?_
    split
    · exact .throw _
    · exact .set le_rfl ⟨here.write x (.bound fits), here.same⟩

theorem stays_skolems (count : Nat) :
    Stays (Subst.FitsAmong arity?) shape
      (fun later vars => vars.length = count ∧ ∀ v ∈ vars, v.index < later.cells) (skolems count) :=
  .modifyGet fun here => by
    obtain ⟨larger, grown, same, there, fresh⟩ := here.pushMany (Cell.isNew_rigid none) count
    exact ⟨larger, grown, ⟨there, same.trans here.same⟩, fresh⟩

theorem components?_fits {parts : List Ty} {build : List Ty → Ty} (fits : ty.Fits shape)
    (known : components? ty = some (parts, build)) :
    (∀ t ∈ parts, t.Fits shape) ∧ ∀ {larger}, shape ≤ larger → ∀ others : List Ty,
      others.length = parts.length → (∀ t ∈ others, t.Fits larger) →
      (build others).Fits larger := by
  cases fits with
  | nominal arity each =>
    obtain ⟨rfl, rfl⟩ := Prod.mk.inj (Option.some.inj known)
    exact ⟨each, fun grown others length => .nominal (length ▸ grown.2 _ _ arity)⟩
  | tuple each =>
    obtain ⟨rfl, rfl⟩ := Prod.mk.inj (Option.some.inj known)
    exact ⟨each, fun _ others _ => .tuple⟩
  | arrow fst snd =>
    obtain ⟨rfl, rfl⟩ := Prod.mk.inj (Option.some.inj known)
    refine ⟨List.forall_mem_cons.mpr ⟨fst, List.forall_mem_singleton.mpr snd⟩,
      fun _ others length each => ?_⟩
    obtain ⟨p, r, rfl⟩ := List.length_eq_two.mp length
    exact .arrow (each p (by simp)) (each r (by simp))
  | var _ | quantified _ _ | app _ _ => cases known

theorem stays_etaExpand? (fits : ty.Fits shape) (count : Nat) :
    Stays (Subst.FitsAmong arity?) shape
      (fun later found => ∀ expanded ∈ found, expanded.1.Fits later ∧ ∀ t ∈ expanded.2,
        t.Fits later)
      (etaExpand? ty count) := by
  unfold etaExpand?
  cases known : components? ty with
  | none => exact .pure nofun
  | some found =>
    obtain ⟨parts, build⟩ := found
    dsimp only
    split
    · exact .pure nofun
    · rename_i fewer
      refine (stays_skolems count).bind fun {later params} grown fresh => .pure ?_
      obtain ⟨length, each⟩ := fresh
      obtain ⟨fitParts, rebuilt⟩ := components?_fits fits known
      rintro _ ⟨⟩
      refine ⟨.quantified each
        (rebuilt grown _ ?_ (List.forall_mem_append.mpr ⟨fun t member => ?_, ?_⟩)),
        fun t member => (fitParts t (List.mem_of_mem_drop member)).grow grown⟩
      · rw [List.length_append, List.length_take, List.length_map, length]
        omega
      · exact (fitParts t (List.mem_of_mem_take member)).grow grown
      · exact List.forall_mem_map.mpr fun v member => .var (each v member)

theorem splitApps_fits {h k : Ty} {as bs : List Ty} (fst : h.Fits shape)
    (each : ∀ t ∈ as, t.Fits shape) (fst' : k.Fits shape) (each' : ∀ t ∈ bs, t.Fits shape) :
    ((splitApps h as k bs).1.1.Fits shape ∧ ∀ t ∈ (splitApps h as k bs).1.2, t.Fits shape) ∧
      (splitApps h as k bs).2.1.Fits shape ∧ ∀ t ∈ (splitApps h as k bs).2.2, t.Fits shape := by
  rw [splitApps_eq]
  exact ⟨putBack_each fst each fun _ => .app fst, putBack_each fst' each' fun _ => .app fst'⟩

theorem stays_step (depth : Nat) {pair : Ty × Ty} (fits : FitBoth shape pair) :
    Stays (Subst.FitsAmong arity?) shape (fun later below => ∀ other ∈ below, FitBoth later other)
      (step depth pair) := by
  unfold step
  refine .get fun subst here => stays_finished fun left shallow => stays_finished fun right
    shallow' => ?_
  have left := here.shallowWithin fits.1 shallow
  have right := here.shallowWithin fits.2 shallow'
  split
  · exact (stays_vars left.index_lt right.index_lt).bind fun _ _ => .pure (List.forall_mem_nil _)
  · exact (stays_varWith _ _ right).bind fun _ _ => .pure (List.forall_mem_nil _)
  · exact (stays_varWith _ _ left).bind fun _ _ => .pure (List.forall_mem_nil _)
  · obtain ⟨fst, snd⟩ := List.forall_mem_cons.mp left.children
    obtain ⟨fst', snd'⟩ := List.forall_mem_cons.mp right.children
    refine .pure (List.forall_mem_cons.mpr ⟨⟨fst, fst'⟩, List.forall_mem_singleton.mpr ?_⟩)
    exact ⟨snd _ (List.mem_singleton_self _), snd' _ (List.mem_singleton_self _)⟩
  · split
    · exact .pure (fitBoth_zip left.children right.children)
    · exact .throw _
  · split
    · exact .pure (fitBoth_zip left.children right.children)
    · exact .throw _
  · split
    · refine (stays_skolems _).bind fun {later rigid} grown fresh => .get fun subst here => ?_
      refine stays_finished fun body zonk => stays_finished fun body' zonk' => .pure ?_
      have skolems : ∀ t ∈ rigid.map Ty.var, t.Fits later :=
        List.forall_mem_map.mpr fun v member => .var (fresh.2 v member)
      refine List.forall_mem_singleton.mpr ⟨Ty.Fits.substitute_ofLists ?_ skolems,
        Ty.Fits.substitute_ofLists ?_ skolems⟩
      · exact here.zonkWithin (left.quantified_inv.2.grow grown) zonk
      · exact here.zonkWithin (right.quantified_inv.2.grow grown) zonk'
    · exact .throw _
  · obtain ⟨fst, each⟩ := left.app_inv
    obtain ⟨fst', each'⟩ := right.app_inv
    obtain ⟨lefts, rights⟩ := splitApps_fits fst each fst' each'
    exact .pure (List.forall_mem_cons.mpr ⟨⟨lefts.1, rights.1⟩, fitBoth_zip lefts.2 rights.2⟩)
  · obtain ⟨fst, each⟩ := left.app_inv
    refine (stays_etaExpand? right _).bind fun {later found} grown expanded => ?_
    cases found with
    | none => exact .throw _
    | some expansion =>
      obtain ⟨function, parts⟩ := expanded expansion rfl
      refine .pure
        (List.forall_mem_cons.mpr ⟨⟨fst.grow grown, function⟩,
          fitBoth_zip (fun t member => ?_) parts⟩)
      exact (each t member).grow grown
  · obtain ⟨fst, each⟩ := right.app_inv
    refine (stays_etaExpand? left _).bind fun {later found} grown expanded => ?_
    cases found with
    | none => exact .throw _
    | some expansion =>
      obtain ⟨function, parts⟩ := expanded expansion rfl
      refine .pure
        (List.forall_mem_cons.mpr ⟨⟨function, fst.grow grown⟩,
          fitBoth_zip parts fun t member => ?_⟩)
      exact (each t member).grow grown
  · exact .throw _

end Unify

theorem Subst.stays_unify {arity? : TemplateId → Option Nat} {left right : Ty}
    (fits : left.Fits shape) (fits' : right.Fits shape) :
    Stays (Subst.FitsAmong arity?) shape unsaid (Subst.unify left right) :=
  .get fun _ _ => .walk (Unify.lasts_fitBoth : Lasts Unify.FitBoth) (.throw _)
    (fun depth _ => Unify.stays_step depth) (List.forall_mem_singleton.mpr ⟨fits, fits'⟩)

end PolyCheck
