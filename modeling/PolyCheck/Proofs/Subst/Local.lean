import PolyCheck.Proofs.Reaches
import PolyCheck.Proofs.Subst.Confined
import PolyCheck.Proofs.Subst.Moves

/-! What unification leaves alone. A world says which variables are in play and which are parameters
of quantifiers; types in play are made of the former. Unifying two types in play solves variables in
play only, and all that comes up on the way is in play again: skolems come into play, and the
parameters of an abstracted type are new parameters. So the cells that were there at the beginning
and are not in play stay as they are. -/
namespace PolyCheck

/-- Variables in play, and variables that only quantifiers bind. -/
@[ext] structure World where
  own : TyVar → Prop
  binder : TyVar → Prop

namespace World

instance : Preorder World where
  le first second := (∀ v, first.own v → second.own v) ∧ ∀ v, first.binder v → second.binder v
  le_refl _ := ⟨fun _ => id, fun _ => id⟩
  le_trans _ _ _ first second :=
    ⟨fun v holds => second.1 v (first.1 v holds), fun v holds => second.2 v (first.2 v holds)⟩

def Owns (world : World) (ty : Ty) : Prop := ty.Confined world.binder world.own

theorem Owns.later {world later : World} {ty : Ty} (owns : world.Owns ty) (grown : world ≤ later) :
    later.Owns ty :=
  owns.mono grown.2 grown.1

def withOwn (world : World) (v : TyVar) : World :=
  { world with own := fun w => world.own w ∨ w = v }

def withBinder (world : World) (v : TyVar) : World :=
  { world with binder := fun w => world.binder w ∨ w = v }

theorem le_withOwn (world : World) (v : TyVar) : world ≤ world.withOwn v :=
  ⟨fun _ => .inl, fun _ => id⟩

theorem le_withBinder (world : World) (v : TyVar) : world ≤ world.withBinder v :=
  ⟨fun _ => id, fun _ => .inl⟩

end World

open Run

namespace Subst

/-- Cells in which what is in play stays in play, grown from cells that are not in play. -/
structure Local (base : Subst) (world : World) (subst : Subst) : Prop where
  confines : subst.Confines world.binder world.own
  ends : subst.LinksEnd
  size_le : base.size ≤ subst.size
  cells : ∀ {v : TyVar}, v.index < base.size → subst.cell v = base.cell v
  inPlay : ∀ {v : TyVar}, world.own v → base.size ≤ v.index ∧ v.index < subst.size
  bound : ∀ {v : TyVar}, world.binder v → v.index < subst.size ∧ ¬ world.own v
  rigid : ∀ {v : TyVar}, world.binder v → ∃ name, subst.cell v = .rigid name

variable {base subst : Subst} {world : World} {ty : Ty} {depth : Nat}

namespace Local

theorem cell_push_of_inside {v : TyVar} (inside : v.index < subst.size) (cell : Cell) :
    (subst.push cell).2.cell v = subst.cell v := by
  rw [cell_push, if_neg (Nat.ne_of_lt inside)]

theorem cell_push_new (subst : Subst) (cell : Cell) :
    (subst.push cell).2.cell ⟨subst.size⟩ = cell := by
  rw [cell_push, if_pos rfl]

theorem push_own (here : base.Local world subst) {cell : Cell} (isNew : cell.IsNew) :
    base.Local (world.withOwn ⟨subst.size⟩) (subst.push cell).2 where
  confines := by
    refine ⟨fun {v w} shown linked => ?_, fun {v ty} shown solved => ?_, fun {v} holds => ?_⟩
    · rcases shown with holds | rfl
      · rw [cell_push_of_inside (here.inPlay holds).2] at linked
        exact .inl (here.confines.linked holds linked)
      · rw [cell_push_new] at linked
        rw [linked] at isNew
        exact isNew.elim
    · rcases shown with holds | rfl
      · rw [cell_push_of_inside (here.inPlay holds).2] at solved
        exact (here.confines.solved holds solved).imp fun _ => .inl
      · rw [cell_push_new] at solved
        rw [solved] at isNew
        exact isNew.elim
    · rw [cell_push_of_inside (here.bound holds).1]
      exact here.confines.binders holds
  ends := here.ends.push isNew
  size_le := Nat.le_trans here.size_le (by simp)
  cells inside := by
    rw [cell_push_of_inside (Nat.lt_of_lt_of_le inside here.size_le), here.cells inside]
  inPlay {v} shown := by
    rw [size_push]
    rcases shown with holds | rfl
    · exact ⟨(here.inPlay holds).1, Nat.lt_succ_of_lt (here.inPlay holds).2⟩
    · exact ⟨here.size_le, Nat.lt_succ_self _⟩
  bound {v} holds := by
    rw [size_push]
    refine ⟨Nat.lt_succ_of_lt (here.bound holds).1, fun shown => ?_⟩
    rcases shown with own | rfl
    · exact (here.bound holds).2 own
    · exact Nat.lt_irrefl _ (here.bound holds).1
  rigid holds := by
    rw [cell_push_of_inside (here.bound holds).1]
    exact here.rigid holds

theorem push_binder (here : base.Local world subst) (name : Option Name) :
    base.Local (world.withBinder ⟨subst.size⟩) (subst.push (.rigid name)).2 where
  confines := by
    refine ⟨fun {v w} holds linked => ?_, fun {v ty} holds solved => ?_, fun {v} shown => ?_⟩
    · rw [cell_push_of_inside (here.inPlay holds).2] at linked
      exact here.confines.linked holds linked
    · rw [cell_push_of_inside (here.inPlay holds).2] at solved
      exact (here.confines.solved holds solved).mono (fun _ => .inl) fun _ => id
    · rcases shown with holds | rfl
      · rw [cell_push_of_inside (here.bound holds).1]
        exact here.confines.binders holds
      · rw [cell_push_new]
        exact Cell.isNew_rigid name
  ends := here.ends.push (Cell.isNew_rigid name)
  size_le := Nat.le_trans here.size_le (by simp)
  cells inside := by
    rw [cell_push_of_inside (Nat.lt_of_lt_of_le inside here.size_le), here.cells inside]
  inPlay holds := by
    rw [size_push]
    exact ⟨(here.inPlay holds).1, Nat.lt_succ_of_lt (here.inPlay holds).2⟩
  bound {v} shown := by
    rw [size_push]
    rcases shown with holds | rfl
    · exact ⟨Nat.lt_succ_of_lt (here.bound holds).1, (here.bound holds).2⟩
    · exact ⟨Nat.lt_succ_self _, fun own => Nat.lt_irrefl _ (here.inPlay own).2⟩
  rigid {v} shown := by
    rcases shown with holds | rfl
    · rw [cell_push_of_inside (here.bound holds).1]
      exact here.rigid holds
    · exact ⟨name, cell_push_new subst _⟩

theorem write (here : base.Local world subst) {x : TyVar} {cell : Cell} (own : world.own x)
    (linked : ∀ {w}, cell = .link w → world.own w)
    (solved : ∀ {ty}, cell = .bound ty → world.Owns ty)
    (ends : (subst.write x cell).LinksEnd) : base.Local world (subst.write x cell) where
  confines := by
    refine ⟨fun {v w} holds link => ?_, fun {v ty} holds bind => ?_, fun {v} holds => ?_⟩
    · rcases subst.cell_write_cases x v cell with kept | ⟨-, written⟩
      · exact here.confines.linked holds (kept ▸ link)
      · exact linked (written.symm.trans link)
    · rcases subst.cell_write_cases x v cell with kept | ⟨-, written⟩
      · exact here.confines.solved holds (kept ▸ bind)
      · exact solved (written.symm.trans bind)
    · have different : v ≠ x := by
        rintro rfl
        exact (here.bound holds).2 own
      rw [cell_write_of_ne different]
      exact here.confines.binders holds
  ends := ends
  size_le := by simpa using here.size_le
  cells {v} inside := by
    have different : v ≠ x := by
      rintro rfl
      exact Nat.not_lt_of_ge (here.inPlay own).1 inside
    rw [cell_write_of_ne different, here.cells inside]
  inPlay holds := by simpa using here.inPlay holds
  bound holds := by simpa using here.bound holds
  rigid {v} holds := by
    have different : v ≠ x := by
      rintro rfl
      exact (here.bound holds).2 own
    rw [cell_write_of_ne different]
    exact here.rigid holds

theorem pushMany_own (here : base.Local world subst) {cell : Cell} (isNew : cell.IsNew)
    (count : Nat) : ∃ later, world ≤ later ∧ base.Local later (subst.pushMany cell count).2 ∧
      (subst.pushMany cell count).1.length = count ∧
      ∀ v ∈ (subst.pushMany cell count).1, later.own v := by
  induction count generalizing subst world with
  | zero => exact ⟨world, le_rfl, here, rfl, nofun⟩
  | succ count ih =>
    obtain ⟨later, grown, there, length, each⟩ := ih (here.push_own isNew)
    refine ⟨later, (world.le_withOwn _).trans grown, there, congrArg Nat.succ length, ?_⟩
    exact List.forall_mem_cons.mpr ⟨grown.1 _ (.inr rfl), each⟩

theorem pushMany_binder (here : base.Local world subst) (name : Option Name) (count : Nat) :
    ∃ later, world ≤ later ∧ base.Local later (subst.pushMany (.rigid name) count).2 ∧
      ∀ v ∈ (subst.pushMany (.rigid name) count).1, later.binder v := by
  induction count generalizing subst world with
  | zero => exact ⟨world, le_rfl, here, nofun⟩
  | succ count ih =>
    obtain ⟨later, grown, there, each⟩ := ih (here.push_binder name)
    refine ⟨later, (world.le_withBinder _).trans grown, there, ?_⟩
    exact List.forall_mem_cons.mpr ⟨grown.2 _ (.inr rfl), each⟩

end Local

end Subst

namespace Unify

open Subst

variable {base subst after : Subst} {world : World}

def InPlay (world : World) (pair : Ty × Ty) : Prop := world.Owns pair.1 ∧ world.Owns pair.2

theorem lasts_inPlay : Lasts InPlay := fun grown holds => ⟨holds.1.later grown, holds.2.later grown⟩

theorem inPlay_zip {types types' : List Ty} (each : ∀ t ∈ types, world.Owns t)
    (each' : ∀ t ∈ types', world.Owns t) : ∀ pair ∈ types.zip types', InPlay world pair :=
  fun _ member => ⟨each _ (List.of_mem_zip member).1, each' _ (List.of_mem_zip member).2⟩

theorem components?_confined {binder free free' : TyVar → Prop} {ty : Ty} {parts : List Ty}
    {build : List Ty → Ty} (confined : ty.Confined binder free) (wider : ∀ v, free v → free' v)
    (known : components? ty = some (parts, build)) :
    (∀ t ∈ parts, t.Confined binder free) ∧
      ∀ others : List Ty, (∀ t ∈ others, t.Confined binder free') →
      (build others).Confined binder free' := by
  cases confined with
  | nominal each =>
    obtain ⟨rfl, rfl⟩ := Prod.mk.inj (Option.some.inj known)
    exact ⟨each, fun others => .nominal⟩
  | tuple each =>
    obtain ⟨rfl, rfl⟩ := Prod.mk.inj (Option.some.inj known)
    exact ⟨each, fun others => .tuple⟩
  | arrow fst snd =>
    obtain ⟨rfl, rfl⟩ := Prod.mk.inj (Option.some.inj known)
    refine ⟨by simp [fst, snd], fun others each => ?_⟩
    rcases others with _ | ⟨p, _ | ⟨r, _ | ⟨other, rest⟩⟩⟩
    · exact .arrow (fst.imp wider) (snd.imp wider)
    · exact .arrow (fst.imp wider) (snd.imp wider)
    · exact .arrow (each p (by simp)) (each r (by simp))
    · exact .arrow (fst.imp wider) (snd.imp wider)
  | var _ | quantified _ _ | app _ _ => cases known

theorem local_abstracts (here : base.Local world subst) {ty function : Ty} {count : Nat}
    {parts : List Ty} (owns : world.Owns ty)
    (shape : Abstracts subst ty count function parts after) :
    ∃ later, world ≤ later ∧ base.Local later after ∧ later.Owns function ∧
      ∀ t ∈ parts, later.Owns t := by
  obtain ⟨components, build, known, -, rfl, rfl, rfl⟩ := shape.shape
  obtain ⟨later, grown, there, params⟩ := here.pushMany_binder none count
  have owns' := owns.later grown
  obtain ⟨each, rebuilt⟩ := components?_confined owns' (fun v => Or.inl) known
  refine ⟨later, grown, there, .quantified params (rebuilt _ fun t member => ?_),
    fun t member => each t (List.mem_of_mem_drop member)⟩
  rcases List.mem_append.mp member with inside | inside
  · exact (each t (List.mem_of_mem_take inside)).imp fun _ => .inl
  · obtain ⟨param, isParam, rfl⟩ := List.mem_map.mp inside
    exact .var (.inr isParam)

theorem owns_splitApps {h k : Ty} {as bs : List Ty} (fst : world.Owns h)
    (each : ∀ t ∈ as, world.Owns t) (fst' : world.Owns k) (each' : ∀ t ∈ bs, world.Owns t) :
    InPlay world ((splitApps h as k bs).1.1, (splitApps h as k bs).2.1) ∧
      (∀ t ∈ (splitApps h as k bs).1.2, world.Owns t) ∧
      ∀ t ∈ (splitApps h as k bs).2.2, world.Owns t := by
  rw [splitApps_eq]
  obtain ⟨left, lefts⟩ := putBack_each fst each fun _ => .app fst
  obtain ⟨right, rights⟩ := putBack_each fst' each' fun _ => .app fst'
  exact ⟨⟨left, right⟩, lefts, rights⟩

theorem local_moves (here : base.Local world subst) {depth : Nat} {left right : Ty}
    {below : List (Ty × Ty)} (owns : world.Owns left) (owns' : world.Owns right)
    (roots : ∀ x, left = .var x → subst.root x = x)
    (roots' : ∀ x, right = .var x → subst.root x = x)
    (moves : Moves depth subst left right below after) :
    ∃ later, world ≤ later ∧ base.Local later after ∧ ∀ pair ∈ below, InPlay later pair := by
  have own : ∀ {x : TyVar}, world.Owns (.var x) → world.own x := fun holds => by
    cases holds with
    | var own => exact own
  have bound : ∀ {x : TyVar} {ty : Ty}, world.Owns (.var x) → world.Owns ty →
      base.Local world (subst.bind x ty) := fun ownX solution =>
    here.write (own ownX) nofun (by rintro ty ⟨⟩; exact solution) (here.ends.bind _ _)
  cases moves with
  | same x => exact ⟨world, le_rfl, here, nofun⟩
  | @link x y different _ =>
    refine ⟨world, le_rfl, here.write (own owns) ?_ nofun ?_, nofun⟩
    · rintro w ⟨⟩
      exact own owns'
    · exact here.ends.link (roots x rfl) (roots' y rfl) different
  | @linkBack x y different _ _ =>
    refine ⟨world, le_rfl, here.write (own owns') ?_ nofun ?_, nofun⟩
    · rintro w ⟨⟩
      exact own owns
    · exact here.ends.link (roots' y rfl) (roots x rfl) different.symm
  | bind _ _ _ => exact ⟨world, le_rfl, bound owns owns', nofun⟩
  | bindBack _ _ _ => exact ⟨world, le_rfl, bound owns' owns, nofun⟩
  | arrow p r q s =>
    obtain ⟨fst, snd⟩ := owns.arrow_inv
    obtain ⟨fst', snd'⟩ := owns'.arrow_inv
    exact ⟨world, le_rfl, here, by simp [InPlay, fst, snd, fst', snd', World.Owns]⟩
  | tuple _ => exact ⟨world, le_rfl, here, inPlay_zip owns.tuple_inv owns'.tuple_inv⟩
  | nominal _ => exact ⟨world, le_rfl, here, inPlay_zip owns.nominal_inv owns'.nominal_inv⟩
  | @quantified ps qs b c b' c' skolems after length opened zonk zonk' =>
    obtain ⟨later, grown, there, count, each⟩ := here.pushMany_own (Cell.isNew_rigid none) ps.length
    rw [opened] at there count each
    have resolved : ∀ {params : List TyVar} {body body' : Ty}, params.length = ps.length →
        world.Owns (.quantified params body) → after.zonkWithin depth body = some body' →
        later.Owns (body'.substitute (.ofLists params (skolems.map .var))) := by
      intro params body body' lengths shown found
      obtain ⟨binders, inside⟩ := Ty.Confined.quantified_inv (World.Owns.later shown grown)
      have confines :=
        there.confines.extend fun v member => there.confines.binders (binders v member)
      refine Ty.Confined.instantiate (confines.zonkWithin inside found) ?_ ?_
      · rw [List.length_map, count, lengths]
      · exact List.forall_mem_map.mpr fun v member => .var (each v member)
    refine ⟨later, grown, there, List.forall_mem_singleton.mpr ⟨?_, ?_⟩⟩
    · exact resolved rfl owns zonk
    · exact resolved length.symm owns' zonk'
  | app h as k bs =>
    obtain ⟨fst, each⟩ := owns.app_inv
    obtain ⟨fst', each'⟩ := owns'.app_inv
    obtain ⟨heads, lefts, rights⟩ := owns_splitApps fst each fst' each'
    exact ⟨world, le_rfl, here, List.forall_mem_cons.mpr ⟨heads, inPlay_zip lefts rights⟩⟩
  | abstract shape =>
    obtain ⟨later, grown, there, function, parts⟩ := local_abstracts here owns' shape
    obtain ⟨fst, each⟩ := (owns.later grown).app_inv
    exact ⟨later, grown, there, List.forall_mem_cons.mpr ⟨⟨fst, function⟩, inPlay_zip each parts⟩⟩
  | abstractBack shape =>
    obtain ⟨later, grown, there, function, parts⟩ := local_abstracts here owns shape
    obtain ⟨fst, each⟩ := (owns'.later grown).app_inv
    exact ⟨later, grown, there, List.forall_mem_cons.mpr ⟨⟨function, fst⟩, inPlay_zip parts each⟩⟩

theorem reaches_step (depth : Nat) {pair : Ty × Ty} (inPlay : InPlay world pair) :
    Reaches base.Local world (fun later below => ∀ other ∈ below, InPlay later other)
      (step depth pair) := by
  refine reaches_of_ok fun subst after below here run => ?_
  obtain ⟨left, right, shallow, shallow', moves⟩ := step_eq_ok run
  refine local_moves here (here.confines.shallowWithin inPlay.1 shallow)
    (here.confines.shallowWithin inPlay.2 shallow') ?_ ?_ moves
  · rintro x rfl
    exact (here.ends.shallowWithin_var shallow).1
  · rintro x rfl
    exact (here.ends.shallowWithin_var shallow').1

end Unify

theorem Subst.reaches_unify {base : Subst} {world : World} {left right : Ty}
    (owns : world.Owns left)
    (owns' : world.Owns right) : Reaches base.Local world unsaid (Subst.unify left right) :=
  .get fun _ _ => .walk (Unify.lasts_inPlay : Lasts Unify.InPlay) (.throw _)
    (fun depth _ => Unify.reaches_step depth) (List.forall_mem_singleton.mpr ⟨owns, owns'⟩)

end PolyCheck
