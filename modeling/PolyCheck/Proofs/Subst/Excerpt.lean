import PolyCheck.Proofs.Subst.Equalizing

/-! Cells seen in part. Where links and solutions do not lead out of a set of variables, walks among
types of the set look at its cells only, and so does unification. What is sound on cells that agree
with them in the set, say without solutions elsewhere that are no sections, is therefore sound on
the cells themselves. -/
namespace PolyCheck

open Run Ty

/-- The type mentions variables of the set only, and its quantifiers bind no others. -/
abbrev Ty.Among (seen : TyVar → Prop) (ty : Ty) : Prop := ty.Confined seen seen

variable {seen : TyVar → Prop} {part part' subst after : Subst} {ty left right head function : Ty}
  {types args : List Ty} {depth : Nat} {v x y : TyVar}

theorem Ty.Among.quantified_inv {params : List TyVar} {body : Ty}
    (among : (Ty.quantified params body).Among seen) :
    (∀ p ∈ params, seen p) ∧ body.Among seen := by
  obtain ⟨binders, inside⟩ := Confined.quantified_inv among
  exact ⟨binders, inside.imp fun v shown => shown.elim id (binders v)⟩

theorem Ty.Among.children (among : ty.Among seen) : ∀ t ∈ ty.children, t.Among seen := by
  cases among with
  | var _ => exact nofun
  | arrow fst snd => exact List.forall_mem_cons.mpr ⟨fst, List.forall_mem_singleton.mpr snd⟩
  | tuple each | nominal each => exact each
  | quantified binders inside =>
    exact List.forall_mem_singleton.mpr (Ty.Among.quantified_inv (.quantified binders inside)).2
  | app fst each => exact List.forall_mem_cons.mpr ⟨fst, each⟩

theorem Ty.Among.vars {vars : List TyVar} (each : ∀ v ∈ vars, seen v) : ∀ t ∈ vars.map Ty.var,
    t.Among seen :=
  List.forall_mem_map.mpr fun v member => .var (each v member)

/-- The part has the same variables, and the same cells in a set that links and solutions do not
lead out of. -/
structure Subst.Excerpt (seen : TyVar → Prop) (part subst : Subst) : Prop where
  size : part.size = subst.size
  cells : ∀ {v : TyVar}, seen v → part.cell v = subst.cell v
  linked : ∀ {v w : TyVar}, seen v → subst.cell v = .link w → seen w
  solved : ∀ {v : TyVar} {ty : Ty}, seen v → subst.cell v = .bound ty → ty.Among seen
  new : ∀ {v : TyVar}, subst.size ≤ v.index → seen v

namespace Subst.Excerpt

section Walks

variable (excerpt : part.Excerpt seen subst)
include excerpt

theorem root (shown : seen v) : part.root v = subst.root v ∧ seen (subst.root v) := by
  have within : ∀ steps v, seen v → part.rootWithin steps v = subst.rootWithin steps v := by
    intro steps
    induction steps with
    | zero => exact fun _ _ => rfl
    | succ steps ih =>
      intro v shown
      rw [rootWithin, rootWithin, excerpt.cells shown]
      split
      · rename_i w cell
        exact ih w (excerpt.linked shown cell)
      · rfl
  refine ⟨?_, root_mem (fun _ _ => excerpt.linked) shown⟩
  rw [Subst.root, Subst.root, excerpt.size]
  exact within _ v shown

theorem rootCell (shown : seen v) : part.rootCell v = subst.rootCell v := by
  obtain ⟨same, shown'⟩ := excerpt.root shown
  rw [Subst.rootCell, Subst.rootCell, same, excerpt.cells shown']

theorem isRigid (shown : seen v) : part.isRigid v = subst.isRigid v := by
  rw [Subst.isRigid, Subst.isRigid, excerpt.rootCell shown]

theorem shallowWithin (depth : Nat) (among : ty.Among seen) :
    part.shallowWithin depth ty = subst.shallowWithin depth ty ∧
      ∀ head, subst.shallowWithin depth ty = some head → head.Among seen := by
  induction depth generalizing ty with
  | zero => exact ⟨rfl, fun _ found => absurd found.symm (Option.some_ne_none _)⟩
  | succ depth ih =>
    cases among with
    | @var _ v shown =>
      obtain ⟨same, shown'⟩ := excerpt.root shown
      rw [Subst.shallowWithin, Subst.shallowWithin, excerpt.rootCell shown, same]
      split
      · rename_i solved cell
        exact ih (excerpt.solved shown' cell)
      · refine ⟨rfl, ?_⟩
        rintro _ ⟨⟩
        exact .var shown'
    | app fst each =>
      obtain ⟨same, among⟩ := ih fst
      rw [Subst.shallowWithin, Subst.shallowWithin, same]
      split
      · exact ⟨rfl, fun _ found => absurd found.symm (Option.some_ne_none _)⟩
      · rename_i params body found
        exact ih (Confined.apply (among _ found) each)
      · rename_i core first found
        obtain ⟨fst', firsts⟩ := (among _ found).app_inv
        refine ⟨rfl, ?_⟩
        rintro _ ⟨⟩
        exact .app fst' (List.forall_mem_append.mpr ⟨firsts, each⟩)
      · rename_i found
        refine ⟨rfl, ?_⟩
        rintro _ ⟨⟩
        exact .app (among _ found) each
    | arrow _ _ | tuple _ | nominal _ | quantified _ _ =>
      rename_i among
      refine ⟨rfl, ?_⟩
      rintro _ ⟨⟩
      constructor <;> assumption

omit excerpt in
theorem rebuilt_all {known known' : Ty → Ty → Prop} {results : List Ty}
    (shown : ∀ t r, t.Among seen → known t r → known' t r ∧ r.Among seen)
    (all : List.Forall₂ known types results)
    (each : ∀ t ∈ types, t.Among seen) : List.Forall₂ known' types results ∧ ∀ r ∈ results,
      r.Among seen := by
  induction all with
  | nil => exact ⟨.nil, nofun⟩
  | cons here _ ih =>
    obtain ⟨first, rest⟩ := List.forall_mem_cons.mp each
    obtain ⟨here', among⟩ := shown _ _ first here
    obtain ⟨all', each'⟩ := ih rest
    exact ⟨.cons here' all', List.forall_mem_cons.mpr ⟨among, each'⟩⟩

omit excerpt in
theorem rebuilt_among {known known' : Ty → Ty → Prop} {result : Ty}
    (shown : ∀ t r, t.Among seen → known t r → known' t r ∧ r.Among seen)
    (rebuilt : Rebuilt known head result)
    (among : head.Among seen) : Rebuilt known' head result ∧ result.Among seen := by
  cases rebuilt with
  | var v => exact ⟨.var v, among⟩
  | arrow fst snd =>
    obtain ⟨fst', among₁⟩ := shown _ _ among.arrow_inv.1 fst
    obtain ⟨snd', among₂⟩ := shown _ _ among.arrow_inv.2 snd
    exact ⟨.arrow fst' snd', .arrow among₁ among₂⟩
  | tuple all =>
    obtain ⟨all', each⟩ := rebuilt_all shown all among.tuple_inv
    exact ⟨.tuple all', .tuple each⟩
  | nominal all =>
    obtain ⟨all', each⟩ := rebuilt_all shown all among.nominal_inv
    exact ⟨.nominal all', .nominal each⟩
  | quantified inside =>
    obtain ⟨binders, among⟩ := Ty.Among.quantified_inv among
    obtain ⟨inside', among'⟩ := shown _ _ among inside
    exact ⟨.quantified inside', .quantified binders (among'.imp fun _ => .inl)⟩
  | app fst all =>
    obtain ⟨fst', among'⟩ := shown _ _ among.app_inv.1 fst
    obtain ⟨all', each⟩ := rebuilt_all shown all among.app_inv.2
    exact ⟨.app fst' all', Confined.apply among' each⟩

theorem zonkWithin (depth : Nat) (among : ty.Among seen) :
    part.zonkWithin depth ty = subst.zonkWithin depth ty ∧
    ∀ result, subst.zonkWithin depth ty = some result → result.Among seen := by
  induction depth generalizing ty with
  | zero => exact ⟨rfl, nofun⟩
  | succ depth ih =>
    obtain ⟨same, heads⟩ := excerpt.shallowWithin (depth + 1) among
    have there : ∀ t r, t.Among seen → subst.zonkWithin depth t = some r →
        part.zonkWithin depth t = some r ∧ r.Among seen :=
      fun t r among walk => ⟨(ih among).1.trans walk, (ih among).2 r walk⟩
    have back : ∀ t r, t.Among seen → part.zonkWithin depth t = some r →
        subst.zonkWithin depth t = some r ∧ r.Among seen :=
      fun t r among walk => ⟨(ih among).1 ▸ walk, (ih among).2 r ((ih among).1 ▸ walk)⟩
    refine ⟨Option.ext fun result => ?_, fun result walk => ?_⟩
    · rw [zonkWithin_eq_some_iff, zonkWithin_eq_some_iff, same]
      refine exists_congr fun head => and_congr_right fun shallow =>
        ⟨fun rebuilt => ?_, fun rebuilt => ?_⟩
      · exact (rebuilt_among back rebuilt (heads head shallow)).1
      · exact (rebuilt_among there rebuilt (heads head shallow)).1
    · obtain ⟨head, shallow, rebuilt⟩ := zonkWithin_eq_some_iff.mp walk
      exact (rebuilt_among there rebuilt (heads head shallow)).2

theorem zonks (among : ty.Among seen) {result : Ty} : part.Zonks ty result ↔
    subst.Zonks ty result :=
  exists_congr fun depth => by rw [(excerpt.zonkWithin depth among).1]

omit excerpt in
theorem forM_eq {ε : Type} {visit visit' : Ty → Except ε PUnit}
    (each : ∀ t ∈ types, visit t = visit' t) : forM types visit = forM types visit' := by
  induction types with
  | nil => rfl
  | cons t types ih =>
    obtain ⟨first, rest⟩ := List.forall_mem_cons.mp each
    rw [List.forM_cons, List.forM_cons, first, ih rest]

theorem occursWithin (among : ty.Among seen) :
    part.occursWithin x depth ty = subst.occursWithin x depth ty := by
  have descend : ∀ depth {ty : Ty}, ty.Among seen →
      Agenda.descend (.error .unfinished) (part.seek x) depth ty =
        Agenda.descend (.error .unfinished) (subst.seek x) depth ty := by
    intro depth
    induction depth with
    | zero => exact fun _ => rfl
    | succ depth ih =>
      intro ty among
      obtain ⟨same, heads⟩ := excerpt.shallowWithin (depth + 1) among
      rw [Agenda.descend, Agenda.descend, seek, seek, same]
      cases walk : subst.shallowWithin (depth + 1) ty with
      | none => rfl
      | some head =>
        have below : ∀ t ∈ head.children.reverse, t.Among seen :=
          fun t member => (Ty.Among.children (heads head walk)) t (List.mem_reverse.mp member)
        have rest := forM_eq fun t member => ih (below t member)
        cases head with
        | var v =>
          by_cases found : v = x
          · simp only [if_pos found]
            rfl
          · simp only [if_neg found]
            rfl
        | arrow _ _ | tuple _ | nominal _ _ | quantified _ _ | app _ _ => exact rest
  rw [Subst.occursWithin, Subst.occursWithin, Agenda.walk_singleton, Agenda.walk_singleton,
    descend depth among]

end Walks

section Growth

theorem push (excerpt : part.Excerpt seen subst) {cell : Cell} (isNew : cell.IsNew) :
    (part.push cell).2.Excerpt seen (subst.push cell).2 where
  size := by rw [size_push, size_push, excerpt.size]
  cells {v} shown := by rw [cell_push, cell_push, excerpt.size, excerpt.cells shown]
  linked {v w} shown cell := by
    rcases (lengthened_push subst isNew).cell_cases v with same | ⟨-, isNew⟩
    · exact excerpt.linked shown (same ▸ cell)
    · rw [cell] at isNew
      exact isNew.elim
  solved {v ty} shown cell := by
    rcases (lengthened_push subst isNew).cell_cases v with same | ⟨-, isNew⟩
    · exact excerpt.solved shown (same ▸ cell)
    · rw [cell] at isNew
      exact isNew.elim
  new outside := excerpt.new (Nat.le_trans (by simp) outside)

theorem pushMany (excerpt : part.Excerpt seen subst) {cell : Cell} (isNew : cell.IsNew)
    (count : Nat) : (part.pushMany cell count).2.Excerpt seen (subst.pushMany cell count).2 ∧
      (part.pushMany cell count).1 = (subst.pushMany cell count).1 ∧
        ∀ v ∈ (subst.pushMany cell count).1, seen v := by
  induction count generalizing part subst with
  | zero => exact ⟨excerpt, rfl, nofun⟩
  | succ count ih =>
    obtain ⟨excerpt', vars, each⟩ := ih (excerpt.push isNew)
    have first : (part.push cell).1 = (subst.push cell).1 := congrArg TyVar.mk excerpt.size
    exact ⟨excerpt', List.cons_eq_cons.mpr ⟨first, vars⟩,
      List.forall_mem_cons.mpr ⟨excerpt.new (Nat.le_refl _), each⟩⟩

theorem write (excerpt : part.Excerpt seen subst) {cell : Cell} (shown : seen x)
    (linked : ∀ {w}, cell = .link w → seen w)
    (solved : ∀ {ty}, cell = .bound ty → ty.Among seen) : (part.write x cell).Excerpt seen
    (subst.write x cell) where
  size := by rw [size_write, size_write, excerpt.size]
  cells {v} shown' := by
    by_cases same : v = x
    · subst same
      by_cases inside : v.index < subst.size
      · rw [cell_write_self inside, cell_write_self (excerpt.size ▸ inside)]
      · have outside := Nat.le_of_not_lt inside
        have outside' : (subst.write v cell).size ≤ v.index := by simpa using outside
        rw [cell_of_size_le outside', cell_of_size_le (by simpa [excerpt.size] using outside)]
    · rw [cell_write_of_ne same, cell_write_of_ne same, excerpt.cells shown']
  linked {v w} shown' found := by
    rcases subst.cell_write_cases x v cell with kept | ⟨-, written⟩
    · exact excerpt.linked shown' (kept ▸ found)
    · exact linked (written.symm.trans found)
  solved {v ty} shown' found := by
    rcases subst.cell_write_cases x v cell with kept | ⟨-, written⟩
    · exact excerpt.solved shown' (kept ▸ found)
    · exact solved (written.symm.trans found)
  new outside := excerpt.new (by simpa using outside)

end Growth

section Unification

open Unify

theorem abstracts (excerpt : part.Excerpt seen subst) {count : Nat} {parts : List Ty}
    (among : ty.Among seen) (shape : Abstracts subst ty count function parts after) :
    ∃ after', Abstracts part ty count function parts after' ∧ after'.Excerpt seen after ∧
      function.Among seen ∧ ∀ t ∈ parts, t.Among seen := by
  obtain ⟨positive, components, build, known, fits, rfl, rfl, rfl⟩ := shape
  obtain ⟨excerpt', vars, each⟩ := excerpt.pushMany (Cell.isNew_rigid none) count
  obtain ⟨inside, rebuilt⟩ := components?_confined among (fun _ => Or.inl) known
  refine ⟨_, ⟨positive, components, build, known, fits, rfl, by rw [vars], rfl⟩, excerpt',
    .quantified each (rebuilt _ fun t member => ?_),
    fun t member => inside t (List.mem_of_mem_drop member)⟩
  rcases List.mem_append.mp member with first | last
  · exact (inside t (List.mem_of_mem_take first)).imp fun _ => .inl
  · exact (Ty.Among.vars each t last).imp fun _ => .inl

theorem moves (excerpt : part.Excerpt seen subst) {below : List (Ty × Ty)} (among : left.Among seen)
    (among' : right.Among seen) (moves : Moves depth subst left right below after) :
    ∃ after', Moves depth part left right below after' ∧ after'.Excerpt seen after ∧
      ∀ pair ∈ below, pair.1.Among seen ∧ pair.2.Among seen := by
  have zipped : ∀ {types types' : List Ty}, (∀ t ∈ types, t.Among seen) →
    (∀ t ∈ types', t.Among seen) →
      ∀ pair ∈ types.zip types', pair.1.Among seen ∧ pair.2.Among seen :=
    @inPlay_zip ⟨seen, seen⟩
  have shown : ∀ {x : TyVar}, (Ty.var x).Among seen → seen x := fun among => by
    cases among with
    | var holds => exact holds
  have linked : ∀ {x y : TyVar}, seen x → seen y → (part.link x y).Excerpt seen (subst.link x y) :=
    fun shown shown' => excerpt.write shown (fun same => Cell.link.inj same ▸ shown') nofun
  have bound : ∀ {x : TyVar} {ty : Ty}, seen x → ty.Among seen →
      (part.bind x ty).Excerpt seen (subst.bind x ty) :=
    fun shown among => excerpt.write shown nofun fun same => Cell.bound.inj same ▸ among
  cases moves with
  | same x => exact ⟨part, .same x, excerpt, nofun⟩
  | link different flexible =>
    exact ⟨_, .link different ((excerpt.isRigid (shown among)).trans flexible),
      linked (shown among) (shown among'), nofun⟩
  | linkBack different rigid flexible =>
    exact ⟨_, .linkBack different ((excerpt.isRigid (shown among)).trans rigid)
      ((excerpt.isRigid (shown among')).trans flexible), linked (shown among') (shown among), nofun⟩
  | bind notVar flexible apart =>
    exact ⟨_, .bind notVar ((excerpt.isRigid (shown among)).trans flexible)
      ((excerpt.occursWithin among').trans apart), bound (shown among) among', nofun⟩
  | bindBack notVar flexible apart =>
    exact ⟨_, .bindBack notVar ((excerpt.isRigid (shown among')).trans flexible)
      ((excerpt.occursWithin among).trans apart), bound (shown among') among, nofun⟩
  | arrow p r q s =>
    obtain ⟨fst, snd⟩ := among.arrow_inv
    obtain ⟨fst', snd'⟩ := among'.arrow_inv
    exact ⟨part, .arrow p r q s, excerpt,
      List.forall_mem_cons.mpr ⟨⟨fst, fst'⟩, List.forall_mem_singleton.mpr ⟨snd, snd'⟩⟩⟩
  | tuple length => exact ⟨part, .tuple length, excerpt, zipped among.tuple_inv among'.tuple_inv⟩
  | nominal length =>
    exact ⟨part, .nominal length, excerpt, zipped among.nominal_inv among'.nominal_inv⟩
  | @quantified ps qs b c b' c' skolems _ length opened zonk zonk' =>
    obtain ⟨excerpt', vars, each⟩ := excerpt.pushMany (Cell.isNew_rigid none) ps.length
    rw [opened] at excerpt' vars each
    have resolved : ∀ {params : List TyVar} {body body' : Ty},
      (Ty.quantified params body).Among seen → after.zonkWithin depth body = some body' →
        (part.pushMany (.rigid none) ps.length).2.zonkWithin depth body = some body' ∧
          (body'.substitute (.ofLists params (skolems.map .var))).Among seen := by
      intro params body body' among zonk
      obtain ⟨binders, inside⟩ := Ty.Among.quantified_inv among
      obtain ⟨same, among'⟩ := excerpt'.zonkWithin depth inside
      refine ⟨same.trans zonk, ?_⟩
      refine (Confined.substitute_ofLists ((among' body' zonk).imp fun _ => .inl)
        (Ty.Among.vars each)).imp fun v shown => ?_
      exact shown.elim id fun member => binders v (List.mem_of_mem_drop member)
    obtain ⟨walk, opened'⟩ := resolved among zonk
    obtain ⟨walk', opened''⟩ := resolved among' zonk'
    exact ⟨(part.pushMany (.rigid none) ps.length).2,
      .quantified length (Prod.ext vars rfl) walk walk', excerpt',
      List.forall_mem_singleton.mpr ⟨opened', opened''⟩⟩
  | app h as k bs =>
    obtain ⟨fst, each⟩ := among.app_inv
    obtain ⟨fst', each'⟩ := among'.app_inv
    obtain ⟨heads, lefts, rights⟩ := @owns_splitApps ⟨seen, seen⟩ _ _ _ _ fst each fst' each'
    exact ⟨part, .app h as k bs, excerpt, List.forall_mem_cons.mpr ⟨heads, zipped lefts rights⟩⟩
  | abstract shape =>
    obtain ⟨fst, each⟩ := among.app_inv
    obtain ⟨after', shape', excerpt', function, parts⟩ := excerpt.abstracts among' shape
    exact ⟨after', .abstract shape', excerpt',
      List.forall_mem_cons.mpr ⟨⟨fst, function⟩, zipped each parts⟩⟩
  | abstractBack shape =>
    obtain ⟨fst, each⟩ := among'.app_inv
    obtain ⟨after', shape', excerpt', function, parts⟩ := excerpt.abstracts among shape
    exact ⟨after', .abstractBack shape', excerpt',
      List.forall_mem_cons.mpr ⟨⟨function, fst⟩, zipped parts each⟩⟩

end Unification

end Subst.Excerpt

/-- The types resolve, to types that are equal up to the names of parameters. -/
def Subst.Same (subst : Subst) (left right : Ty) : Prop :=
  ∃ result result', subst.Zonks left result ∧ subst.Zonks right result' ∧ Alike Eq result result'

theorem Subst.Same.symm (same : subst.Same left right) : subst.Same right left := by
  obtain ⟨result, result', zonks, zonks', alike⟩ := same
  exact ⟨result', result, zonks', zonks, alike.swap.mono fun _ _ => Eq.symm⟩

theorem Subst.Same.trans {middle : Ty} (first : subst.Same left middle)
    (second : subst.Same middle right) : subst.Same left right := by
  obtain ⟨result, _, zonks, there, alike⟩ := first
  obtain ⟨_, result', there', zonks', alike'⟩ := second
  obtain rfl := there.unique there'
  exact ⟨result, result', zonks, zonks', alike.eq_trans alike'⟩

namespace Stage

open Subst Unify

variable {stage later final : Stage} {pair : Ty × Ty}

structure Shows (seen : TyVar → Prop) (stage : Stage) (subst : Subst) : Prop where
  sound : stage.Sound
  excerpt : stage.cells.Excerpt seen subst

/-- A type over the set without functions but sections. -/
structure Shown (seen : TyVar → Prop) (stage : Stage) (ty : Ty) : Prop where
  sectional : stage.Sectional ty
  among : ty.Among seen

theorem lasts_shown : Lasts (Shown seen) :=
  fun grown shown => ⟨shown.sectional.grow grown, shown.among⟩

theorem Shows.same (shows : final.Shows seen subst) (shown : final.Shown seen left)
    (shown' : final.Shown seen right)
    (solved : final.Solved (left, right)) : subst.Same left right := by
  obtain ⟨result, zonks⟩ := shows.sound.exists_zonks shown.sectional
  obtain ⟨result', zonks'⟩ := shows.sound.exists_zonks shown'.sectional
  exact ⟨result, result', (shows.excerpt.zonks shown.among).mp zonks,
    (shows.excerpt.zonks shown'.among).mp zonks', solved final le_rfl shows.sound _ _ zonks zonks'⟩

theorem lasts_shown_both : Lasts fun (stage : Stage) (pair : Ty × Ty) => stage.Shown seen pair.1 ∧
    stage.Shown seen pair.2 :=
  fun grown shown => ⟨lasts_shown grown shown.1, lasts_shown grown shown.2⟩

theorem reaches_step (depth : Nat) (shown : stage.Shown seen pair.1 ∧ stage.Shown seen pair.2) :
    Reaches (Shows seen) stage
    (fun later below => (∀ other ∈ below, later.Shown seen other.1 ∧ later.Shown seen other.2) ∧
      ∀ {final}, later ≤ final → (∀ other ∈ below, final.Solved other) → final.Solved pair)
      (step depth pair) := by
  obtain ⟨shown, shown'⟩ := shown
  refine reaches_of_ok fun subst after below ⟨sound, excerpt⟩ run => ?_
  obtain ⟨left, right, shallow, shallow', moves⟩ := step_eq_ok run
  obtain ⟨same, among⟩ := excerpt.shallowWithin depth shown.among
  obtain ⟨same', among'⟩ := excerpt.shallowWithin depth shown'.among
  obtain ⟨part', moves', excerpt', inside⟩ :=
    excerpt.moves (among left shallow) (among' right shallow') moves
  rw [← same] at shallow
  rw [← same'] at shallow'
  have posed : stage.Posed pair := ⟨shown.sectional, shown'.sectional⟩
  obtain ⟨later, grown, rfl, sound', each, conclude⟩ :=
    settles_walk sound posed shallow shallow' moves'
  refine ⟨later, grown, ⟨sound', excerpt'⟩, fun other member => ?_, conclude⟩
  exact ⟨⟨(each other member).1, (inside other member).1⟩, (each other member).2,
    (inside other member).2⟩

theorem reaches_unify (shown : stage.Shown seen left) (shown' : stage.Shown seen right) :
    Reaches (Shows seen) stage (fun later _ => later.Solved (left, right))
    (Subst.unify left right) := by
  have descends : ∀ level {stage : Stage} {pair : Ty × Ty}, stage.Shown seen pair.1 ∧
    stage.Shown seen pair.2 →
      Reaches (Shows seen) stage (fun later _ => later.Solved pair)
        (Agenda.descend (throw .exhausted) step level pair) :=
    Arrives.descend lasts_shown_both lasts_solved (.throw _) fun depth _ => reaches_step depth
  refine .get fun subst _ => ?_
  rw [Unify.within, Agenda.walk_singleton]
  exact descends _ ⟨shown, shown'⟩

end Stage

end PolyCheck
