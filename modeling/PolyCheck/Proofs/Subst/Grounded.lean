import PolyCheck.Proofs.Subst.Fits
import PolyCheck.Proofs.Subst.Zonks
import PolyCheck.Proofs.Ty.FirstOrder

/-! A first-order type without variables, made equal to any other type. Nothing can be put in place
of anything in it, so the other type resolves to it from then on, whatever is solved later; a
variable that stands for a function on types is solved by the constructor, abstracted over its last
components. -/
namespace PolyCheck

open Run

namespace Subst

variable {subst final : Subst} {ty head last function : Ty} {former : Former}
  {kept args first : List Ty} {params : List TyVar} {x : TyVar}

theorem Persists.rootCell_of_bound (persists : subst.Persists final) {v : TyVar} {solution : Ty}
    (cell : subst.cell v = .bound solution) : final.rootCell v = .bound solution := by
  have cell' : final.cell v = .bound solution := by
    rcases persists v with unbound | same
    · simp [cell] at unbound
    · exact same.trans cell
  rw [rootCell, root_of_not_link fun w link => by simp [cell'] at link, cell']

theorem Persists.rootCell_bound (persists : subst.Persists final) (ends : subst.LinksEnd)
    (ends' : final.LinksEnd)
    {v : TyVar} {solution : Ty} (cell : subst.rootCell v = .bound solution) :
      final.rootCell v = .bound solution := by
  have cell' := persists.rootCell_of_bound cell
  rwa [rootCell, ← persists.root ends ends'] at cell'

theorem Heads.later (heads : subst.Heads ty head) (persists : subst.Persists final)
    (ends : subst.LinksEnd)
    (ends' : final.LinksEnd) (plain : ∀ function args, head ≠ .app function args)
    (rest : final.Heads head last) :
    final.Heads ty last := by
  induction heads generalizing last with
  | @unsolved v _ =>
    have root := persists.root ends ends' v
    cases rest with
    | unsolved free =>
      rw [← root]
      exact .unsolved fun solution => by rw [rootCell, root]; exact free solution
    | solved cell rest => exact .solved (by rw [rootCell, root]; exact cell) rest
  | solved cell _ ih => exact .solved (persists.rootCell_bound ends ends' cell) (ih plain rest)
  | arrow | tuple | nominal | quantified => exact rest
  | applied _ _ ihFirst ih =>
    exact .applied (ihFirst (fun _ _ => Ty.noConfusion) .quantified) (ih plain rest)
  | collected | stuck => exact absurd rfl (plain _ _)

section Lambda

variable (takes : former.Takes (kept.length + params.length)) (some : params ≠ [])
  (once : params.Nodup)

include takes once in
theorem Heads.app_lambda (heads : subst.Heads function (former.lambda kept params))
    (spared : Ty.Spared params kept) (fewer : args.length < params.length) :
    subst.Heads (.app function args) (former.lambda (kept ++ args) (params.drop args.length)) := by
  refine .applied heads ?_
  rcases eq_or_ne args [] with rfl | given
  · rw [Ty.apply_nil, List.append_nil]
    exact .quantified
  · change subst.Heads ((former.lambda kept params).apply args) _
    rw [Former.apply_lambda_fewer takes once spared given fewer]
    exact .quantified

include takes some once in
theorem Heads.app_build (heads : subst.Heads function (former.lambda kept params))
    (spared : Ty.Spared params kept)
    (all : args.length = params.length) : subst.Heads (.app function args)
    (former.build (kept ++ args)) := by
  refine .applied heads ?_
  change subst.Heads ((former.lambda kept params).apply args) _
  rw [Former.apply_lambda_enough takes once spared some (Nat.le_of_eq all.symm), ← all,
    List.take_length, List.drop_length, Ty.apply_nil]
  exact heads_of_walk (former.shallowWithin_build subst _ 0)

theorem Heads.section_later (heads : subst.Heads ty (.app (.var x) first))
    (persists : subst.Persists final)
    (ends : subst.LinksEnd) (ends' : final.LinksEnd)
    (solved : final.Heads (.var x) (former.lambda kept params))
    (takes : former.Takes (kept.length + params.length)) (some : params ≠ []) (once : params.Nodup)
    (spared : Ty.Spared params (kept ++ first)) :
    (first.length < params.length →
      final.Heads ty (former.lambda (kept ++ first) (params.drop first.length))) ∧
      (first.length = params.length → final.Heads ty (former.build (kept ++ first)) ∨
        final.Heads ty (.app (former.build (kept ++ first)) [])) := by
  have before : Ty.Spared params kept := fun t member => spared t (List.mem_append_left _ member)
  generalize same : Ty.app (.var x) first = head at heads
  induction heads generalizing first with
  | unsolved | arrow | tuple | nominal | quantified => cases same
  | solved cell _ ih =>
    have cell' := persists.rootCell_bound ends ends' cell
    obtain ⟨partly, whole⟩ := ih spared same
    exact ⟨fun fewer => .solved cell' (partly fewer),
      fun all => (whole all).imp (.solved cell') (.solved cell')⟩
  | applied found _ _ ih =>
    have found' := found.later persists ends ends' nofun .quantified
    obtain ⟨partly, whole⟩ := ih spared same
    exact ⟨fun fewer => .applied found' (partly fewer),
      fun all => (whole all).imp (.applied found') (.applied found')⟩
  | @collected function inner firsts args _ ih =>
    obtain ⟨rfl, rfl⟩ := Ty.app.inj same
    rw [← List.append_assoc] at spared
    have earlier : Ty.Spared params (kept ++ firsts) :=
      fun t member => spared t (List.mem_append_left _ member)
    obtain ⟨partly, whole⟩ := ih earlier rfl
    have dropped : Ty.Spared (params.drop firsts.length) (kept ++ firsts) := fun t member =>
      (earlier t member).mono (fun _ => id) fun v absent inside =>
        absent (List.mem_of_mem_drop inside)
    rw [List.length_append, ← List.append_assoc, ← List.drop_drop]
    have length : (params.drop firsts.length).length = params.length - firsts.length :=
      List.length_drop
    rcases Nat.lt_or_ge firsts.length params.length with fewer | enough
    · have takes' :
          former.Takes ((kept ++ firsts).length + (params.drop firsts.length).length) := by
        rw [length, List.length_append]
        rwa [Nat.add_assoc, Nat.add_sub_of_le (Nat.le_of_lt fewer)]
      have some' : params.drop firsts.length ≠ [] := fun none_ => by
        rw [none_] at length
        simp at length
        omega
      have once' := once.sublist (List.drop_sublist firsts.length params)
      constructor
      · exact fun fewer' => (partly fewer).app_lambda takes' once' dropped (by omega)
      · exact fun all => .inl ((partly fewer).app_build takes' some' once' dropped (by omega))
    · refine ⟨fun fewer => absurd fewer (by omega), fun all => .inr ?_⟩
      obtain rfl : args = [] := List.eq_nil_of_length_eq_zero (by omega)
      rw [List.append_nil]
      rcases whole (by omega) with found | found
      · exact .stuck found (former.isStuck_build _)
      · exact .collected found
  | @stuck function other args found _ _ =>
    obtain ⟨rfl, rfl⟩ := Ty.app.inj same
    have found' := found.later persists ends ends' nofun solved
    exact ⟨found'.app_lambda takes once before,
      fun all => .inl (found'.app_build takes some once before all)⟩

end Lambda

end Subst

theorem Former.build_ne_app (former : Former) (parts : List Ty) (function : Ty) (args : List Ty) :
    former.build parts ≠ .app function args := fun same => by
  have stuck := former.isStuck_build parts
  rw [same] at stuck
  exact stuck

namespace Ty

variable {ground : Ty}

theorem FirstOrder.exists_build (closed : ground.FirstOrder 0) :
    ∃ (former : Former) (parts : List Ty),
    former.Takes parts.length ∧ ground = former.build parts ∧ ∀ t ∈ parts, t.FirstOrder 0 := by
  cases closed with
  | var inside => exact absurd inside (Nat.not_lt_zero _)
  | @arrow p r fst snd => exact ⟨.arrow, [p, r], rfl, rfl, by simp [fst, snd]⟩
  | tuple each => exact ⟨.tuple, _, trivial, rfl, each⟩
  | nominal each => exact ⟨.nominal _, _, trivial, rfl, each⟩

theorem FirstOrder.zonks (closed : ground.FirstOrder 0) (subst : Subst) :
    subst.Zonks ground ground := by
  induction closed with
  | var inside => exact absurd inside (Nat.not_lt_zero _)
  | arrow _ _ ihParam ihResult => exact (Subst.zonks_of_head ⟨1, rfl⟩).mpr (.arrow ihParam ihResult)
  | tuple _ ih => exact (Subst.zonks_of_head ⟨1, rfl⟩).mpr (.tuple (List.forall₂_same.mpr ih))
  | nominal _ ih => exact (Subst.zonks_of_head ⟨1, rfl⟩).mpr (.nominal (List.forall₂_same.mpr ih))

theorem FirstOrder.confined (closed : ground.FirstOrder 0) :
    ground.Confined (fun _ => False) fun _ => False := by
  induction closed with
  | var inside => exact absurd inside (Nat.not_lt_zero _)
  | arrow _ _ ihParam ihResult => exact .arrow ihParam ihResult
  | tuple _ ih => exact .tuple ih
  | nominal _ ih => exact .nominal ih

theorem FirstOrder.freeVars_eq_nil (closed : ground.FirstOrder 0) (subst : Subst) :
    subst.freeVars ground = [] := by
  have confines : subst.Confines (fun _ => False) fun _ => False :=
    ⟨False.elim, False.elim, False.elim⟩
  exact List.eq_nil_iff_forall_not_mem.mpr fun v => confines.mem_freeVars closed.confined

end Ty

namespace Unify

variable {depth : Nat} {subst after : Subst} {former : Former} {parts components : List Ty}
  {right function : Ty} {below : List (Ty × Ty)} {count : Nat}

theorem components?_build (takes : former.Takes parts.length) : ∃ build,
    components? (former.build parts) = some (parts, build) ∧
    ∀ others : List Ty, others.length = parts.length → build others = former.build others := by
  cases former with
  | arrow =>
    obtain ⟨p, r, rfl⟩ := List.length_eq_two.mp takes
    refine ⟨_, rfl, fun others length => ?_⟩
    obtain ⟨q, s, rfl⟩ := List.length_eq_two.mp length
    rfl
  | tuple | nominal _ => exact ⟨_, rfl, fun _ _ => rfl⟩

theorem Abstracts.of_build (takes : former.Takes parts.length)
    (shape : Abstracts subst (former.build parts) count function components after) :
    ∃ kept params, former.Takes (kept.length + params.length) ∧ 0 < params.length ∧
      parts = kept ++ components ∧
      components.length = params.length ∧ count = params.length ∧
        function = former.lambda kept params ∧
      subst.pushMany (.rigid none) count = (params, after) := by
  obtain ⟨positive, found, build, known, fewer, rfl, rfl, rfl⟩ := shape
  obtain ⟨build', known', same⟩ := components?_build takes
  obtain ⟨rfl, rfl⟩ := Prod.mk.inj (Option.some.inj (known'.symm.trans known))
  obtain ⟨-, length, -⟩ := subst.lengthened_pushMany (Cell.isNew_rigid none) count
  have all : (parts.take (parts.length - count)).length + count = parts.length := by
    rw [List.length_take]
    omega
  refine ⟨parts.take (parts.length - count), (subst.pushMany (.rigid none) count).1, ?_, ?_,
    (List.take_append_drop _ _).symm, ?_, length.symm, ?_, rfl⟩
  · rwa [length, all]
  · rwa [length]
  · rw [List.length_drop, length]
    omega
  · rw [Former.lambda, same _ (by rw [List.length_append, List.length_map, length, all])]

theorem Moves.of_build (takes : former.Takes parts.length)
    (moves : Moves depth subst (former.build parts) right below after) :
    (∃ x, right = .var x ∧ subst.isRigid x = false ∧ below = [] ∧
      after = subst.bind x (former.build parts)) ∨
    (∃ others, former.Takes others.length ∧ right = former.build others ∧
      parts.length = others.length ∧ below = parts.zip others ∧ after = subst) ∨
    ∃ head args function components, right = .app head args ∧
      below = (function, head) :: components.zip args ∧
      Abstracts subst (former.build parts) args.length function components after := by
  cases former with
  | arrow =>
    obtain ⟨p, r, rfl⟩ := List.length_eq_two.mp takes
    cases moves with
    | bindBack _ flexible _ => exact .inl ⟨_, rfl, flexible, rfl, rfl⟩
    | arrow _ _ q s => exact .inr (.inl ⟨[q, s], rfl, rfl, rfl, rfl, rfl⟩)
    | abstractBack shape => exact .inr (.inr ⟨_, _, _, _, rfl, rfl, shape⟩)
  | tuple =>
    cases moves with
    | bindBack _ flexible _ => exact .inl ⟨_, rfl, flexible, rfl, rfl⟩
    | tuple length => exact .inr (.inl ⟨_, trivial, rfl, length, rfl, rfl⟩)
    | abstractBack shape => exact .inr (.inr ⟨_, _, _, _, rfl, rfl, shape⟩)
  | nominal template =>
    cases moves with
    | bindBack _ flexible _ => exact .inl ⟨_, rfl, flexible, rfl, rfl⟩
    | nominal length => exact .inr (.inl ⟨_, trivial, rfl, length, rfl, rfl⟩)
    | abstractBack shape => exact .inr (.inr ⟨_, _, _, _, rfl, rfl, shape⟩)

end Unify

structure Moment where
  shape : Shape
  cells : Subst

instance : Preorder Moment where
  le first second := first.shape ≤ second.shape ∧ first.cells.Persists second.cells
  le_refl moment := ⟨le_rfl, .refl moment.cells⟩
  le_trans _ _ _ first second := ⟨first.1.trans second.1, first.2.trans second.2⟩

namespace Moment

open Unify Subst

variable {moment : Moment} {former : Former} {parts others : List Ty} {ty : Ty}
  {subst final after : Subst} {level : Nat}

def Holds (moment : Moment) (subst : Subst) : Prop :=
  moment.cells = subst ∧ subst.Fits moment.shape ∧ subst.LinksEnd

def Posed (moment : Moment) (pair : Ty × Ty) : Prop :=
  pair.1.FirstOrder 0 ∧ FitBoth moment.shape pair

/-- The second type resolves to the first from now on. -/
def Solved (moment : Moment) (pair : Ty × Ty) : Prop :=
  ∀ final, moment.cells.Persists final → final.LinksEnd → final.Zonks pair.2 pair.1

theorem lasts_posed : Lasts Posed := fun grown posed => ⟨posed.1, lasts_fitBoth grown.1 posed.2⟩

theorem lasts_solved : Lasts Solved :=
  fun grown solved final persists => solved final (grown.2.trans persists)

theorem zonksAll_of_zip (length : parts.length = others.length)
    (each : ∀ pair ∈ parts.zip others, subst.Zonks pair.2 pair.1) : subst.ZonksAll others parts :=
  List.Forall₂.flip (List.forall₂_iff_zip.mpr ⟨length, fun member => each _ member⟩)

theorem solves_head {function head : Ty} {params : List TyVar} {body : Ty} {after : Subst}
    (ends : subst.LinksEnd)
    (same : function = .quantified params body) (stuck : head.IsStuck)
    (isNew : ∀ x, head = .var x → (subst.cell x).IsNew)
    (run : Agenda.descend (throw .exhausted) step level (function, head) subst = .ok () after) :
    ∃ x, head = .var x ∧ subst.cell x = .unbound ∧ after = subst.bind x function := by
  subst same
  cases level with
  | zero => cases run
  | succ level =>
    obtain ⟨below, middle, stepped, rest⟩ := bind_eq_ok.mp run
    obtain ⟨left, right, shallow, shallow', moves⟩ := step_eq_ok stepped
    obtain rfl := Option.some.inj shallow
    cases head with
    | var x =>
      have here := isNew x rfl
      obtain rfl := Option.some.inj (shallow'.symm.trans (shallowWithin_isNew here level))
      cases moves with
      | bindBack _ flexible _ =>
        obtain ⟨-, rfl⟩ := pure_eq_ok.mp rest
        have root := root_of_isNew here
        refine ⟨x, rfl, ends.cell_of_root root (fun ty cell => ?_) flexible, rfl⟩
        rw [cell] at here
        exact here
    | arrow | tuple | nominal =>
      obtain rfl := Option.some.inj shallow'
      cases moves
    | quantified | app => exact stuck.elim

/-- Types that are known do not mention variables that are made later. -/
theorem spared_of_fits {shape : Shape} {params : List TyVar} {types : List Ty}
    (later : ∀ v ∈ params, shape.cells ≤ v.index) (fits : ∀ t ∈ types, t.Fits shape) :
    Ty.Spared params types := fun t member =>
  (confined_of_fits (fits t member)).mono (fun _ _ => trivial) fun v inside isParam =>
    Nat.not_lt_of_le (later v isParam) inside

theorem zonks_of_section {head ground : Ty} (ends : subst.LinksEnd)
    (heads : subst.Heads ty head ∨ subst.Heads ty (.app head []))
    (zonks : subst.Zonks head ground) : subst.Zonks ty ground := by
  rcases heads with found | found
  · exact (ends.zonks_head found.shallows).mpr zonks
  · refine (zonks_of_head found.shallows).mpr ?_
    have applied := Rebuilt.app zonks (List.Forall₂.nil (R := subst.Zonks))
    rwa [Ty.apply_nil] at applied

theorem reaches_descend (level : Nat) {moment : Moment} {pair : Ty × Ty}
    (posed : moment.Posed pair) :
    Reaches Holds moment (fun later _ => later.Solved pair)
    (Agenda.descend (throw .exhausted) step level pair) := by
  induction level generalizing moment pair with
  | zero => exact .throw _
  | succ level ih =>
    obtain ⟨ground, ty⟩ := pair
    obtain ⟨shape, subst⟩ := moment
    obtain ⟨closed, fitGround, fitTy⟩ := posed
    obtain ⟨former, parts, takes, rfl, each⟩ := closed.exists_build
    refine reaches_of_ok fun state after _ ⟨same, fits, ends⟩ run => ?_
    obtain rfl : subst = state := same
    obtain ⟨below, middle, stepped, rest⟩ := bind_eq_ok.mp run
    obtain ⟨larger, grown, there, fitBelow⟩ :=
      (stays_step (level + 1) ⟨fitGround, fitTy⟩).ok ⟨fits, rfl⟩ stepped
    obtain ⟨left, right, shallow, shallow', moves⟩ := step_eq_ok stepped
    obtain rfl :=
      Option.some.inj (shallow.symm.trans (former.shallowWithin_build subst parts level))
    have heads := heads_of_walk shallow'
    have fitHead := fits.shallowWithin fitTy shallow'
    rcases moves.of_build takes with ⟨x, rfl, flexible, rfl, rfl⟩ | ⟨others, takes', rfl,
      length, rfl, rfl⟩ | ⟨head, args, function, components, rfl, rfl, abstracts⟩
    · -- The type is put in place of a variable.
      obtain ⟨-, rfl⟩ := pure_eq_ok.mp rest
      obtain ⟨isRoot, notBound⟩ := ends.shallowWithin_var shallow'
      have unbound := ends.cell_of_root isRoot notBound flexible
      have inside : x.index < subst.size := fits.size ▸ fitHead.index_lt
      refine ⟨⟨larger, _⟩, ⟨grown, persists_write unbound _⟩, ⟨rfl, there.toFits, ends.bind _ _⟩,
        fun final persists ends' => ?_⟩
      have found : final.Heads (.var x) (former.build parts) := .solved
        (persists.rootCell_of_bound (cell_write_self inside _))
          (heads_of_walk (former.shallowWithin_build final parts 0))
      have later := heads.later ((persists_write unbound _).trans persists) ends ends' nofun found
      exact (ends'.zonks_head later.shallows).mpr (closed.zonks final)
    · -- The parts are resolved to the parts.
      have posed : ∀ pair ∈ parts.zip others, Posed ⟨larger, middle⟩ pair := fun pair member =>
        ⟨each _ (List.of_mem_zip member).1, fitBelow pair member⟩
      obtain ⟨later, grown', holds, solved⟩ :=
        (Arrives.forM_each Posed Solved lasts_posed lasts_solved posed ih).ok ⟨rfl,
          there.toFits, ends⟩ rest
      refine ⟨later, ⟨grown.trans grown'.1, grown'.2⟩, holds, fun final persists ends' => ?_⟩
      have found := heads_of_walk (former.shallowWithin_build final others 0)
      have head :=
        heads.later (grown'.2.trans persists) ends ends' (former.build_ne_app others) found
      refine (ends'.zonks_head head.shallows).mpr
        ((zonks_build takes').mpr ⟨parts, zonksAll_of_zip length ?_, rfl⟩)
      exact fun pair member => solved pair member final persists ends'
    · -- The constructor is put in place of the applied variable, over the first parts.
      obtain ⟨kept, params, takes', positive, rfl, length, count, rfl, made⟩ :=
        abstracts.of_build takes
      obtain ⟨longer, -, fresh⟩ := subst.lengthened_pushMany (Cell.isNew_rigid none) args.length
      have once := subst.nodup_pushMany (Cell.isNew_rigid none) args.length
      rw [made] at longer fresh once
      dsimp only at longer fresh once
      obtain ⟨stuckHead, isNew⟩ := (ends.shallowWithin_head shallow').2 head args rfl
      rw [List.forM_cons] at rest
      obtain ⟨_, second, first, rest⟩ := bind_eq_ok.mp rest
      obtain ⟨x, rfl, unbound, rfl⟩ := solves_head (longer.ends ends) rfl stuckHead
        (fun x same => longer.isNew_of_isNew (isNew x same)) first
      obtain ⟨fitFirst, fitRest⟩ := List.forall_mem_cons.mp fitBelow
      obtain ⟨eachKept, eachLast⟩ := List.forall_mem_append.mp each
      have posed : ∀ pair ∈ components.zip args,
          Posed ⟨larger, middle.bind x (former.lambda kept params)⟩ pair :=
        fun pair member => ⟨eachLast _ (List.of_mem_zip member).1, fitRest pair member⟩
      obtain ⟨later, grown', holds, solved⟩ :=
        (Arrives.forM_each Posed Solved lasts_posed lasts_solved posed ih).ok
        ⟨rfl, there.write x (.bound fitFirst.1), (longer.ends ends).bind _ _⟩ rest
      have past : subst.Persists later.cells :=
        longer.persists.trans ((persists_write unbound _).trans grown'.2)
      refine ⟨later, ⟨grown.trans grown'.1, past⟩, holds, fun final persists ends' => ?_⟩
      obtain ⟨fitVar, fitArgs⟩ := fitHead.app_inv
      have fitParts := former.children_build takes ▸ fitGround.children
      have inside : x.index < middle.size :=
        Nat.lt_of_lt_of_le (fits.size ▸ fitVar.index_lt) longer.size_le
      have found : final.Heads (.var x) (former.lambda kept params) := .solved
        ((grown'.2.trans persists).rootCell_of_bound (cell_write_self inside _)) .quantified
      have spared : Ty.Spared params (kept ++ args) := spared_of_fits
        (fun v member => fits.size ▸ (fresh v member).1) fun t member =>
          (List.mem_append.mp member).elim
            (fun inKept => fitParts t (List.mem_append_left _ inKept)) (fitArgs t)
      have zonks : final.Zonks (former.build (kept ++ args))
          (former.build (kept ++ components)) := by
        refine (zonks_build (by simpa [count] using takes')).mpr
          ⟨_, List.rel_append ?_ (zonksAll_of_zip ?_ ?_), rfl⟩
        · exact List.forall₂_same.mpr fun t member => (eachKept t member).zonks final
        · exact length.trans count.symm
        · exact fun pair member => solved pair member final persists ends'
      have resolved := (heads.section_later (past.trans persists) ends ends' found takes'
        (List.ne_nil_of_length_pos positive) once spared).2 count
      exact zonks_of_section ends' resolved zonks

end Moment

/-- Once it has been made equal to it, a type resolves to a first-order type without variables. -/
theorem Subst.unify_ground {shape : Shape} {subst after : Subst} {ground ty : Ty}
    (fits : subst.Fits shape)
    (ends : subst.LinksEnd) (fitGround : ground.Fits shape) (fitTy : ty.Fits shape)
    (closed : ground.FirstOrder 0)
    (run : Subst.unify ground ty subst = .ok () after) : after.Zonks ty ground := by
  change Unify.within _ _ _ subst = _ at run
  rw [Unify.within, Agenda.walk_singleton] at run
  have posed : Moment.Posed ⟨shape, subst⟩ (ground, ty) := ⟨closed, fitGround, fitTy⟩
  obtain ⟨later, -, ⟨rfl, -, ends'⟩, solved⟩ :=
    (Moment.reaches_descend _ posed).ok ⟨rfl, fits, ends⟩ run
  exact solved _ (.refl _) ends'

end PolyCheck
