import PolyCheck.Proofs.Subst.Zonks
import PolyCheck.Proofs.Ty.SectionAlike

/-! Unification of types without quantifiers is sound. A stage is the cells at some time with what
is known of their variables. Every step leads to a later stage, and leaves pairs of types from whose
equality that of the types compared follows: variables stand for what they are linked to or solved
by, applications are equal when their heads and arguments are, and a constructor at its last
components is the section of it at these components. A run that ends has made the pairs below every
step equal, and so the types that it was asked for. -/
namespace PolyCheck

namespace Subst

open Run Unify Ty

variable {subst after final : Subst} {world later last : World}
  {left right ty head head' result result' : Ty}
  {types types' results results' args args' kept kept' : List Ty} {params : List TyVar}
    {former : Former}
  {depth : Nat} {x y : TyVar}

/-- The types resolve to types that are equal up to the names of parameters. -/
def Equal (subst : Subst) (left right : Ty) : Prop :=
  ∀ result result', subst.Zonks left result → subst.Zonks right result' → Alike Eq result result'

section Equal

theorem equal_refl (subst : Subst) (ty : Ty) : subst.Equal ty ty := by
  intro result result' zonks zonks'
  rw [zonks.unique zonks']
  exact .refl fun _ => rfl

theorem Equal.symm (equal : subst.Equal left right) : subst.Equal right left :=
  fun _ _ zonks zonks' => (equal _ _ zonks' zonks).swap.mono fun _ _ => Eq.symm

theorem LinksEnd.equal_link (ends : subst.LinksEnd) (cell : subst.cell x = .link y) :
    subst.Equal (.var x) (.var y) :=
  fun _ _ zonks zonks' => subst.equal_refl (.var y) _ _
    ((zonks_of_root (ends.root_of_link cell)).mp zonks) zonks'

theorem equal_bound (cell : subst.cell x = .bound ty) : subst.Equal (.var x) ty := by
  have root : subst.root x = x := root_of_not_link fun w link => by simp [cell] at link
  exact fun _ _ zonks zonks' =>
    subst.equal_refl ty _ _ ((zonks_solved (by rwa [rootCell, root])).mp zonks) zonks'

theorem alikeAll_of_equal (equal : List.Forall₂ subst.Equal types types')
    (all : subst.ZonksAll types results)
    (all' : subst.ZonksAll types' results') : AlikeAll Eq results results' := by
  have known : List.Forall₂ (fun t r => ∀ r', subst.Zonks t r' → Alike Eq r r') types' results :=
    transfer_forall₂ equal all fun _ _ _ _ equal zonks _ zonks' => equal _ _ zonks zonks'
  exact transfer_forall₂ known all' fun _ _ _ r' known zonks => known r' zonks

theorem equal_build (takes : former.Takes types.length)
    (equal : List.Forall₂ subst.Equal types types') :
    subst.Equal (former.build types) (former.build types') := by
  intro result result' zonks zonks'
  obtain ⟨results, all, rfl⟩ := (zonks_build takes).mp zonks
  obtain ⟨results', all', rfl⟩ := (zonks_build (equal.length_eq ▸ takes)).mp zonks'
  exact alike_build (all.length_eq ▸ takes) (alikeAll_of_equal equal all all')

end Equal

section Final

variable (here : subst.Shaped world)
include here

theorem Shaped.alike_applies (sectional : head.Sectional world.binder world.own)
    (sectional' : head'.Sectional world.binder world.own)
    (each : ∀ t ∈ args, t.Sectional world.binder world.own)
    (each' : ∀ t ∈ args', t.Sectional world.binder world.own) (equal : subst.Equal head head')
    (all : List.Forall₂ subst.Equal args args') (applies : subst.Applies head args result)
    (applies' : subst.Applies head' args' result') : Alike Eq result result' := by
  obtain ⟨function, results, zonks, resolved, rfl⟩ := applies
  obtain ⟨function', results', zonks', resolved', rfl⟩ := applies'
  exact Alike.apply here.apart (here.zonks sectional zonks) (here.zonks sectional' zonks')
    (here.zonksAll each resolved) (here.zonksAll each' resolved') (equal _ _ zonks zonks')
    (alikeAll_of_equal all resolved resolved')

theorem Shaped.equal_app (sectional : head.Sectional world.binder world.own)
    (sectional' : head'.Sectional world.binder world.own)
    (each : ∀ t ∈ args, t.Sectional world.binder world.own)
    (each' : ∀ t ∈ args', t.Sectional world.binder world.own) (equal : subst.Equal head head')
    (all : List.Forall₂ subst.Equal args args') : subst.Equal (.app head args) (.app head' args') :=
  fun _ _ zonks zonks' => here.alike_applies sectional sectional' each each' equal all
    ((here.zonks_app sectional each).mp zonks) ((here.zonks_app sectional' each').mp zonks')

theorem Shaped.zonks_app_split (sectional : head.Sectional world.binder world.own)
    (each : ∀ t ∈ args, t.Sectional world.binder world.own) (count : Nat) :
    subst.Zonks (.app (.app head (args.take count)) (args.drop count)) result ↔
      subst.Zonks (.app head args) result := by
  have firsts : ∀ t ∈ args.take count, t.Sectional world.binder world.own :=
    fun t member => each t (List.mem_of_mem_take member)
  have others : ∀ t ∈ args.drop count, t.Sectional world.binder world.own :=
    fun t member => each t (List.mem_of_mem_drop member)
  rw [here.zonks_app (.app sectional firsts) others, here.applies_app sectional firsts
    fun _ => here.zonks_app sectional firsts, List.take_append_drop, here.zonks_app sectional each]

theorem Sections.apply_last (sections : Sections world.binder world.own former kept params)
    (length : params.length = args.length) :
    (former.lambda kept params).apply args = former.build (kept ++ args) := by
  rw [sections.apply_enough here.apart (Nat.le_of_eq length), length, List.take_length,
    List.drop_length, apply_nil]

theorem Shaped.equal_abstract (sections : Sections world.binder world.own former kept params)
    (length : params.length = args'.length) (sectional : head.Sectional world.binder world.own)
    (each : ∀ t ∈ args, t.Sectional world.binder world.own)
    (each' : ∀ t ∈ args', t.Sectional world.binder world.own)
    (equal : subst.Equal head (former.lambda kept params))
    (all : List.Forall₂ subst.Equal args args') :
    subst.Equal (.app head args) (former.build (kept ++ args')) := by
  intro result result' zonks zonks'
  rw [← Sections.apply_last here sections length,
    here.zonks_apply sections.sectional each'] at zonks'
  exact here.alike_applies sectional sections.sectional each each' equal all
    ((here.zonks_app sectional each).mp zonks) zonks'

end Final

end Subst

/-- Cells at some time, with what is known of their variables. -/
structure Stage where
  world : World
  cells : Subst

namespace Stage

open Run Unify Ty Subst

instance : Preorder Stage where
  le first second := first.world ≤ second.world ∧ first.cells.Persists second.cells
  le_refl stage := ⟨le_rfl, .refl stage.cells⟩
  le_trans _ _ _ first second := ⟨first.1.trans second.1, first.2.trans second.2⟩

abbrev Sound (stage : Stage) : Prop := stage.cells.Shaped stage.world

abbrev Sectional (stage : Stage) (ty : Ty) : Prop := ty.Sectional stage.world.binder stage.world.own

variable {stage later final : Stage} {subst after : Subst} {world : World}
  {left right ty head head' function : Ty}
  {types types' args args' parts kept : List Ty} {params : List TyVar} {former : Former}
    {below : List (Ty × Ty)}
  {depth count : Nat} {x y : TyVar}

theorem Sectional.grow (sectional : stage.Sectional ty) (grown : stage ≤ later) :
    later.Sectional ty :=
  sectional.mono grown.1.2 grown.1.1

theorem cell_later (grown : stage ≤ later) {cell : Cell} (known : stage.cells.cell x = cell)
    (written : cell ≠ .unbound) : later.cells.cell x = cell := by
  rcases grown.2 x with unbound | same
  · exact absurd (known.symm.trans unbound) written
  · exact same.trans known

/-- The cells come to a later stage, from which on the two types are equal once the pairs below them
are. -/
def Settles (stage : Stage) (left right : Ty) (below : List (Ty × Ty)) (after : Subst) : Prop :=
  ∃ later : Stage, stage ≤ later ∧ later.cells = after ∧ later.Sound ∧
    (∀ pair ∈ below, later.Sectional pair.1 ∧ later.Sectional pair.2) ∧
    ∀ final, later ≤ final → final.Sound → (∀ pair ∈ below, final.cells.Equal pair.1 pair.2) →
      final.cells.Equal left right

theorem Settles.swap (settles : stage.Settles left right below after) :
    stage.Settles right left (below.map Prod.swap) after := by
  obtain ⟨later, grown, cells, sound, each, conclude⟩ := settles
  refine ⟨later, grown, cells, sound, List.forall_mem_map.mpr fun pair member =>
    (each pair member).symm, ?_⟩
  intro final grown' sound' equal
  exact (conclude final grown' sound' fun pair member =>
    (equal pair.swap (List.mem_map_of_mem member)).symm).symm

theorem sectional_zip (each : ∀ t ∈ types, stage.Sectional t)
    (each' : ∀ t ∈ types', stage.Sectional t) :
    ∀ pair ∈ types.zip types', stage.Sectional pair.1 ∧ stage.Sectional pair.2 :=
  fun _ member => ⟨each _ (List.of_mem_zip member).1, each' _ (List.of_mem_zip member).2⟩

theorem equal_zip (length : types.length = types'.length)
    (equal : ∀ pair ∈ types.zip types', subst.Equal pair.1 pair.2) :
      List.Forall₂ subst.Equal types types' :=
  List.forall₂_iff_zip.mpr ⟨length, fun member => equal _ member⟩

section Moves

variable (sound : stage.Sound)
include sound

theorem settles_link (own : stage.world.own x) (own' : stage.world.own y)
    (unbound : stage.cells.cell x = .unbound)
    (isNew : (stage.cells.cell y).IsNew) (different : x ≠ y) :
    stage.Settles (.var x) (.var y) [] (stage.cells.link x y) := by
  refine ⟨⟨stage.world, stage.cells.link x y⟩, ⟨le_rfl, persists_write unbound _⟩, rfl,
    sound.link own own' unbound isNew different, nofun, fun final grown sound' _ => ?_⟩
  have written : (stage.cells.link x y).cell x = .link y := cell_write_self (sound.inPlay own).2 _
  exact sound'.ends.equal_link (cell_later grown written (by simp))

theorem settles_bind (own : stage.world.own x) (unbound : stage.cells.cell x = .unbound)
    (sectional : stage.Sectional ty) (apart : stage.cells.occursWithin x depth ty = some false) :
    stage.Settles (.var x) ty [] (stage.cells.bind x ty) := by
  refine ⟨⟨stage.world, stage.cells.bind x ty⟩, ⟨le_rfl, persists_write unbound _⟩, rfl,
    sound.bind own sectional (sound.not_leads own unbound sectional apart), nofun,
    fun final grown _ _ => ?_⟩
  have written : (stage.cells.bind x ty).cell x = .bound ty :=
    cell_write_self (sound.inPlay own).2 _
  exact equal_bound (cell_later grown written (by simp))

theorem settles_build (former : Former) (takes : former.Takes types.length)
    (length : types.length = types'.length)
    (sectional : stage.Sectional (former.build types))
    (sectional' : stage.Sectional (former.build types')) :
    stage.Settles (former.build types) (former.build types') (types.zip types') stage.cells := by
  refine ⟨stage, le_rfl, rfl, sound, ?_,
    fun final _ _ equal => equal_build takes (equal_zip length equal)⟩
  exact sectional_zip (sectional.build_inv takes) (sectional'.build_inv (length ▸ takes))

theorem settles_app (fst : stage.Sectional head) (fst' : stage.Sectional head')
    (each : ∀ t ∈ args, stage.Sectional t) (each' : ∀ t ∈ args', stage.Sectional t) :
    stage.Settles (.app head args) (.app head' args')
      (((splitApps head args head' args').1.1, (splitApps head args head' args').2.1) ::
        (splitApps head args head' args').1.2.zip
        (splitApps head args head' args').2.2) stage.cells := by
  -- Each side is the application of its head to its last arguments.
  have side : ∀ {head : Ty} {args : List Ty} (count : Nat), stage.Sectional head →
    (∀ t ∈ args, stage.Sectional t) →
      ∀ split, (if count = 0 then (head, args) else (.app head (args.take count), args.drop count))
        = split →
        stage.Sectional split.1 ∧ (∀ t ∈ split.2, stage.Sectional t) ∧
          split.2.length = args.length - count ∧
          ∀ {final : Stage} {result : Ty}, stage ≤ final → final.Sound →
            final.cells.Zonks (.app head args) result → final.cells.Zonks (.app split.1 split.2)
              result := by
    rintro head args count fst each _ rfl
    split
    · rename_i none_
      exact ⟨fst, each, by simp [none_], fun _ _ => id⟩
    · refine ⟨.app fst fun t member => each t (List.mem_of_mem_take member),
        fun t member => each t (List.mem_of_mem_drop member), List.length_drop,
        fun grown sound zonks => ?_⟩
      exact (Shaped.zonks_app_split sound (fst.grow grown)
        (fun t member => (each t member).grow grown) count).mpr zonks
  obtain ⟨first, firsts, length, through⟩ := side (args.length - args'.length) fst each _ rfl
  obtain ⟨second, seconds, length', through'⟩ := side (args'.length - args.length) fst' each' _ rfl
  refine ⟨stage, le_rfl, rfl, sound, ?_, fun final grown sound' equal => ?_⟩
  · exact List.forall_mem_cons.mpr ⟨⟨first, second⟩, sectional_zip firsts seconds⟩
  · obtain ⟨equal, rest⟩ := List.forall_mem_cons.mp equal
    have all := equal_zip (by rw [splitApps, length, length']; omega) rest
    intro result result' zonks zonks'
    exact sound'.equal_app (first.grow grown) (second.grow grown)
      (fun t member => (firsts t member).grow grown)
      (fun t member => (seconds t member).grow grown) equal all _ _ (through grown sound' zonks)
      (through' grown sound' zonks')

theorem settles_abstract (fst : stage.Sectional head) (each : ∀ t ∈ args, stage.Sectional t)
    (sectional : stage.Sectional ty)
    (shape : Abstracts stage.cells ty args.length function parts after) :
    stage.Settles (.app head args) ty ((head, function) :: args.zip parts) after := by
  obtain ⟨positive, components, build, known, fits, rfl, rfl, rfl⟩ := shape
  obtain ⟨former, takes, rfl, rebuilt⟩ := Former.components?_eq known
  obtain ⟨world, grown, there, binders⟩ := sound.pushMany_binder none args.length
  obtain ⟨longer, count, -⟩ := lengthened_pushMany stage.cells (Cell.isNew_rigid none) args.length
  have each' := sectional.build_inv takes
  have once := nodup_pushMany stage.cells (Cell.isNew_rigid none) args.length
  generalize stage.cells.pushMany (.rigid none) args.length =
    pushed at there binders longer count once rebuilt ⊢
  obtain ⟨params, after⟩ := pushed
  let first := components.take (components.length - args.length)
  let last := components.drop (components.length - args.length)
  have whole : first ++ last = components := List.take_append_drop _ _
  have length : args.length = last.length := by rw [List.length_drop]; omega
  have sections : Sections world.binder world.own former first params := by
    refine ⟨?_, List.ne_nil_of_length_pos (count.symm ▸ positive), once, binders,
      fun t member => ?_⟩
    · rwa [count, length, ← List.length_append, whole]
    · exact (each' t (List.mem_of_mem_take member)).mono grown.2 grown.1
  rw [rebuilt _ (by rw [List.length_append, List.length_take, List.length_map, count]; omega)]
  have grown' : stage ≤ ⟨world, after⟩ := ⟨grown, longer.persists⟩
  have each := fun t member => (each t member).grow grown'
  have lasts : ∀ t ∈ last, t.Sectional world.binder world.own :=
    fun t member => Sectional.grow (each' t (List.mem_of_mem_drop member)) grown'
  refine ⟨⟨world, after⟩, grown', rfl, there, ?_, fun final grown'' sound' equal => ?_⟩
  · exact List.forall_mem_cons.mpr ⟨⟨fst.grow grown', sections.sectional⟩, sectional_zip each lasts⟩
  · obtain ⟨equal, rest⟩ := List.forall_mem_cons.mp equal
    rw [← whole]
    exact sound'.equal_abstract (sections.mono grown''.1.2 grown''.1.1) (count.trans length)
      ((fst.grow grown').grow grown'') (fun t member => (each t member).grow grown'')
      (fun t member => Sectional.grow (lasts t member) grown'') equal (equal_zip length rest)

omit sound in
theorem opened_section (there : stage.Sound) {body resolved : Ty} {skolems : List TyVar}
    (length : params.length = skolems.length)
    (sectional : stage.Sectional (.quantified params body))
    (walk : stage.cells.zonkWithin depth body = some resolved) :
    ∃ former kept kept', .quantified params body = former.lambda kept params ∧
      Sections stage.world.binder stage.world.own former kept params ∧
      Sections stage.world.binder stage.world.own former kept' params ∧
      resolved.substitute (.ofLists params (skolems.map .var)) = former.build
      (kept' ++ skolems.map .var) ∧
      ∀ final, stage ≤ final → final.Sound → ∀ results, final.cells.ZonksAll kept results →
        final.cells.ZonksAll kept' results := by
  obtain ⟨former, kept, rfl, sections⟩ := sectional.quantified_inv
  obtain ⟨lower, kept', -, walks, rfl⟩ :=
    zonkWithin_section sections
      (fun p member => there.isNew_binder (sections.binders p member)) walk
  have sections' := sections.replace walks.length_eq
    (forall_of_forall₂ walks sections.each fun _ _ sectional walk =>
      there.zonkWithin sectional walk)
  refine ⟨former, kept, kept', rfl, sections, sections', ?_,
    fun final grown sound' results all => ?_⟩
  · rw [Former.substitute_lambda sections'.takes sections'.once (sections'.spared there.apart),
      List.length_map, ← length, List.drop_length, List.map_nil, List.append_nil,
      List.take_of_length_le (by simp [length])]
  · exact transfer_forall₂ walks all fun t member _ _ walk zonks =>
      zonks_of_zonk there sound' grown.1 grown.2 (sections.each t member) walk zonks

theorem settles_quantified {ps qs skolems : List TyVar} {b b' c c' : Ty}
    (sectional : stage.Sectional (.quantified ps b))
    (sectional' : stage.Sectional (.quantified qs c)) (length : ps.length = qs.length)
    (opened : stage.cells.pushMany (.rigid none) ps.length = (skolems, after))
    (zonk : after.zonkWithin depth b = some b') (zonk' : after.zonkWithin depth c = some c') :
    stage.Settles (.quantified ps b) (.quantified qs c)
      [(b'.substitute (.ofLists ps (skolems.map .var)),
          c'.substitute (.ofLists qs (skolems.map .var)))] after := by
  obtain ⟨world, grown, there, skolem⟩ := sound.pushMany_own (Cell.isNew_rigid none) ps.length
  obtain ⟨longer, count, -⟩ := lengthened_pushMany stage.cells (Cell.isNew_rigid none) ps.length
  rw [opened] at there skolem longer count
  let later : Stage := ⟨world, after⟩
  have sound' : later.Sound := there
  have grown' : stage ≤ later := ⟨grown, longer.persists⟩
  obtain ⟨former, kept, first, same, sections, sections₁, open₁, through⟩ :=
    opened_section sound' count.symm (sectional.grow grown') zonk
  obtain ⟨former', kept', first', same', sections', sections₁', open₁', through'⟩ :=
    opened_section sound' (count.trans length).symm (sectional'.grow grown') zonk'
  rw [same, same', open₁, open₁']
  have takes : former.Takes (first ++ skolems.map Ty.var).length := by
    rw [List.length_append, List.length_map, count]
    exact sections₁.takes
  have takes' : former'.Takes (first' ++ skolems.map Ty.var).length := by
    rw [List.length_append, List.length_map, count, length]
    exact sections₁'.takes
  have skolems' : ∀ t ∈ skolems.map Ty.var, later.Sectional t :=
    List.forall_mem_map.mpr fun v member => .var (skolem v member).1
  refine ⟨later, grown', rfl, there,
    List.forall_mem_singleton.mpr ⟨.build takes ?_, .build takes' ?_⟩,
    fun final grown'' sound' equal => ?_⟩
  · exact List.forall_mem_append.mpr ⟨sections₁.each, skolems'⟩
  · exact List.forall_mem_append.mpr ⟨sections₁'.each, skolems'⟩
  -- Both sides resolve at the skolems as the sections do at their parameters.
  intro result result' zonks zonks'
  obtain ⟨results, all, found, rfl⟩ :=
    (sound'.zonks_section (sections.mono grown''.1.2 grown''.1.1)).mp zonks
  obtain ⟨results', all', found', rfl⟩ :=
    (sound'.zonks_section (sections'.mono grown''.1.2 grown''.1.1)).mp zonks'
  have isNew : ∀ v ∈ skolems, (final.cells.cell v).IsNew := fun v member => by
    rw [cell_later grown'' (skolem v member).2 (by simp)]
    exact Cell.isNew_rigid none
  have fixed := (zonksAll_params isNew).mpr rfl
  have alike := List.forall_mem_singleton.mp equal _ _
    ((zonks_build takes).mpr ⟨_, List.rel_append (through final grown'' sound' results all)
        fixed, rfl⟩)
    ((zonks_build takes').mpr ⟨_, List.rel_append (through' final grown'' sound' results' all')
        fixed, rfl⟩)
  have lengths : (first ++ skolems.map Ty.var).length = (results ++ skolems.map Ty.var).length := by
    simp [(through final grown'' sound' results all).length_eq]
  have lengths' : (first' ++ skolems.map Ty.var).length =
      (results' ++ skolems.map Ty.var).length := by
    simp [(through' final grown'' sound' results' all').length_eq]
  obtain ⟨rfl, parts⟩ := alike.build_inv (lengths ▸ takes) (lengths' ▸ takes')
  refine alike_lambda sound'.apart found found' length ?_
  have even := parts.length_eq
  rw [List.length_append, List.length_append, Nat.add_right_cancel_iff] at even
  have firsts := List.forall₂_take results.length parts
  rwa [List.take_left, even, List.take_left] at firsts

/-- Every step between types whose functions are sections leaves pairs of such types, from which the
equality of the two heads follows. -/
theorem settles_moves {first second : Ty}
    (shallow : stage.cells.shallowWithin depth first = some left)
    (shallow' : stage.cells.shallowWithin depth second = some right)
    (sectional : stage.Sectional left)
    (sectional' : stage.Sectional right) (moves : Moves depth stage.cells left right below after) :
    stage.Settles left right below after := by
  have own : ∀ {x : TyVar}, stage.Sectional (.var x) → stage.world.own x := fun sectional => by
    cases sectional with
    | var own => exact own
  have unbound : ∀ {ty : Ty} {x : TyVar}, stage.cells.shallowWithin depth ty = some (.var x) →
      stage.cells.isRigid x = false → stage.cells.cell x = .unbound := fun walk flexible => by
    obtain ⟨isRoot, notBound⟩ := sound.ends.shallowWithin_var walk
    exact sound.ends.cell_of_root isRoot notBound flexible
  have isNew : ∀ {ty : Ty} {x : TyVar}, stage.cells.shallowWithin depth ty = some (.var x) →
      (stage.cells.cell x).IsNew := fun walk => (sound.ends.shallowWithin_head walk).1 _ rfl
  cases moves with
  | same x => exact ⟨stage, le_rfl, rfl, sound, nofun,
      fun final _ _ _ => final.cells.equal_refl (.var x)⟩
  | link different flexible =>
    exact settles_link sound (own sectional) (own sectional') (unbound shallow flexible)
      (isNew shallow') different
  | linkBack different _ flexible =>
    exact (settles_link sound (own sectional') (own sectional) (unbound shallow' flexible)
      (isNew shallow) different.symm).swap
  | bind _ flexible apart =>
    exact settles_bind sound (own sectional) (unbound shallow flexible) sectional' apart
  | bindBack _ flexible apart =>
    exact (settles_bind sound (own sectional') (unbound shallow' flexible) sectional apart).swap
  | arrow p r q s =>
    have takes : Former.arrow.Takes [p, r].length := rfl
    exact settles_build sound .arrow takes (rfl : _ = [q, s].length) sectional sectional'
  | tuple length => exact settles_build sound .tuple trivial length sectional sectional'
  | @nominal template _ _ length =>
    exact settles_build sound (.nominal template) trivial length sectional sectional'
  | quantified length opened zonk zonk' =>
    exact settles_quantified sound sectional sectional' length opened zonk zonk'
  | app h as k bs =>
    obtain ⟨fst, each⟩ := sectional.app_inv
    obtain ⟨fst', each'⟩ := sectional'.app_inv
    exact settles_app sound fst fst' each each'
  | abstract shape =>
    obtain ⟨fst, each⟩ := sectional.app_inv
    exact settles_abstract sound fst each sectional' shape
  | @abstractBack k _ function bs parts _ shape =>
    obtain ⟨fst, each⟩ := sectional'.app_inv
    have settles := (settles_abstract sound fst each sectional shape).swap
    rwa [List.map_cons, List.zip_swap] at settles

end Moves

section Runs

def Holds (stage : Stage) (subst : Subst) : Prop := stage.cells = subst ∧ stage.Sound

def Posed (stage : Stage) (pair : Ty × Ty) : Prop := stage.Sectional pair.1 ∧ stage.Sectional pair.2

def Solved (stage : Stage) (pair : Ty × Ty) : Prop :=
  ∀ final, stage ≤ final → final.Sound → final.cells.Equal pair.1 pair.2

theorem lasts_posed : Lasts Posed := fun grown posed => ⟨posed.1.grow grown, posed.2.grow grown⟩

theorem lasts_solved : Lasts Solved :=
  fun grown solved final grown' => solved final (grown.trans grown')

/-- Types that have been walked to their heads are equal where the pairs that the step between the
heads leaves are. -/
theorem settles_walk {depth : Nat} {pair : Ty × Ty} {below : List (Ty × Ty)} {after : Subst}
    (sound : stage.Sound)
    (posed : stage.Posed pair) (shallow : stage.cells.shallowWithin depth pair.1 = some left)
    (shallow' : stage.cells.shallowWithin depth pair.2 = some right)
    (moves : Moves depth stage.cells left right below after) :
    ∃ later : Stage, stage ≤ later ∧ later.cells = after ∧ later.Sound ∧
    (∀ other ∈ below, later.Posed other) ∧
      ∀ {final}, later ≤ final → (∀ other ∈ below, final.Solved other) → final.Solved pair := by
  have sectional := sound.shallowWithin posed.1 shallow
  have sectional' := sound.shallowWithin posed.2 shallow'
  obtain ⟨later, grown, cells, sound', each, conclude⟩ :=
    settles_moves sound shallow shallow' sectional sectional' moves
  refine ⟨later, grown, cells, sound', each, fun {final} grown' solved last grown'' sound'' => ?_⟩
  have equal := conclude last (grown'.trans grown'') sound'' fun other member =>
    solved other member last grown'' sound''
  have past := grown.trans (grown'.trans grown'')
  intro first second zonks zonks'
  exact equal first second (zonks_of_shallow sound sound'' past.1 past.2 posed.1 shallow zonks)
    (zonks_of_shallow sound sound'' past.1 past.2 posed.2 shallow' zonks')

theorem arrives_step (depth : Nat) {pair : Ty × Ty} (posed : stage.Posed pair) :
    Arrives True Holds stage (fun later below => (∀ other ∈ below, later.Posed other) ∧
      ∀ {final}, later ≤ final → (∀ other ∈ below, final.Solved other) → final.Solved pair)
      (step depth pair) := by
  rintro _ ⟨rfl, sound⟩
  cases result : step depth pair stage.cells with
  | ok below after =>
    obtain ⟨left, right, shallow, shallow', moves⟩ := step_eq_ok result
    obtain ⟨later, grown, cells, sound', each, conclude⟩ :=
      settles_walk sound posed shallow shallow' moves
    exact ⟨later, grown, ⟨cells, sound'⟩, each, conclude⟩
  | error error after =>
    obtain ⟨made, rfl⟩ := step_eq_error result
    obtain ⟨world, grown, there, -⟩ := sound.pushMany_own (Cell.isNew_rigid none) made
    have longer := (lengthened_pushMany stage.cells (Cell.isNew_rigid none) made).1
    exact fun _ => ⟨⟨world, _⟩, ⟨grown, longer.persists⟩, rfl, there⟩

theorem arrives_unify (posed : stage.Posed (left, right)) :
    Arrives True Holds stage (fun later _ => later.Solved (left, right))
    (Subst.unify left right) := by
  have descends : ∀ level {stage : Stage} {pair : Ty × Ty}, stage.Posed pair →
    Arrives True Holds stage
      (fun later _ => later.Solved pair) (Agenda.descend (throw .exhausted) step level pair) :=
    Arrives.descend lasts_posed lasts_solved (.throw _) fun depth _ => arrives_step depth
  refine .get fun subst _ => ?_
  rw [Unify.within, Agenda.walk_singleton]
  exact descends _ posed

end Runs

end Stage

namespace Subst

open Stage Run Ty

variable {before subst after : Subst} {left right : Ty}

theorem shaped_empty : Subst.empty.Shaped Subst.empty.spareWorld := by
  have unbound : ∀ v, Subst.empty.cell v = .unbound := fun v => cell_of_size_le (Nat.zero_le _)
  have spare : ∀ v, Subst.empty.Spare v := fun v x ty cell => by simp [unbound] at cell
  have outside : ∀ {v : TyVar}, ¬ v.index < Subst.empty.size :=
    fun inside => absurd inside (Nat.not_lt_zero _)
  exact {
    confines := ⟨fun own => absurd own.1 outside, fun own => absurd own.1 outside,
      fun {v} bound => absurd (spare v) bound⟩
    ends := linksEnd_empty
    size_le := Nat.le_refl _
    cells := fun _ => rfl
    inPlay := fun own => absurd own.1 outside
    bound := fun {v} bound => absurd (spare v) bound
    rigid := fun {v} bound => absurd (spare v) bound
    total := fun inside => absurd inside outside
    sections := fun {v _} cell => by simp [unbound] at cell
    acyclic := ⟨fun v => .intro v fun w uses => by simp [Uses, unbound] at uses⟩ }

/-- Unification between calls: the only functions on types are those in solutions. -/
theorem arrives_settled (first : subst.unquantified left) (second : subst.unquantified right) :
    Arrives True Holds ⟨subst.spareWorld, subst⟩ (fun later _ => later.Solved (left, right))
    (Subst.unify left right) :=
  arrives_unify ⟨first.sectional, second.sectional⟩

theorem Call.shaped (call : subst.Call unquantified after) (here : subst.Shaped subst.spareWorld) :
    after.Shaped after.spareWorld := by
  cases call with
  | fresh => exact (here.push_own Cell.isNew_unbound).settle
  | freshRigid name => exact (here.push_own (Cell.isNew_rigid _)).settle
  | freshSkolem => exact (here.push_own (Cell.isNew_rigid _)).settle
  | snapshot => exact here.snapshot.settle
  | find v => exact (here.find v).settle
  | unify first second result =>
    have arrives := arrives_settled first second
    rcases result with result | ⟨error, result⟩
    · obtain ⟨_, -, ⟨rfl, sound⟩, -⟩ := arrives.ok ⟨rfl, here⟩ result
      exact sound.settle
    · obtain ⟨_, -, rfl, sound⟩ := arrives.error trivial ⟨rfl, here⟩ result
      exact sound.settle

theorem Calls.shaped (calls : Calls unquantified before after)
    (here : before.Shaped before.spareWorld) : after.Shaped after.spareWorld := by
  induction calls with
  | refl => exact here
  | tail _ call ih => exact call.shaped ih

/-- Two types without quantifiers, unified after any such calls, resolve to types that are equal up
to the names of bound variables; that they resolve is part of it. Nothing is said where a type
mentions a parameter of a function on types that is a solution by then, as if it was an ordinary
variable. -/
theorem unify_sound (calls : Calls unquantified empty subst) (first : subst.unquantified left)
    (second : subst.unquantified right) (run : Subst.unify left right subst = .ok () after) :
    (∃ depth result result', Alike Eq result result' ∧ ∀ deeper, depth ≤ deeper →
      after.zonkWithin deeper left = some result ∧ after.zonkWithin deeper right = some result') ∧
    (after.zonkWithin (after.depthBound left.size) left ≠ none →
      after.zonkWithin (after.depthBound right.size) right ≠ none → Alike Eq (after.zonk left)
      (after.zonk right)) := by
  have here := calls.shaped shaped_empty
  obtain ⟨stage, grown, ⟨rfl, sound⟩, solved⟩ := (arrives_settled first second).ok ⟨rfl, here⟩ run
  have equal := solved stage le_rfl sound
  obtain ⟨result, zonks⟩ := sound.exists_zonks (first.sectional.mono grown.1.2 grown.1.1)
  obtain ⟨result', zonks'⟩ := sound.exists_zonks (second.sectional.mono grown.1.2 grown.1.1)
  obtain ⟨depth, walk⟩ := id zonks
  obtain ⟨depth', walk'⟩ := id zonks'
  refine ⟨⟨max depth depth', result, result', equal _ _ zonks zonks', fun deeper le => ⟨?_, ?_⟩⟩,
    fun ended ended' => ?_⟩
  · exact zonkWithin_mono (Nat.le_trans (Nat.le_max_left _ _) le) walk
  · exact zonkWithin_mono (Nat.le_trans (Nat.le_max_right _ _) le) walk'
  · obtain ⟨left', found⟩ := Option.ne_none_iff_exists'.mp ended
    obtain ⟨right', found'⟩ := Option.ne_none_iff_exists'.mp ended'
    rw [zonk, zonk, zonk?, zonk?, found, found']
    exact equal _ _ ⟨_, found⟩ ⟨_, found'⟩

/-- A variable at the head becomes the tuple as a function of its last component. -/
theorem unify_application_tuple : ∃ after,
    Subst.unify (.app (.var ⟨0⟩) [.unit]) (.tuple [.var ⟨1⟩, .unit]) empty.fresh.2.fresh.2 =
      .ok () after ∧ after.cell ⟨0⟩ = .bound (.quantified [⟨2⟩] (.tuple [.var ⟨1⟩, .var ⟨2⟩])) ∧
      Alike Eq (after.zonk (.app (.var ⟨0⟩) [.unit])) (after.zonk (.tuple [.var ⟨1⟩, .unit])) := by
  have shown : gives (fun _ after => decide
      (after.cell ⟨0⟩ = .bound (.quantified [⟨2⟩] (.tuple [.var ⟨1⟩, .var ⟨2⟩])) ∧
        after.zonkWithin (after.depthBound (Ty.app (.var ⟨0⟩) [.unit]).size)
          (.app (.var ⟨0⟩) [.unit]) = some (.tuple [.var ⟨1⟩, .unit]) ∧
        after.zonkWithin (after.depthBound (Ty.tuple [.var ⟨1⟩, .unit]).size)
          (.tuple [.var ⟨1⟩, .unit]) = some (.tuple [.var ⟨1⟩, .unit])))
      (Subst.unify (.app (.var ⟨0⟩) [.unit]) (.tuple [.var ⟨1⟩, .unit]) empty.fresh.2.fresh.2) =
        true := by
    cbv
  obtain ⟨_, after, run, resolved⟩ := exists_of_gives shown
  obtain ⟨solved, walk, walk'⟩ := of_decide_eq_true resolved
  have free : ∀ {v : TyVar}, v.index < 2 → v.index < empty.fresh.2.fresh.2.size ∧
      empty.fresh.2.fresh.2.Spare v := by
    refine fun inside => ⟨inside, fun x ty cell => ?_⟩
    rw [fresh, cell_push, fresh, cell_push, cell_of_size_le (Nat.zero_le _)] at cell
    split at cell <;> simp at cell
  have plain : ∀ {own : TyVar → Prop}, Unquantified own .unit := .tuple (List.forall_mem_nil _)
  have first : empty.fresh.2.fresh.2.unquantified (.app (.var ⟨0⟩) [.unit]) :=
    .app (.var (free (by decide))) (List.forall_mem_singleton.mpr plain)
  have second : empty.fresh.2.fresh.2.unquantified (.tuple [.var ⟨1⟩, .unit]) :=
    .tuple (List.forall_mem_cons.mpr ⟨.var (free (by decide)), List.forall_mem_singleton.mpr plain⟩)
  have sound := unify_sound (.tail (.tail .refl .fresh) .fresh) first second run
  exact ⟨after, run, solved, sound.2 (walk ▸ Option.some_ne_none _) (walk' ▸ Option.some_ne_none _)⟩

/-- Types without quantifiers over the variables there are. -/
def inRange (subst : Subst) (ty : Ty) : Prop := ty.Unquantified fun v => v.index < subst.size

/-- A type that mentions the parameter of a solution is caught by its quantifier when it is
resolved: two functions that were equal under skolems are solutions whose resolved forms differ. -/
theorem parameter_captures : ¬ ∀ {subst after : Subst} {left right : Ty} {depth : Nat}
    {result result' : Ty}, Calls inRange empty subst → subst.inRange left → subst.inRange right →
    Subst.unify left right subst = .ok () after → after.zonkWithin depth left = some result →
    after.zonkWithin depth right = some result' → Alike Eq result result' := by
  intro sound
  let four := empty.fresh.2.fresh.2.fresh.2.fresh.2
  have shown :
    gives (fun _ first => decide (first.size = 5) && gives (fun _ second =>
        decide (second.size = 5) &&
      gives (fun _ third => decide (third.size = 6) && gives (fun _ last => decide
        (last.zonkWithin 8 (.var ⟨0⟩) = some (.quantified [⟨4⟩] (.tuple [.var ⟨4⟩, .var ⟨4⟩])) ∧
          last.zonkWithin 8 (.var ⟨2⟩) = some (.quantified [⟨5⟩] (.tuple [.var ⟨6⟩, .var ⟨5⟩]))))
        (Subst.unify (.var ⟨0⟩) (.var ⟨2⟩) third))
        (Subst.unify (.app (.var ⟨2⟩) [.unit]) (.tuple [.var ⟨3⟩, .unit]) second))
        (Subst.unify (.var ⟨1⟩) (.var ⟨4⟩) first))
      (Subst.unify (.app (.var ⟨0⟩) [.unit]) (.tuple [.var ⟨1⟩, .unit]) four) = true := by
    cbv
  obtain ⟨_, first, solved, shown⟩ := exists_of_gives shown
  obtain ⟨size, shown⟩ := (Bool.and_eq_true _ _).mp shown
  obtain ⟨_, second, linked, shown⟩ := exists_of_gives shown
  obtain ⟨size', shown⟩ := (Bool.and_eq_true _ _).mp shown
  obtain ⟨_, third, solved', shown⟩ := exists_of_gives shown
  obtain ⟨size'', shown⟩ := (Bool.and_eq_true _ _).mp shown
  obtain ⟨_, last, compared, shown⟩ := exists_of_gives shown
  obtain ⟨walk, walk'⟩ := of_decide_eq_true shown
  have size := of_decide_eq_true size
  have size' := of_decide_eq_true size'
  have size'' := of_decide_eq_true size''
  have var : ∀ {subst : Subst} {v count : Nat}, subst.size = count → v < count →
      subst.inRange (.var ⟨v⟩) :=
    fun same inside => .var (same.symm ▸ inside)
  have plain : ∀ {own : TyVar → Prop}, Unquantified own .unit := .tuple (List.forall_mem_nil _)
  have applied : ∀ {subst : Subst} {v count : Nat}, subst.size = count → v < count →
      subst.inRange (.app (.var ⟨v⟩) [.unit]) :=
    fun same inside => .app (var same inside) (List.forall_mem_singleton.mpr plain)
  have paired : ∀ {subst : Subst} {v count : Nat}, subst.size = count → v < count →
      subst.inRange (.tuple [.var ⟨v⟩, .unit]) :=
    fun same inside =>
      .tuple (List.forall_mem_cons.mpr ⟨var same inside, List.forall_mem_singleton.mpr plain⟩)
  have calls : Calls inRange empty third :=
    .tail (.tail (.tail (.tail (.tail (.tail (.tail .refl .fresh) .fresh) .fresh) .fresh)
      (.unify (applied rfl (by decide)) (paired rfl (by decide)) (.inl solved)))
      (.unify (var size (by decide)) (var size (by decide)) (.inl linked)))
      (.unify (applied size' (by decide)) (paired size' (by decide)) (.inl solved'))
  have alike := sound calls (var size'' (by decide)) (var size'' (by decide)) compared walk walk'
  -- The first components of the tuples do not correspond: only one of them is a parameter.
  cases alike with
  | quantified _ inside =>
    cases inside with
    | tuple _ each =>
      cases each (.var ⟨4⟩, .var ⟨6⟩) List.mem_cons_self with
      | var same => exact absurd same (by simp [Bound])

end Subst

end PolyCheck
