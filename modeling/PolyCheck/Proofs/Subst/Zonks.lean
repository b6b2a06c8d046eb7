import PolyCheck.Proofs.Subst.Shaped

/-! Resolution as a relation between a type and its result, whatever depth it takes. Where functions
on types are sections, an application resolves to the resolved function applied to the resolved
arguments, whether it is reduced before or after; every type resolves, and a type that was looked
through earlier resolves to the same result later. -/
namespace PolyCheck.Subst

variable {subst after : Subst} {world later : World} {ty ty' head function result result' : Ty}
  {types types' results parts args kept : List Ty} {params : List TyVar} {former : Former}
  {part part' : Ty → Ty → Prop} {depth : Nat} {v w : TyVar}

def Shallows (subst : Subst) (ty head : Ty) : Prop :=
  ∃ depth, subst.shallowWithin depth ty = some head

def Zonks (subst : Subst) (ty result : Ty) : Prop :=
  ∃ depth, subst.zonkWithin depth ty = some result

abbrev ZonksAll (subst : Subst) : List Ty → List Ty → Prop := List.Forall₂ subst.Zonks

section Relation

theorem forall₂_append_left_iff {α β : Type} {holds : α → β → Prop} {xs ys : List α} {zs : List β} :
    List.Forall₂ holds (xs ++ ys) zs ↔
      ∃ xs' ys', List.Forall₂ holds xs xs' ∧ List.Forall₂ holds ys ys' ∧ zs = xs' ++ ys' := by
  constructor
  · intro all
    refine ⟨zs.take xs.length, zs.drop xs.length, ?_, ?_, (List.take_append_drop _ _).symm⟩
    · simpa using List.forall₂_take xs.length all
    · simpa using List.forall₂_drop xs.length all
  · rintro ⟨xs', ys', first, second, rfl⟩
    exact List.rel_append first second

theorem Heads.shallows (heads : subst.Heads ty head) : subst.Shallows ty head := by
  induction heads with
  | @unsolved v free =>
    refine ⟨1, ?_⟩
    rw [shallowWithin]
    split
    · rename_i solution cell
      exact absurd cell (free solution)
    · rfl
  | solved cell _ ih =>
    obtain ⟨depth, walk⟩ := ih
    exact ⟨depth + 1, by rw [shallowWithin, cell]; exact walk⟩
  | arrow | tuple | nominal | quantified => exact ⟨1, rfl⟩
  | applied _ _ ihFirst ih =>
    obtain ⟨depth, walk⟩ := ihFirst
    obtain ⟨depth', walk'⟩ := ih
    refine ⟨max depth depth' + 1, ?_⟩
    rw [shallowWithin, shallowWithin_mono (Nat.le_max_left _ _) walk]
    exact shallowWithin_mono (Nat.le_max_right _ _) walk'
  | collected _ ih =>
    obtain ⟨depth, walk⟩ := ih
    exact ⟨depth + 1, by rw [shallowWithin, walk]⟩
  | @stuck _ other _ _ stuck ih =>
    obtain ⟨depth, walk⟩ := ih
    refine ⟨depth + 1, ?_⟩
    rw [shallowWithin, walk]
    cases other with
    | var _ | arrow _ _ | tuple _ | nominal _ _ => rfl
    | quantified _ _ | app _ _ => exact stuck.elim

theorem Shallows.heads (shallow : subst.Shallows ty head) : subst.Heads ty head := by
  obtain ⟨depth, walk⟩ := shallow
  exact heads_of_walk walk

theorem Shallows.unique (shallow : subst.Shallows ty head) (shallow' : subst.Shallows ty function) :
    head = function := by
  obtain ⟨depth, walk⟩ := shallow
  obtain ⟨depth', walk'⟩ := shallow'
  exact shallowWithin_unique walk walk'

theorem Zonks.unique (zonks : subst.Zonks ty result) (zonks' : subst.Zonks ty result') :
    result = result' := by
  obtain ⟨depth, walk⟩ := zonks
  obtain ⟨depth', walk'⟩ := zonks'
  have first := zonkWithin_mono (Nat.le_max_left depth depth') walk
  have second := zonkWithin_mono (Nat.le_max_right depth depth') walk'
  exact Option.some.inj (first.symm.trans second)

theorem ZonksAll.within (all : subst.ZonksAll types results) :
    ∃ depth, List.Forall₂ (fun t r => subst.zonkWithin depth t = some r) types results := by
  induction all with
  | nil => exact ⟨0, .nil⟩
  | cons first _ ih =>
    obtain ⟨depth, walk⟩ := first
    obtain ⟨depth', walks⟩ := ih
    refine ⟨max depth depth', .cons (zonkWithin_mono (Nat.le_max_left _ _) walk)
      (walks.imp fun _ _ => ?_)⟩
    exact zonkWithin_mono (Nat.le_max_right _ _)

theorem Rebuilt.within (rebuilt : Rebuilt subst.Zonks head result) :
    ∃ depth, Rebuilt (fun t r => subst.zonkWithin depth t = some r) head result := by
  cases rebuilt with
  | var v => exact ⟨0, .var v⟩
  | arrow fst snd =>
    obtain ⟨depth, walk⟩ := fst
    obtain ⟨depth', walk'⟩ := snd
    exact ⟨max depth depth', .arrow (zonkWithin_mono (Nat.le_max_left _ _) walk)
      (zonkWithin_mono (Nat.le_max_right _ _) walk')⟩
  | tuple each =>
    obtain ⟨depth, walks⟩ := ZonksAll.within each
    exact ⟨depth, .tuple walks⟩
  | nominal each =>
    obtain ⟨depth, walks⟩ := ZonksAll.within each
    exact ⟨depth, .nominal walks⟩
  | quantified inside =>
    obtain ⟨depth, walk⟩ := inside
    exact ⟨depth, .quantified walk⟩
  | app fst each =>
    obtain ⟨depth, walk⟩ := fst
    obtain ⟨depth', walks⟩ := ZonksAll.within each
    refine ⟨max depth depth', .app (zonkWithin_mono (Nat.le_max_left _ _) walk)
      (walks.imp fun _ _ => ?_)⟩
    exact zonkWithin_mono (Nat.le_max_right _ _)

/-- A type resolves when it has a head whose parts resolve. -/
theorem zonks_iff : subst.Zonks ty result ↔ ∃ head, subst.Shallows ty head ∧
    Rebuilt subst.Zonks head result := by
  constructor
  · rintro ⟨depth, walk⟩
    cases depth with
    | zero => cases walk
    | succ depth =>
      obtain ⟨head, shallow, rebuilt⟩ := zonkWithin_eq_some_iff.mp walk
      exact ⟨head, ⟨_, shallow⟩, rebuilt.mono fun _ _ walk => ⟨depth, walk⟩⟩
  · rintro ⟨head, ⟨depth, shallow⟩, rebuilt⟩
    obtain ⟨depth', rebuilt⟩ := rebuilt.within
    refine ⟨max depth depth' + 1,
      zonkWithin_eq_some_iff.mpr ⟨head, shallowWithin_mono ?_ shallow, ?_⟩⟩
    · exact Nat.le_succ_of_le (Nat.le_max_left _ _)
    · exact rebuilt.mono fun _ _ => zonkWithin_mono (Nat.le_max_right _ _)

theorem zonks_of_head (shallow : subst.Shallows ty head) : subst.Zonks ty result ↔
    Rebuilt subst.Zonks head result := by
  rw [zonks_iff]
  refine ⟨fun ⟨other, shallow', rebuilt⟩ => ?_, fun rebuilt => ⟨head, shallow, rebuilt⟩⟩
  exact shallow'.unique shallow ▸ rebuilt

theorem zonks_congr (same : ∀ head, subst.Shallows ty head ↔ subst.Shallows ty' head) :
    subst.Zonks ty result ↔ subst.Zonks ty' result := by
  simp only [zonks_iff, same]

end Relation

section Heads

theorem zonks_var (isNew : (subst.cell v).IsNew) : subst.Zonks (.var v) result ↔
    result = .var v := by
  rw [zonks_of_head ⟨1, shallowWithin_isNew isNew 0⟩]
  constructor
  · rintro ⟨⟩
    rfl
  · rintro rfl
    exact .var v

theorem zonks_quantified {body : Ty} : subst.Zonks (.quantified params body) result ↔
    ∃ body', subst.Zonks body body' ∧ result = .quantified params body' := by
  rw [zonks_of_head ⟨1, rfl⟩]
  constructor
  · rintro ⟨⟩
    exact ⟨_, ‹_›, rfl⟩
  · rintro ⟨body', inside, rfl⟩
    exact .quantified inside

theorem rebuilt_build_iff (takes : former.Takes parts.length) :
    Rebuilt part (former.build parts) result ↔ ∃ parts', List.Forall₂ part parts parts' ∧
      result = former.build parts' := by
  cases former with
  | arrow =>
    obtain ⟨p, r, rfl⟩ := List.length_eq_two.mp takes
    constructor
    · rintro ⟨⟩
      exact ⟨[_, _], .cons ‹_› (.cons ‹_› .nil), rfl⟩
    · rintro ⟨parts', each, rfl⟩
      obtain ⟨p', rest, fst, last, rfl⟩ := List.forall₂_cons_left_iff.mp each
      obtain ⟨r', rest, snd, none_, rfl⟩ := List.forall₂_cons_left_iff.mp last
      obtain rfl := List.forall₂_nil_left_iff.mp none_
      exact .arrow fst snd
  | tuple =>
    constructor
    · rintro ⟨⟩
      exact ⟨_, ‹_›, rfl⟩
    · rintro ⟨parts', each, rfl⟩
      exact .tuple each
  | nominal template =>
    constructor
    · rintro ⟨⟩
      exact ⟨_, ‹_›, rfl⟩
    · rintro ⟨parts', each, rfl⟩
      exact .nominal each

theorem zonks_build (takes : former.Takes parts.length) :
    subst.Zonks (former.build parts) result ↔ ∃ parts', subst.ZonksAll parts parts' ∧
      result = former.build parts' := by
  rw [zonks_of_head ⟨1, former.shallowWithin_build subst parts 0⟩, rebuilt_build_iff takes]

theorem zonksAll_params (isNew : ∀ p ∈ params, (subst.cell p).IsNew) :
    subst.ZonksAll (params.map .var) results ↔ results = params.map .var := by
  induction params generalizing results with
  | nil => simp
  | cons p params ih =>
    obtain ⟨first, rest⟩ := List.forall_mem_cons.mp isNew
    simp only [List.map_cons, List.forall₂_cons_left_iff, zonks_var first, ih rest]
    constructor
    · rintro ⟨_, _, rfl, rfl, rfl⟩
      rfl
    · rintro rfl
      exact ⟨_, _, rfl, rfl, rfl⟩

theorem zonks_lambda (takes : former.Takes (kept.length + params.length))
    (isNew : ∀ p ∈ params, (subst.cell p).IsNew) :
    subst.Zonks (former.lambda kept params) result ↔
      ∃ kept', subst.ZonksAll kept kept' ∧ result = former.lambda kept' params := by
  rw [Former.lambda, zonks_quantified]
  constructor
  · rintro ⟨body', inside, rfl⟩
    obtain ⟨parts', each, rfl⟩ := (zonks_build (by simpa using takes)).mp inside
    obtain ⟨kept', params', first, last, rfl⟩ := forall₂_append_left_iff.mp each
    exact ⟨kept', first, by rw [(zonksAll_params isNew).mp last, Former.lambda]⟩
  · rintro ⟨kept', each, rfl⟩
    refine ⟨_, (zonks_build (by simpa using takes)).mpr ⟨_, ?_, rfl⟩, rfl⟩
    exact List.rel_append each ((zonksAll_params isNew).mpr rfl)

theorem zonks_of_root (same : subst.root v = subst.root w) :
    subst.Zonks (.var v) result ↔ subst.Zonks (.var w) result := by
  refine zonks_congr fun head => exists_congr fun depth => ?_
  cases depth with
  | zero => rfl
  | succ depth => rw [shallowWithin, shallowWithin, rootCell, rootCell, same]

theorem zonks_solved (cell : subst.rootCell v = .bound ty) : subst.Zonks (.var v) result ↔
    subst.Zonks ty result := by
  refine zonks_congr fun head => ⟨fun ⟨depth, walk⟩ => ?_, fun ⟨depth, walk⟩ => ⟨depth + 1, ?_⟩⟩
  · cases depth with
    | zero => cases walk
    | succ depth =>
      rw [shallowWithin, cell] at walk
      exact ⟨depth, walk⟩
  · rw [shallowWithin, cell]
    exact walk

end Heads

section Application

def Applies (subst : Subst) (head : Ty) (args : List Ty) (result : Ty) : Prop :=
  ∃ function results, subst.Zonks head function ∧ subst.ZonksAll args results ∧
  result = function.apply results

/-- A head that takes no arguments and stays what it is. -/
def Stalled (subst : Subst) (head : Ty) : Prop :=
  head.IsStuck ∧ ∀ x, head = .var x → (subst.cell x).IsNew

theorem stalled_build (former : Former) (parts : List Ty) : subst.Stalled (former.build parts) := by
  refine ⟨former.isStuck_build parts, fun x same => ?_⟩
  cases former with
  | arrow =>
    rw [Former.build.eq_def] at same
    split at same <;> cases same
  | tuple | nominal _ => cases same

theorem applies_nil : subst.Applies head [] result ↔ subst.Zonks head result := by
  constructor
  · rintro ⟨function, results, zonks, all, rfl⟩
    obtain rfl := List.forall₂_nil_left_iff.mp all
    rwa [Ty.apply_nil]
  · exact fun zonks => ⟨result, [], zonks, .nil, (Ty.apply_nil _).symm⟩

theorem Stalled.shallowWithin (stalled : subst.Stalled head) (depth : Nat) :
    subst.shallowWithin (depth + 1) head = some head :=
  shallowWithin_stuck stalled.1 stalled.2 depth

theorem Stalled.zonks_app (stalled : subst.Stalled head) :
    subst.Zonks (.app head args) result ↔ subst.Applies head args result := by
  rw [zonks_of_head ⟨2, shallowWithin_stuck_app stalled.1 stalled.2 args 0⟩]
  constructor
  · rintro ⟨⟩
    exact ⟨_, _, ‹_›, ‹_›, rfl⟩
  · rintro ⟨function, results, zonks, all, rfl⟩
    exact .app zonks all

theorem Stalled.zonks_apply (stalled : subst.Stalled head) :
    subst.Zonks (head.apply args) result ↔ subst.Applies head args result := by
  rcases eq_or_ne args [] with rfl | given
  · rw [Ty.apply_nil, applies_nil]
  · rw [apply_stuck stalled.1 given, stalled.zonks_app]

/-- A walk finds a head that stays what it is, an application of such a head, or a function on
types. -/
theorem LinksEnd.shallows_cases (ends : subst.LinksEnd) (shallow : subst.Shallows ty head) :
    subst.Stalled head ∨ (∃ inner first, head = .app inner first ∧ subst.Stalled inner) ∨
      ∃ params body, head = .quantified params body := by
  obtain ⟨depth, walk⟩ := shallow
  obtain ⟨vars, apps⟩ := ends.shallowWithin_head walk
  cases head with
  | var _ | arrow _ _ | tuple _ | nominal _ _ => exact .inl ⟨trivial, vars⟩
  | app inner first => exact .inr (.inl ⟨inner, first, rfl, apps inner first rfl⟩)
  | quantified params body => exact .inr (.inr ⟨params, body, rfl⟩)

theorem LinksEnd.shallows_again (ends : subst.LinksEnd) (shallow : subst.Shallows ty head) :
    subst.Shallows head head := by
  rcases ends.shallows_cases shallow with stalled | ⟨inner, first, rfl,
    stalled⟩ | ⟨params, body, rfl⟩
  · exact ⟨1, stalled.shallowWithin 0⟩
  · exact ⟨2, shallowWithin_stuck_app stalled.1 stalled.2 first 0⟩
  · exact ⟨1, rfl⟩

theorem LinksEnd.zonks_head (ends : subst.LinksEnd) (shallow : subst.Shallows ty head) :
    subst.Zonks ty result ↔ subst.Zonks head result := by
  rw [zonks_of_head shallow, zonks_of_head (ends.shallows_again shallow)]

theorem shallows_head (shallow : subst.Shallows (.app head args) result) : ∃ function,
    subst.Shallows head function := by
  cases shallow.heads with
  | applied first _ | collected first | stuck first _ => exact ⟨_, first.shallows⟩

theorem LinksEnd.zonks_app_head (ends : subst.LinksEnd) (shallow : subst.Shallows head function) :
    subst.Zonks (.app head args) result ↔ subst.Zonks (function.apply args) result := by
  rcases ends.shallows_cases shallow with stalled | ⟨inner, first, rfl,
    stalled⟩ | ⟨params, body, rfl⟩
  · have together : subst.Heads (.app head args) (.app function args) :=
      .stuck shallow.heads stalled.1
    rw [ends.zonks_head together.shallows, stalled.zonks_app, stalled.zonks_apply]
  · have together : subst.Heads (.app head args) (.app inner (first ++ args)) :=
      .collected shallow.heads
    rw [ends.zonks_head together.shallows, Ty.apply_app]
  · refine zonks_congr fun other =>
      ⟨fun found => ?_, fun found => (Heads.applied shallow.heads found.heads).shallows⟩
    cases found.heads with
    | applied first rest =>
      obtain ⟨rfl, rfl⟩ := Ty.quantified.inj (first.shallows.unique shallow)
      exact rest.shallows
    | collected first => cases first.shallows.unique shallow
    | stuck first stuck =>
      exact ((first.shallows.unique shallow) ▸ stuck : Ty.IsStuck (.quantified params body)).elim

end Application

section Sections

variable {binder own : TyVar → Prop}

theorem zonkWithin_section (sections : Ty.Sections binder own former kept params)
    (isNew : ∀ p ∈ params, (subst.cell p).IsNew)
    (walk : subst.zonkWithin depth (former.build (kept ++ params.map .var)) = some result) :
    ∃ lower kept',
      lower < depth ∧ List.Forall₂ (fun t r => subst.zonkWithin lower t = some r) kept kept' ∧
      result = former.build (kept' ++ params.map .var) := by
  cases depth with
  | zero => cases walk
  | succ lower =>
    obtain ⟨head, shallow, rebuilt⟩ := zonkWithin_eq_some_iff.mp walk
    obtain rfl := Option.some.inj (shallow.symm.trans (former.shallowWithin_build subst _ _))
    obtain ⟨parts', each, rfl⟩ := (rebuilt_build_iff (by simpa using sections.takes)).mp rebuilt
    obtain ⟨kept', params', first, last, rfl⟩ := forall₂_append_left_iff.mp each
    refine ⟨lower, kept', Nat.lt_succ_self _, first, ?_⟩
    rw [(zonksAll_params isNew).mp (last.imp fun _ _ walk => ⟨lower, walk⟩)]

variable (here : subst.Shaped world)
include here

theorem Shaped.zonkWithin (sectional : ty.Sectional world.binder world.own)
    (walk : subst.zonkWithin depth ty = some result) : result.Sectional world.binder world.own := by
  induction depth using Nat.strongRecOn generalizing ty result with
  | ind depth ih =>
    cases depth with
    | zero => cases walk
    | succ depth =>
      obtain ⟨head, shallow, rebuilt⟩ := zonkWithin_eq_some_iff.mp walk
      have sectional := here.shallowWithin sectional shallow
      have all : ∀ {lower : Nat} {types results : List Ty}, lower < depth + 1 →
          List.Forall₂ (fun t r => subst.zonkWithin lower t = some r) types results →
          (∀ t ∈ types, t.Sectional world.binder world.own) → ∀ r ∈ results,
            r.Sectional world.binder world.own :=
        fun less walks each => forall_of_forall₂ walks each fun _ _ => ih _ less
      cases rebuilt with
      | var v => exact sectional
      | arrow fst snd =>
        cases sectional with
        | arrow fst' snd' =>
          exact .arrow (ih _ (Nat.lt_succ_self _) fst' fst) (ih _ (Nat.lt_succ_self _) snd' snd)
      | tuple walks =>
        cases sectional with
        | tuple each => exact .tuple (all (Nat.lt_succ_self _) walks each)
      | nominal walks =>
        cases sectional with
        | nominal each => exact .nominal (all (Nat.lt_succ_self _) walks each)
      | quantified inside =>
        obtain ⟨former, kept, rfl, sections⟩ := sectional.quantified_inv
        obtain ⟨lower, kept', less, walks, rfl⟩ :=
          zonkWithin_section sections
            (fun p member => here.isNew_binder (sections.binders p member)) inside
        exact (sections.replace walks.length_eq
          (all (Nat.lt_succ_of_lt less) walks sections.each)).sectional
      | app fst walks =>
        obtain ⟨fst', each⟩ := sectional.app_inv
        exact (ih _ (Nat.lt_succ_self _) fst' fst).apply here.apart
          (all (Nat.lt_succ_self _) walks each)

theorem Shaped.zonks (sectional : ty.Sectional world.binder world.own)
    (zonks : subst.Zonks ty result) : result.Sectional world.binder world.own := by
  obtain ⟨depth, walk⟩ := zonks
  exact here.zonkWithin sectional walk

theorem Shaped.zonksAll (each : ∀ t ∈ types, t.Sectional world.binder world.own)
    (all : subst.ZonksAll types results) : ∀ r ∈ results, r.Sectional world.binder world.own :=
  forall_of_forall₂ all each fun _ _ => here.zonks

theorem Shaped.zonks_section (sections : Ty.Sections world.binder world.own former kept params) :
    subst.Zonks (former.lambda kept params) result ↔
      ∃ kept', subst.ZonksAll kept kept' ∧ Ty.Sections world.binder world.own former kept' params ∧
        result = former.lambda kept' params := by
  rw [zonks_lambda sections.takes fun p member => here.isNew_binder (sections.binders p member)]
  refine exists_congr fun kept' => and_congr_right fun all => (and_iff_right ?_).symm
  exact sections.replace all.length_eq (here.zonksAll sections.each all)

theorem Shaped.applies_section (sections : Ty.Sections world.binder world.own former kept params) :
    subst.Applies (former.lambda kept params) args result ↔
      ∃ kept' args', subst.ZonksAll kept kept' ∧
        Ty.Sections world.binder world.own former kept' params ∧
        subst.ZonksAll args args' ∧ result = (former.lambda kept' params).apply args' := by
  rw [Applies]
  simp only [here.zonks_section sections]
  constructor
  · rintro ⟨_, args', ⟨kept', all, sections', rfl⟩, all', rfl⟩
    exact ⟨kept', args', all, sections', all', rfl⟩
  · rintro ⟨kept', args', all, sections', all', rfl⟩
    exact ⟨_, args', ⟨kept', all, sections', rfl⟩, all', rfl⟩

theorem Shaped.zonks_section_apply
    (sections : Ty.Sections world.binder world.own former kept params)
    (each : ∀ t ∈ args, t.Sectional world.binder world.own) :
    subst.Zonks ((former.lambda kept params).apply args) result ↔
      subst.Applies (former.lambda kept params) args result := by
  rcases eq_or_ne args [] with rfl | given
  · rw [Ty.apply_nil, applies_nil]
  rw [here.applies_section sections]
  rcases Nat.lt_or_ge args.length params.length with fewer | enough
  · have applied : ∀ {kept' args' : List Ty},
      Ty.Sections world.binder world.own former kept' params → args.length = args'.length →
        (former.lambda kept' params).apply args' = former.lambda (kept' ++ args')
          (params.drop args.length) := by
      intro kept' args' sections' length
      have given' : args' ≠ [] := List.ne_nil_of_length_pos (length ▸ List.length_pos_iff.mpr given)
      rw [sections'.apply_fewer here.apart given' (length ▸ fewer), length]
    rw [applied sections rfl, here.zonks_section (sections.fewer each fewer)]
    constructor
    · rintro ⟨_, all, -, rfl⟩
      obtain ⟨kept', args', first, last, rfl⟩ := forall₂_append_left_iff.mp all
      have sections' := sections.replace first.length_eq (here.zonksAll sections.each first)
      exact ⟨kept', args', first, sections', last, (applied sections' last.length_eq).symm⟩
    · rintro ⟨kept', args', first, sections', last, rfl⟩
      have fewer' : args'.length < params.length := last.length_eq ▸ fewer
      refine ⟨kept' ++ args', List.rel_append first last, ?_, applied sections' last.length_eq⟩
      exact last.length_eq ▸ sections'.fewer (here.zonksAll each last) fewer'
  · have applied : ∀ {kept' args' : List Ty},
      Ty.Sections world.binder world.own former kept' params →
        args.length = args'.length → (former.lambda kept' params).apply args' =
          (former.build (kept' ++ args'.take params.length)).apply (args'.drop params.length) :=
      fun sections' length => sections'.apply_enough here.apart (length ▸ enough)
    rw [applied sections rfl, (stalled_build former _).zonks_apply, Applies]
    simp only [zonks_build (sections.enough enough)]
    constructor
    · rintro ⟨_, rest', ⟨_, all, rfl⟩, rest, rfl⟩
      obtain ⟨kept', taken', first, taken, rfl⟩ := forall₂_append_left_iff.mp all
      have sections' := sections.replace first.length_eq (here.zonksAll sections.each first)
      have whole : subst.ZonksAll args (taken' ++ rest') := by
        rw [← List.take_append_drop params.length args]
        exact List.rel_append taken rest
      have length : params.length = taken'.length := by
        rw [← taken.length_eq, List.length_take, Nat.min_eq_left enough]
      refine ⟨kept', taken' ++ rest', first, sections', whole, ?_⟩
      rw [applied sections' whole.length_eq, length, List.take_left, List.drop_left]
    · rintro ⟨kept', args', first, sections', last, rfl⟩
      refine ⟨_, args'.drop params.length, ⟨_, ?_, rfl⟩, List.forall₂_drop _ last,
        applied sections' last.length_eq⟩
      exact List.rel_append first (List.forall₂_take _ last)

theorem Shaped.applies_app (sectional : head.Sectional world.binder world.own)
    (each : ∀ t ∈ types, t.Sectional world.binder world.own)
    (resolved : ∀ function, subst.Zonks (.app head types) function ↔
      subst.Applies head types function) :
    subst.Applies (.app head types) args result ↔ subst.Applies head (types ++ args) result := by
  have flat : ∀ {function : Ty} {firsts : List Ty} (others : List Ty), subst.Zonks head function →
      subst.ZonksAll types firsts → (function.apply firsts).apply others =
      function.apply (firsts ++ others) :=
    fun others zonks all => (here.zonks sectional zonks).apply_append here.apart
      (here.zonksAll each all) others
  rw [Applies, Applies]
  simp only [resolved, Applies]
  constructor
  · rintro ⟨_, others, ⟨function, firsts, zonks, all, rfl⟩, all', rfl⟩
    exact ⟨function, firsts ++ others, zonks, List.rel_append all all', flat others zonks all⟩
  · rintro ⟨function, _, zonks, all, rfl⟩
    obtain ⟨firsts, others, first, last, rfl⟩ := forall₂_append_left_iff.mp all
    exact ⟨_, others, ⟨function, firsts, zonks, first, rfl⟩, last, (flat others zonks first).symm⟩

theorem Shaped.zonks_app (sectional : head.Sectional world.binder world.own)
    (each : ∀ t ∈ args, t.Sectional world.binder world.own) :
    subst.Zonks (.app head args) result ↔ subst.Applies head args result := by
  have through : ∀ {function : Ty}, subst.Shallows head function →
      (subst.Zonks (.app head args) result ↔ subst.Applies head args result) := by
    intro function shallow
    have same : subst.Applies head args result ↔ subst.Applies function args result := by
      simp only [Applies, here.ends.zonks_head shallow]
    obtain ⟨depth, walk⟩ := id shallow
    have sectional' := here.shallowWithin sectional walk
    rw [here.ends.zonks_app_head shallow, same]
    rcases here.ends.shallows_cases shallow with stalled | ⟨inner, first, rfl,
      stalled⟩ | ⟨params, body, rfl⟩
    · exact stalled.zonks_apply
    · obtain ⟨fst, firsts⟩ := sectional'.app_inv
      rw [Ty.apply_app, stalled.zonks_app, here.applies_app fst firsts fun _ => stalled.zonks_app]
    · obtain ⟨former, kept, rfl, sections⟩ := sectional'.quantified_inv
      exact here.zonks_section_apply sections each
  constructor
  · intro zonks
    obtain ⟨_, shallow, -⟩ := zonks_iff.mp zonks
    obtain ⟨function, shallow⟩ := shallows_head shallow
    exact (through shallow).mp zonks
  · rintro applies
    obtain ⟨_, _, zonks, -⟩ := id applies
    obtain ⟨function, shallow, -⟩ := zonks_iff.mp zonks
    exact (through shallow).mpr applies

theorem Shaped.zonks_apply (sectional : head.Sectional world.binder world.own)
    (each : ∀ t ∈ args, t.Sectional world.binder world.own) :
    subst.Zonks (head.apply args) result ↔ subst.Applies head args result := by
  have stuck : head.IsStuck →
      (subst.Zonks (head.apply args) result ↔ subst.Applies head args result) := by
    intro stuck
    rcases eq_or_ne args [] with rfl | given
    · rw [Ty.apply_nil, applies_nil]
    · rw [apply_stuck stuck given, here.zonks_app sectional each]
  cases head with
  | var _ | arrow _ _ | tuple _ | nominal _ _ => exact stuck trivial
  | app inner first =>
    obtain ⟨fst, firsts⟩ := sectional.app_inv
    rw [Ty.apply_app, here.zonks_app fst (List.forall_mem_append.mpr ⟨firsts, each⟩),
      here.applies_app fst firsts fun _ => here.zonks_app fst firsts]
  | quantified params body =>
    obtain ⟨former, kept, rfl, sections⟩ := sectional.quantified_inv
    exact here.zonks_section_apply sections each

end Sections

section Ends

theorem exists_zonksAll (each : ∀ t ∈ types, ∃ result, subst.Zonks t result) : ∃ results,
    subst.ZonksAll types results := by
  induction types with
  | nil => exact ⟨[], .nil⟩
  | cons t types ih =>
    obtain ⟨⟨result, zonks⟩, rest⟩ := List.forall_mem_cons.mp each
    obtain ⟨results, all⟩ := ih rest
    exact ⟨result :: results, .cons zonks all⟩

variable (here : subst.Shaped world)
include here

theorem Shaped.zonks_of_leaves (sectional : ty.Sectional world.binder world.own)
    (leaves : ∀ v ∈ ty.leaves, world.own v → ∃ result, subst.Zonks (.var v) result) :
    ∃ result, subst.Zonks ty result := by
  have built : ∀ (former : Former) (parts : List Ty), former.Takes parts.length →
      (∀ t ∈ parts, ∃ result, subst.Zonks t result) → ∃ result,
      subst.Zonks (former.build parts) result := by
    intro former parts takes each
    obtain ⟨results, all⟩ := exists_zonksAll each
    exact ⟨_, (zonks_build takes).mpr ⟨results, all, rfl⟩⟩
  induction sectional with
  | @var v own => exact leaves v (List.mem_singleton_self v) own
  | @arrow p r _ _ ihParam ihResult =>
    refine built .arrow [p, r] rfl ?_
    simp only [Ty.leaves, List.mem_append] at leaves
    refine List.forall_mem_cons.mpr ⟨?_, List.forall_mem_singleton.mpr ?_⟩
    · exact ihParam fun v member => leaves v (.inl member)
    · exact ihResult fun v member => leaves v (.inr member)
  | @tuple elems _ ih =>
    simp only [Ty.leaves, Ty.mem_leavesAll] at leaves
    exact built .tuple elems trivial fun t member =>
      ih t member fun v inside => leaves v ⟨t, member, inside⟩
  | @nominal template args _ ih =>
    simp only [Ty.leaves, Ty.mem_leavesAll] at leaves
    exact built (.nominal template) args trivial fun t member =>
      ih t member fun v inside => leaves v ⟨t, member, inside⟩
  | @lambda former kept params takes some once binders each ih =>
    obtain ⟨results, all⟩ := exists_zonksAll fun t member =>
      ih t member fun v inside =>
        leaves v ((Former.mem_leaves_lambda takes).mpr (.inl ⟨t, member, inside⟩))
    exact ⟨_, (zonks_lambda takes fun p member => here.isNew_binder (binders p member)).mpr
      ⟨results, all, rfl⟩⟩
  | @app head args fst each ihHead ih =>
    simp only [Ty.leaves, List.mem_append, Ty.mem_leavesAll] at leaves
    obtain ⟨function, zonks⟩ := ihHead fun v inside => leaves v (.inl inside)
    obtain ⟨results, all⟩ := exists_zonksAll fun t member => ih t member fun v inside =>
      leaves v (.inr ⟨t, member, inside⟩)
    exact ⟨_, (here.zonks_app fst each).mpr ⟨function, results, zonks, all, rfl⟩⟩

/-- Every type resolves: solutions lead to other variables without cycles, and applications only
make types of components that resolve. -/
theorem Shaped.exists_zonks (sectional : ty.Sectional world.binder world.own) : ∃ result,
    subst.Zonks ty result := by
  refine here.zonks_of_leaves sectional fun v member own => ?_
  clear member
  induction v using here.acyclic.induction with
  | h v ih =>
    cases cell : subst.cell v with
    | unbound => exact ⟨_, (zonks_var (cell ▸ Cell.isNew_unbound)).mpr rfl⟩
    | rigid name => exact ⟨_, (zonks_var (cell ▸ Cell.isNew_rigid name)).mpr rfl⟩
    | link w =>
      obtain ⟨result, zonks⟩ := ih w (uses_of_link cell) (here.confines.linked own cell)
      exact ⟨result, (zonks_of_root (here.ends.root_of_link cell)).mpr zonks⟩
    | bound solved =>
      have root : subst.root v = v := root_of_not_link fun w link => by simp [cell] at link
      obtain ⟨result, zonks⟩ := here.zonks_of_leaves (here.sections cell)
        fun w member own => ih w (uses_of_bound cell member) own
      exact ⟨result, (zonks_solved (by rwa [rootCell, root])).mpr zonks⟩

end Ends

section Later

/-- What is known of a cell stays so. -/
def Persists (subst after : Subst) : Prop :=
  ∀ v, subst.cell v = .unbound ∨ after.cell v = subst.cell v

theorem Persists.refl (subst : Subst) : subst.Persists subst := fun _ => .inr rfl

theorem Persists.trans {middle : Subst} (first : subst.Persists middle)
    (second : middle.Persists after) : subst.Persists after := by
  intro v
  rcases first v with unbound | same
  · exact .inl unbound
  · rcases second v with unbound | same'
    · exact .inl (same ▸ unbound)
    · exact .inr (same'.trans same)

theorem persists_write (unbound : subst.cell v = .unbound) (cell : Cell) :
    subst.Persists (subst.write v cell) := by
  intro w
  by_cases same : w = v
  · exact .inl (same ▸ unbound)
  · exact .inr (cell_write_of_ne same cell)

theorem Lengthened.persists (longer : subst.Lengthened after) : subst.Persists after := by
  intro v
  by_cases inside : v.index < subst.size
  · exact .inr (longer.cells inside)
  · exact .inl (cell_of_size_le (Nat.le_of_not_lt inside))

theorem Persists.root (persists : subst.Persists after) (ends : subst.LinksEnd)
    (ends' : after.LinksEnd) (v : TyVar) : after.root v = after.root (subst.root v) := by
  induction v using ends.linkInduction with
  | unlinked v notLink => rw [root_of_not_link notLink]
  | linked v w cell ih =>
    have cell' : after.cell v = .link w := by
      rcases persists v with unbound | same
      · simp [cell] at unbound
      · exact same.trans cell
    rw [ends'.root_of_link cell', ih, ends.root_of_link cell]

theorem transfer_forall₂ {α β γ : Type} {first : α → β → Prop} {second : α → γ → Prop}
    {third : β → γ → Prop}
    {xs : List α} {ys : List β} {zs : List γ} (all : List.Forall₂ first xs ys)
    (all' : List.Forall₂ second xs zs)
    (each : ∀ x ∈ xs, ∀ y z, first x y → second x z → third y z) : List.Forall₂ third ys zs := by
  induction all generalizing zs with
  | nil =>
    obtain rfl := List.forall₂_nil_left_iff.mp all'
    exact .nil
  | cons here _ ih =>
    obtain ⟨z, zs, here', rest, rfl⟩ := List.forall₂_cons_left_iff.mp all'
    refine .cons (each _ List.mem_cons_self _ _ here here') (ih rest fun x member => ?_)
    exact each x (List.mem_cons_of_mem _ member)

variable (here : subst.Shaped world) (there : after.Shaped later) (grown : world ≤ later)
  (persists : subst.Persists after)
include here there grown persists

theorem zonks_of_shallow (sectional : ty.Sectional world.binder world.own)
    (walk : subst.shallowWithin depth ty = some head) (zonks : after.Zonks ty result) :
      after.Zonks head result := by
  have lift : ∀ {t : Ty}, t.Sectional world.binder world.own → t.Sectional later.binder later.own :=
    fun sectional => sectional.mono grown.2 grown.1
  have roots : ∀ {v : TyVar} {result : Ty}, after.Zonks (.var v) result →
      after.Zonks (.var (subst.root v)) result :=
    (zonks_of_root (persists.root here.ends there.ends _)).mp
  replace walk := heads_of_walk walk
  induction walk generalizing result with
  | unsolved _ => exact roots zonks
  | @solved v solution _ cell _ ih =>
    rw [rootCell] at cell
    have cell' : after.cell (subst.root v) = .bound solution := by
      rcases persists (subst.root v) with unbound | same
      · simp [cell] at unbound
      · exact same.trans cell
    have root : after.root (subst.root v) = subst.root v := root_of_not_link fun w link => by
      simp [cell'] at link
    exact ih (here.sections cell) ((zonks_solved (by rwa [rootCell, root])).mp (roots zonks))
  | arrow | tuple | nominal | quantified => exact zonks
  | applied first _ ihFirst ih =>
    obtain ⟨fst, each⟩ := sectional.app_inv
    have each' := fun t member => lift (each t member)
    have found := here.heads fst first
    obtain ⟨function, results, inHead, inArgs, rfl⟩ := (there.zonks_app (lift fst) each').mp zonks
    refine ih (found.apply here.apart each) ((there.zonks_apply (lift found) each').mpr ?_)
    exact ⟨function, results, ihFirst fst inHead, inArgs, rfl⟩
  | collected first ih =>
    obtain ⟨fst, each⟩ := sectional.app_inv
    have each' := fun t member => lift (each t member)
    obtain ⟨fst', firsts⟩ := (here.heads fst first).app_inv
    have firsts' := fun t member => lift (firsts t member)
    obtain ⟨function, results, inHead, inArgs, rfl⟩ := (there.zonks_app (lift fst) each').mp zonks
    rw [there.zonks_app (lift fst') (List.forall_mem_append.mpr ⟨firsts', each'⟩),
      ← there.applies_app (lift fst') firsts' fun _ => there.zonks_app (lift fst') firsts']
    exact ⟨function, results, ih fst inHead, inArgs, rfl⟩
  | stuck first _ ih =>
    obtain ⟨fst, each⟩ := sectional.app_inv
    have each' := fun t member => lift (each t member)
    obtain ⟨function, results, inHead, inArgs, rfl⟩ := (there.zonks_app (lift fst) each').mp zonks
    rw [there.zonks_app (lift (here.heads fst first)) each']
    exact ⟨function, results, ih fst inHead, inArgs, rfl⟩

theorem zonks_of_zonk (sectional : ty.Sectional world.binder world.own)
    (walk : subst.zonkWithin depth ty = some ty') (zonks : after.Zonks ty result) :
      after.Zonks ty' result := by
  have lift : ∀ {t : Ty}, t.Sectional world.binder world.own → t.Sectional later.binder later.own :=
    fun sectional => sectional.mono grown.2 grown.1
  induction depth using Nat.strongRecOn generalizing ty ty' result with
  | ind depth ih =>
    cases depth with
    | zero => cases walk
    | succ depth =>
      obtain ⟨head, shallow, rebuilt⟩ := zonkWithin_eq_some_iff.mp walk
      have sectional' := here.shallowWithin sectional shallow
      have zonks' := zonks_of_shallow here there grown persists sectional shallow zonks
      have all : ∀ {lower : Nat} {types types' results : List Ty}, lower < depth + 1 →
          (∀ t ∈ types, t.Sectional world.binder world.own) →
          List.Forall₂ (fun t r => subst.zonkWithin lower t = some r) types types' →
          after.ZonksAll types results → after.ZonksAll types' results :=
        fun less each walks all => transfer_forall₂ walks all fun t member _ _ =>
          ih _ less (each t member)
      have built : ∀ (former : Former) (parts : List Ty) {parts' : List Ty},
        former.Takes parts.length → (∀ t ∈ parts, t.Sectional world.binder world.own) →
          List.Forall₂ (fun t r => subst.zonkWithin depth t = some r) parts parts' →
          after.Zonks (former.build parts) result → after.Zonks (former.build parts') result := by
        intro former parts parts' takes each walks zonks
        obtain ⟨results, inParts, rfl⟩ := (zonks_build takes).mp zonks
        exact (zonks_build (walks.length_eq ▸ takes)).mpr ⟨results,
          all (Nat.lt_succ_self _) each walks inParts, rfl⟩
      cases rebuilt with
      | var v => exact zonks'
      | @arrow p r p' r' fst snd =>
        cases sectional' with
        | arrow fst' snd' =>
          exact built .arrow [p, r] rfl (by simp [fst', snd']) (.cons fst (.cons snd .nil)) zonks'
      | tuple walks =>
        cases sectional' with
        | tuple each => exact built .tuple _ trivial each walks zonks'
      | @nominal template args args' walks =>
        cases sectional' with
        | nominal each => exact built (.nominal template) args trivial each walks zonks'
      | @quantified params body body' inside =>
        obtain ⟨former, kept, rfl, sections⟩ := sectional'.quantified_inv
        obtain ⟨lower, kept', less, walks, rfl⟩ :=
          zonkWithin_section sections
            (fun p member => here.isNew_binder (sections.binders p member)) inside
        have isNew : ∀ p ∈ params, (after.cell p).IsNew := fun p member =>
          there.isNew_binder (grown.2 p (sections.binders p member))
        obtain ⟨results, inKept, rfl⟩ := (zonks_lambda sections.takes isNew).mp zonks'
        have takes' := walks.length_eq ▸ sections.takes
        exact (zonks_lambda takes' isNew).mpr ⟨results,
          all (Nat.lt_succ_of_lt less) sections.each walks inKept, rfl⟩
      | app fst walks =>
        obtain ⟨fst', each⟩ := sectional'.app_inv
        obtain ⟨function, results, inHead, inArgs, rfl⟩ :=
          (there.zonks_app (lift fst') fun t member => lift (each t member)).mp zonks'
        have inHead' := ih _ (Nat.lt_succ_self _) fst' fst inHead
        have inArgs' := all (Nat.lt_succ_self _) each walks inArgs
        refine (there.zonks_apply (lift (here.zonkWithin fst' fst)) ?_).mpr ⟨function, results,
          inHead', inArgs', rfl⟩
        exact forall_of_forall₂ walks each fun _ _ sectional walk =>
          lift (here.zonkWithin sectional walk)

end Later

end PolyCheck.Subst
