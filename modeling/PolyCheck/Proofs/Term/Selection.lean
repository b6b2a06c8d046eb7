import PolyCheck.Proofs.Term.Decision

/-! Evaluation of decision trees. A tree built for a problem evaluates the action of the line that
the problem selects, with what this line captures, and fails if no line is selected. The induction
is on the weight of problems, as the construction is. -/
namespace PolyCheck.Decision

open Pat (match? matchAll?)
open Term (evalWith evalAllWith evalArmsWith)

variable {subst : Subst} {registry : Registry} {actions : List Term} {ty : Ty}
  {supply supply' : NameSupply}

section Construction

theorem mapM_attach {α β σ : Type} (items : List α) (visit : α → StateM σ β) (state : σ) :
    (items.attach.mapM fun item => visit item.1) state = items.mapM visit state := by
  rw [List.mapM_subtype fun _ _ => rfl, List.unattach_attach]

theorem build_eq (problem : Problem) (supply : NameSupply) :
    build subst registry actions ty problem supply =
      match (problem.step subst registry).run supply with
      | (.fail, supply) => (.failure ty, supply)
      | (.leaf line, supply) => (leafTerm actions ty problem.sources line, supply)
      | (.again rest, supply) => build subst registry actions ty rest supply
      | (.switch source parts, supply) =>
        let (arms, supply) := (parts.mapM fun part => do
          let body ← build subst registry actions ty part.2
          pure (Arm.mk part.1 body) : StateM NameSupply (List Arm)).run supply
        (.matchOn source arms ty, supply) := by
  rw [build]
  generalize step_below subst registry problem supply = below
  revert below
  generalize (problem.step subst registry).run supply = stepped
  intro below
  obtain ⟨step, supply⟩ := stepped
  cases step with
  | fail => rfl
  | leaf line => rfl
  | again rest => rfl
  | switch source parts =>
    exact congrArg (fun result : List Arm × NameSupply =>
      (Term.matchOn source result.1 ty, result.2)) (mapM_attach parts (fun part => do
        let body ← build subst registry actions ty part.2
        pure (Arm.mk part.1 body)) supply)

structure Minted (supply supply' : NameSupply) (names : List Name) : Prop where
  distinct : names.Nodup
  fresh : ∀ name ∈ names, ¬ supply.Spent name
  spent : ∀ name ∈ names, supply'.Spent name

theorem Minted.widen {first last : NameSupply} {names : List Name}
    (minted : Minted supply supply' names) (le : first.next ≤ supply.next)
    (le' : supply'.next ≤ last.next) : Minted first last names where
  distinct := minted.distinct
  fresh name member spent := minted.fresh name member (spent.mono le)
  spent name member := (minted.spent name member).mono le'

theorem mintFields_spec (types : List Ty) (supply : NameSupply) :
    ∃ names, (mintFields types supply).1 = names.zipWith Term.var types ∧
      names.length = types.length ∧ Minted supply (mintFields types supply).2 names ∧
      supply.next ≤ (mintFields types supply).2.next := by
  induction types generalizing supply with
  | nil => exact ⟨[], rfl, rfl, ⟨.nil, nofun, nofun⟩, Nat.le_refl _⟩
  | cons ty types ih =>
    have inTree : "f" ∈ treeStems := by decide
    obtain ⟨names, fields, length, minted, le⟩ := ih (supply.mint "f").2
    have spent := supply.spent_mint inTree
    refine ⟨(supply.mint "f").1 :: names, congrArg (Term.var _ ty :: ·) fields,
      congrArg Nat.succ length, ⟨?_, ?_, ?_⟩, Nat.le_trans (Nat.le_succ _) le⟩
    · exact List.nodup_cons.mpr ⟨fun member => minted.fresh _ member spent, minted.distinct⟩
    · intro name member
      rcases List.mem_cons.mp member with rfl | member
      · exact supply.not_spent_mint inTree
      · exact fun early => minted.fresh name member (early.mono (Nat.le_succ _))
    · intro name member
      rcases List.mem_cons.mp member with rfl | member
      · exact spent.mono le
      · exact minted.spent name member

variable {family : Family} {problem : Problem} {col : Nat}

def IsBranch (registry : Registry) (family : Family) (problem : Problem) (col : Nat)
    (supply supply' : NameSupply) (head : Head) (part : Pat × Problem) : Prop :=
  ∃ names, names.length = (family.fieldTypes registry head).length ∧ Minted supply supply' names ∧
    part = ((family.pattern registry head).withFields (names.map Pat.capturing),
      problem.specialize col head (names.zipWith Term.var (family.fieldTypes registry head)))

theorem binder_fields {names : List Name} {types : List Ty} (length : names.length = types.length) :
    (names.zipWith Term.var types).map binder = names.map Pat.capturing := by
  induction names generalizing types with
  | nil => rfl
  | cons name names ih =>
    cases types with
    | nil => simp at length
    | cons ty types =>
      simp only [List.zipWith_cons_cons, List.map_cons, ih (Nat.succ.inj length)]
      rfl

theorem types_fields {names : List Name} {types : List Ty} (length : names.length = types.length) :
    (names.zipWith Term.var types).map Term.ty = types := by
  induction names generalizing types with
  | nil => exact (List.eq_nil_of_length_eq_zero length.symm).symm
  | cons name names ih =>
    cases types with
    | nil => simp at length
    | cons ty types => exact congrArg (ty :: ·) (ih (Nat.succ.inj length))

theorem branches_spec (registry : Registry) (family : Family) (problem : Problem) (col : Nat)
    (heads : List Head) (supply : NameSupply) :
    List.Forall₂ (IsBranch registry family problem col supply
        (branches registry family problem col heads supply).2) heads
        (branches registry family problem col heads supply).1 ∧
      supply.next ≤ (branches registry family problem col heads supply).2.next := by
  induction heads generalizing supply with
  | nil => exact ⟨.nil, Nat.le_refl _⟩
  | cons head heads ih =>
    obtain ⟨names, fields, length, minted, le⟩ :=
      mintFields_spec (family.fieldTypes registry head) supply
    obtain ⟨each, le'⟩ := ih (mintFields (family.fieldTypes registry head) supply).2
    refine ⟨.cons ⟨names, length, minted.widen (Nat.le_refl _) le', ?_⟩ ?_, Nat.le_trans le le'⟩
    · rw [fields, binder_fields length]
    · refine each.imp fun _ _ branch => ?_
      obtain ⟨names, length, minted, same⟩ := branch
      exact ⟨names, length, minted.widen le (Nat.le_refl _), same⟩

/-- Cases built for the parts of a switch, one after the other. -/
def Built (subst : Subst) (registry : Registry) (actions : List Term) (ty : Ty)
    (supply : NameSupply) (part : Pat × Problem) (arm : Arm) : Prop :=
  arm.pat = part.1 ∧ ∃ start : NameSupply, supply.next ≤ start.next ∧
    arm.body = (build subst registry actions ty part.2 start).1

theorem built_parts {parts : List (Pat × Problem)}
    (grows : ∀ part ∈ parts, ∀ supply : NameSupply,
      supply.next ≤ (build subst registry actions ty part.2 supply).2.next) (supply : NameSupply) :
    List.Forall₂ (Built subst registry actions ty supply) parts
        ((parts.mapM fun part => do
          let body ← build subst registry actions ty part.2
          pure (Arm.mk part.1 body) : StateM NameSupply (List Arm)) supply).1 ∧
      supply.next ≤ ((parts.mapM fun part => do
        let body ← build subst registry actions ty part.2
        pure (Arm.mk part.1 body) : StateM NameSupply (List Arm)) supply).2.next := by
  induction parts generalizing supply with
  | nil => exact ⟨.nil, Nat.le_refl _⟩
  | cons part parts ih =>
    have le := grows part List.mem_cons_self supply
    obtain ⟨each, le'⟩ := ih (fun other member => grows other (List.mem_cons_of_mem part member))
      (build subst registry actions ty part.2 supply).2
    rw [List.mapM_cons]
    refine ⟨.cons ⟨rfl, supply, Nat.le_refl _, rfl⟩ ?_, Nat.le_trans le le'⟩
    exact each.imp fun _ _ ⟨pat, start, after, body⟩ => ⟨pat, start, Nat.le_trans le after, body⟩

/-- The branch for values with other heads, unless there are none. -/
def fallback (registry : Registry) (family : Family) (problem : Problem) (col : Nat) :
    List (Pat × Problem) :=
  if family.isOpen || !family.spannedBy registry (problem.heads col) then
    [(.any, problem.default col)]
  else []

theorem split_spec (registry : Registry) (family : Family) (problem : Problem) (col : Nat)
    (supply : NameSupply) :
    ∃ tested supply', (problem.split registry family col).run supply =
        (.switch (problem.sourceAt col) (tested ++ fallback registry family problem col), supply') ∧
      List.Forall₂ (IsBranch registry family problem col supply supply')
      (problem.heads col) tested ∧
      supply.next ≤ supply'.next := by
  obtain ⟨each, le⟩ := branches_spec registry family problem col (problem.heads col) supply
  refine ⟨_, _, ?_, each, le⟩
  simp only [Problem.split, StateT.run_bind, fallback]
  split
  · rfl
  · rw [List.append_nil]
    rfl

theorem le_step (problem : Problem) (supply : NameSupply) :
    supply.next ≤ ((problem.step subst registry).run supply).2.next := by
  unfold Problem.step
  split
  · exact Nat.le_refl _
  · split
    · exact Nat.le_refl _
    · rename_i col _
      split
      · exact Nat.le_refl _
      · obtain ⟨tested, supply', run, -, le⟩ := split_spec registry
          (.of (problem.sourceAt col).ty subst registry) problem col supply
        rw [run]
        exact le

theorem le_build (problem : Problem) (supply : NameSupply) :
    supply.next ≤ (build subst registry actions ty problem supply).2.next := by
  induction weight : problem.weight using Nat.strongRecOn generalizing problem supply with
  | ind bound ih =>
    subst weight
    have below := step_below subst registry problem supply
    have le := @le_step subst registry problem supply
    rw [build_eq]
    rcases stepped : (problem.step subst registry).run supply with ⟨step, supply'⟩
    rw [stepped] at below le
    cases step with
    | fail => exact le
    | leaf line => exact le
    | again rest => exact Nat.le_trans le (ih rest.weight below rest supply' rfl)
    | switch source parts =>
      refine Nat.le_trans le (built_parts (fun part member later => ?_) supply').2
      exact ih part.2.weight (below part member) part.2 later rfl

end Construction

section Leaves

variable {call : Term → Bindings → Outcome} {env : Bindings} {entries : List (Name × Term)}
  {values : List Value} {source : Term} {value : Value}

theorem eval_held (held : held? env source = some value) :
    evalWith call env source = .ok value := by
  cases source with
  | var name _ =>
    simp only [held?] at held
    simp [evalWith, held]
  | lit _ _ | tuple _ _ | ctor _ _ _ _ _ | lambda _ _ _ _ | app _ _ _ | letIn _ _ _ _
  | matchOn _ _ _ | failure _ => simp [held?] at held

theorem evalAll_held (held : List.Forall₂ (held? env · = some ·) (entries.map (·.2)) values) :
    evalAllWith call env (entries.map (·.2)) = .ok values := by
  induction entries generalizing values with
  | nil =>
    cases held
    rfl
  | cons entry entries ih =>
    cases held with
    | cons first rest =>
      rw [List.map_cons, evalAllWith, eval_held first, ih rest]
      rfl

theorem matchAll?_capturing {names : List Name} (length : names.length = values.length) :
    matchAll? (names.map Pat.capturing) values = some (names.zip values) := by
  induction names generalizing values with
  | nil =>
    cases values with
    | nil => rw [List.map_nil, matchAll?, List.zip_nil_left]
    | cons _ _ => simp at length
  | cons name names ih =>
    cases values with
    | nil => simp at length
    | cons value values =>
      rw [List.map_cons, matchAll?, ih (Nat.succ.inj length), Pat.capturing, Pat.match?_wild]
      rfl

theorem eval_leafTerm {sources : List Term} {line : Line}
    (held : List.Forall₂ (held? env · = some ·) ((line.allCaptured sources).map (·.2)) values) :
    evalWith call env (leafTerm actions ty sources line) =
      evalWith call (env ++ ((line.allCaptured sources).map (·.1)).zip values)
        (actions[line.action]?.getD (.failure ty)) := by
  unfold leafTerm
  generalize line.allCaptured sources = entries at held
  rcases entries with _ | ⟨⟨name, source⟩, _ | ⟨⟨name', source'⟩, rest⟩⟩
  · cases held
    simp
  · obtain ⟨value, values, first, last, rfl⟩ := List.forall₂_cons_left_iff.mp held
    cases last
    simp only [evalWith, eval_held first, evalArmsWith, Pat.capturing, Pat.match?_wild]
    rfl
  · have capturing : (((name, source) :: (name', source') :: rest).map fun entry =>
        Pat.capturing entry.1) =
          (((name, source) :: (name', source') :: rest).map (·.1)).map Pat.capturing := by
      rw [List.map_map]
      rfl
    have all := @evalAll_held call env _ _ held
    have length : (((name, source) :: (name', source') :: rest).map (·.1)).length =
        values.length := by
      rw [← held.length_eq, List.length_map, List.length_map]
    have matched := matchAll?_capturing length
    simp only [evalWith, all, evalArmsWith, match?, bind, Except.bind, pure, Except.pure]
    simp only [capturing, matched]

theorem zip_held (held : ∀ entry ∈ entries, ∃ value, held? env entry.2 = some value) :
    ∃ values, List.Forall₂ (held? env · = some ·) (entries.map (·.2)) values ∧
      entries.filterMap (fun (name, source) => (held? env source).map (name, ·)) =
        (entries.map (·.1)).zip values := by
  induction entries with
  | nil => exact ⟨[], .nil, rfl⟩
  | cons entry entries ih =>
    obtain ⟨name, source⟩ := entry
    obtain ⟨value, found⟩ := held _ List.mem_cons_self
    obtain ⟨values, each, rest⟩ := ih fun other member => held other (List.mem_cons_of_mem _ member)
    refine ⟨value :: values, .cons found each, ?_⟩
    simp only [] at found
    simp only [List.filterMap_cons, found, Option.map_some, rest]
    rfl

theorem matchAll?_wilds {row : Row} {sources : List Term}
    (wild : ∀ p ∈ row, p.isWild = true) (length : row.length = sources.length)
    (held : List.Forall₂ (held? env · = some ·) sources values) :
    matchAll? row values = some (((row.zip sources).filterMap fun
      | (.wild (some name), source) => some (name, source)
      | _ => none).filterMap fun (name, source) => (held? env source).map (name, ·)) := by
  induction row generalizing sources values with
  | nil =>
    cases held with
    | nil => rw [matchAll?]; rfl
    | cons _ _ => simp at length
  | cons p row ih =>
    cases held with
    | nil => simp at length
    | @cons source value sources values found rest =>
      have others := ih (fun q member => wild q (List.mem_cons_of_mem p member))
        (Nat.succ.inj length) rest
      have here := wild p List.mem_cons_self
      rw [matchAll?, others]
      cases p with
      | wild capture =>
        cases capture with
        | none => rfl
        | some name => simp [match?, found]
      | bool _ | int _ _ | str _ | tuple _ | ctor _ _ _ _ | oneOf _ => simp [Pat.isWild] at here

theorem Problem.Sound.leaf {problem : Problem}
    (sound : problem.Sound subst registry supply env values) {line : Line}
    (member : line ∈ problem.lines) (wild : Problem.column? line = none) :
    ∃ bindings, line.select? env values = some bindings ∧
      evalWith call env (leafTerm actions ty problem.sources line) =
        evalWith call (env ++ bindings) (actions[line.action]?.getD (.failure ty)) := by
  have each : ∀ p ∈ line.pats, p.isWild = true := by
    simpa [Problem.column?, List.findIdx?_eq_none_iff] using wild
  have held : List.Forall₂ (held? env · = some ·) problem.sources values :=
    sound.sources.imp fun _ _ holds => holds.held
  have length : line.pats.length = problem.sources.length := by
    rw [(sound.lines line member).typed.length_eq, List.length_map]
  have captured : ∀ entry ∈ line.allCaptured problem.sources,
      ∃ value, held? env entry.2 = some value := by
    intro entry inside
    rcases List.mem_append.mp inside with inside | inside
    · obtain ⟨value, holds⟩ := (sound.lines line member).captured entry inside
      exact ⟨value, holds.held⟩
    · obtain ⟨⟨p, source⟩, inZip, found⟩ := List.mem_filterMap.mp inside
      obtain ⟨value, -, holds⟩ := forall₂_of_mem held (List.of_mem_zip inZip).2
      split at found
      · rename_i same
        obtain ⟨-, rfl⟩ := Prod.mk.inj same
        obtain rfl := Option.some.inj found
        exact ⟨value, holds⟩
      · simp at found
  obtain ⟨shown, heldShown, same⟩ := zip_held captured
  refine ⟨_, ?_, eval_leafTerm heldShown⟩
  rw [← same, Line.allCaptured, List.filterMap_append, Line.select?,
    matchAll?_wilds each length held]
  rfl

end Leaves

section Trees

variable {call : Term → Bindings → Outcome} {env hidden : Bindings} {values fields : List Value}
  {tree tree' : Term} {selected selected' : Option (Nat × Bindings)}

/-- A tree that evaluates the selected action with what was captured, beside hidden names, and fails
when there is none. -/
def Reaches (call : Term → Bindings → Outcome) (actions : List Term) (ty : Ty) (supply : NameSupply)
    (env : Bindings) (tree : Term) : Option (Nat × Bindings) → Prop
  | none => evalWith call env tree = .error .failure
  | some (action, bindings) => ∃ hidden captured : Bindings,
    (∀ entry ∈ hidden, ¬ supply.Spent entry.1) ∧ captured.Perm bindings ∧
      evalWith call env tree =
        evalWith call (env ++ hidden ++ captured) (actions[action]?.getD (.failure ty))

theorem Reaches.agrees (reaches : Reaches call actions ty supply env tree selected)
    (agrees : Agrees selected selected') : Reaches call actions ty supply env tree selected' := by
  cases agrees with
  | none => exact reaches
  | some same =>
    obtain ⟨hidden, captured, minted, perm, result⟩ := reaches
    obtain ⟨action, perm'⟩ := same
    exact ⟨hidden, captured, minted, perm.trans perm', action ▸ result⟩

theorem Reaches.below (reaches : Reaches call actions ty supply' (env ++ hidden) tree selected)
    (minted : ∀ entry ∈ hidden, ¬ supply.Spent entry.1) (le : supply.next ≤ supply'.next)
    (same : evalWith call env tree' = evalWith call (env ++ hidden) tree) :
    Reaches call actions ty supply env tree' selected := by
  cases selected with
  | none => exact same.trans reaches
  | some result =>
    obtain ⟨hidden', captured, minted', perm, result⟩ := reaches
    refine ⟨hidden ++ hidden', captured, fun entry member => ?_, perm, same.trans ?_⟩
    · rcases List.mem_append.mp member with member | member
      · exact minted entry member
      · exact fun spent => minted' entry member (spent.mono le)
    · rw [result, List.append_assoc env]

variable {family : Family} {problem : Problem} {col : Nat} {heads : List Head} {head : Head}
  {tested extra : List (Pat × Problem)} {arms : List Arm}

theorem evalArms_branches
    (each : List.Forall₂ (IsBranch registry family problem col supply supply') heads tested)
    (built : List.Forall₂ (Built subst registry actions ty supply') (tested ++ extra) arms)
    (known : ∀ other ∈ heads, family.Has registry other) (has : family.Has registry head)
    (arity : fields.length = (family.fieldTypes registry head).length) :
    (head ∈ heads ∧ ∃ names, ∃ start : NameSupply, Minted supply supply' names ∧
        names.length = fields.length ∧ supply'.next ≤ start.next ∧
        evalArmsWith call env (.build head fields) arms =
          evalWith call (env ++ names.zip fields) (build subst registry actions ty
            (problem.specialize col head
              (names.zipWith Term.var (family.fieldTypes registry head))) start).1) ∨
      head ∉ heads ∧ ∃ rest, List.Forall₂ (Built subst registry actions ty supply') extra rest ∧
        evalArmsWith call env (.build head fields) arms =
          evalArmsWith call env (.build head fields) rest := by
  induction each generalizing arms with
  | nil => exact .inr ⟨List.not_mem_nil, arms, built, rfl⟩
  | @cons other part heads tested branch each ih =>
    obtain ⟨names, length, minted, rfl⟩ := branch
    cases built with
    | @cons _ arm _ arms here built =>
      obtain ⟨pat, body⟩ := arm
      obtain ⟨rfl, start, after, rfl⟩ := here
      have hasOther := known other List.mem_cons_self
      have binders : (names.map Pat.capturing).length = family.arity registry other := by
        rw [List.length_map, length, Family.length_fieldTypes]
      obtain ⟨own, ownFields⟩ := Pat.withFields_pattern hasOther binders
      by_cases same : other = head
      · subst same
        refine .inl ⟨List.mem_cons_self, names, start, minted, length.trans arity.symm, after, ?_⟩
        rw [evalArmsWith, Pat.match?_build own, ownFields,
          matchAll?_capturing (length.trans arity.symm)]
        rw [ownFields, List.length_map, length, arity]
      · have skipped : match? ((family.pattern registry other).withFields
            (names.map Pat.capturing)) (.build head fields) = none :=
          Pat.match?_build_of_ne own same fun count tuple => by
            rw [arity, Family.length_fieldTypes, has.arity tuple]
        rw [evalArmsWith, skipped]
        rcases ih built fun other' member => known other' (List.mem_cons_of_mem other member) with
          ⟨member, found⟩ | ⟨absent, found⟩
        · exact .inl ⟨List.mem_cons_of_mem other member, found⟩
        · refine .inr ⟨fun member => ?_, found⟩
          rcases List.mem_cons.mp member with rfl | member
          · exact same rfl
          · exact absent member

theorem holds_fields {names : List Name} {types : List Ty} {start : NameSupply}
    (minted : Minted supply supply' names) (le : supply'.next ≤ start.next)
    (length : names.length = fields.length)
    (typed : List.Forall₂ (Value.HasType subst registry) fields types) :
    List.Forall₂ (Holds subst registry start (env ++ names.zip fields))
      (names.zipWith Term.var types) fields := by
  have distinct : ((names.zip fields).map (·.1)).Nodup := by
    rw [List.map_fst_zip (Nat.le_of_eq length)]
    exact minted.distinct
  have held : ∀ entry ∈ names.zip fields, start.Spent entry.1 ∧
      (env ++ names.zip fields).value? entry.1 = some entry.2 := by
    rintro ⟨name, value⟩ member
    refine ⟨(minted.spent name (List.of_mem_zip member).1).mono le, ?_⟩
    rw [Bindings.value?_append, (Bindings.value?_eq_some_iff distinct).mpr member, Option.some_or]
  clear minted distinct
  generalize env ++ names.zip fields = env' at held
  induction typed generalizing names with
  | nil =>
    rw [List.zipWith_nil_right]
    exact .nil
  | @cons value ty values types here _ ih =>
    cases names with
    | nil => simp at length
    | cons name names =>
      obtain ⟨spent, found⟩ := held _ List.mem_cons_self
      exact .cons (.var spent found here)
        (ih (Nat.succ.inj length) fun entry member => held entry (List.mem_cons_of_mem _ member))

theorem mem_heads : head ∈ problem.heads col ↔
    ∃ line ∈ problem.lines, (line.at col).head? = some head := by
  simp [Problem.heads, List.mem_filterMap]

section Switch

variable {source : Term} {before after : List Term} {lines : List Line} {value : Value}
  {others : List Value}

theorem has_of_mem_heads
    (sound : Problem.Sound subst registry supply env ⟨before ++ source :: after, lines⟩ values)
    (member : head ∈ Problem.heads ⟨before ++ source :: after, lines⟩ before.length) :
    (Family.of source.ty subst registry).Has registry head := by
  obtain ⟨line, inside, own⟩ := mem_heads.mp member
  obtain ⟨row, p, row', pats, length, -, here, -⟩ := (sound.lines line inside).column
  rw [← length, Line.at_column pats] at own
  exact (here.hasHead own).1

/-- The switch on a column reaches what the lines select, if the trees below it do. -/
theorem Problem.Sound.reaches_switch
    (sound : Problem.Sound subst registry supply env ⟨before ++ source :: after, lines⟩
      (values ++ value :: others)) (length : before.length = values.length)
    (single : ∀ line ∈ lines, (line.at before.length).isOneOf = false)
    (named : ∃ line ∈ lines, (line.at before.length).isWild = false)
    (each : List.Forall₂ (IsBranch registry (.of source.ty subst registry)
      ⟨before ++ source :: after, lines⟩ before.length supply supply')
      (Problem.heads ⟨before ++ source :: after, lines⟩ before.length) tested)
    (le : supply.next ≤ supply'.next)
    (built : List.Forall₂ (Built subst registry actions ty supply')
      (tested ++ fallback registry (.of source.ty subst registry)
        ⟨before ++ source :: after, lines⟩ before.length) arms)
    (lighter : ∀ {problem : Problem} {start : NameSupply} {env' : Bindings} {values' : List Value},
      problem.weight < Problem.weight ⟨before ++ source :: after, lines⟩ →
      problem.Sound subst registry start env' values' →
      Reaches call actions ty start env' (build subst registry actions ty problem start).1
        (select? env' values' problem.lines)) :
    Reaches call actions ty supply env (.matchOn source arms ty)
      (select? env (values ++ value :: others) lines) := by
  obtain ⟨-, holds, -⟩ := sound.column length
  have known : ∀ other ∈ Problem.heads ⟨before ++ source :: after, lines⟩ before.length,
      (Family.of source.ty subst registry).Has registry other :=
    fun other member => has_of_mem_heads sound member
  have entered : evalWith call env (.matchOn source arms ty) = evalArmsWith call env
      value arms := by
    rw [evalWith, eval_held holds.held]
    rfl
  rcases holds.typed.hasHead with unknown | ⟨head, fields, rfl, has, typedFields⟩
  · -- a value without a head is not tested
    obtain ⟨line, member, tested⟩ := named
    obtain ⟨head, own⟩ := Pat.head?_of_not_wild tested (single line member)
    have has := known head (mem_heads.mpr ⟨line, member, own⟩)
    rw [unknown] at has
    exact has.elim
  have arity := typedFields.length_eq
  rcases @evalArms_branches subst registry actions ty supply supply' call env fields _ _ _ _ head
      _ _ arms each built known has arity with
    ⟨member, names, start, minted, lengthNames, after', result⟩ | ⟨absent, rest, builtRest, result⟩
  · have hides : ∀ entry ∈ names.zip fields, ¬ supply.Spent entry.1 := fun entry inside =>
      minted.fresh entry.1 (List.of_mem_zip inside).1
    have later := Nat.le_trans le after'
    have fieldTypes := types_fields (lengthNames.trans arity)
    obtain ⟨sound', agrees⟩ := (sound.later hides later).specialize length single has fieldTypes
      (holds_fields minted after' lengthNames typedFields)
    rw [select?_later sound.lines hides] at agrees
    exact ((lighter (weight_specialize _ member) sound').agrees agrees).below hides later
      (entered.trans result)
  · rw [fallback] at builtRest
    split at builtRest
    · cases builtRest with
      | @cons _ arm _ arms here last =>
        cases last
        obtain ⟨pat, body⟩ := arm
        obtain ⟨rfl, start, after', rfl⟩ := here
        have later := Nat.le_trans le after'
        have arity' : ∀ count, head = .tuple count → fields.length = count := fun count tuple => by
          rw [arity, Family.length_fieldTypes, has.arity tuple]
        have unnamed : ∀ line ∈ lines, (line.at before.length).head? ≠ some head :=
          fun line member own => absent (mem_heads.mpr ⟨line, member, own⟩)
        have nothing : ∀ entry ∈ ([] : Bindings), ¬ supply.Spent entry.1 := nofun
        obtain ⟨sound', agrees⟩ := (sound.later nothing later).default length single unnamed arity'
        rw [select?_later sound.lines nothing] at agrees
        refine ((lighter (weight_default named) sound').agrees agrees).below nothing later
          (entered.trans (result.trans ?_))
        rw [evalArmsWith, Pat.any, Pat.match?_wild]
        rfl
    · rename_i covered
      simp only [Bool.or_eq_true, Bool.not_eq_true', not_or, Bool.not_eq_false] at covered
      exact absurd (Family.mem_of_spannedBy (Family.nodup_eraseDups _) known covered.2 has) absent

end Switch

theorem Problem.Sound.reaches {problem : Problem}
    (sound : problem.Sound subst registry supply env values) :
    Reaches call actions ty supply env (build subst registry actions ty problem supply).1
      (select? env values problem.lines) := by
  induction weight : problem.weight using Nat.strongRecOn generalizing problem supply
    env values with
  | ind bound ih =>
    subst weight
    obtain ⟨sources, lines⟩ := problem
    cases lines with
    | nil =>
      rw [build_eq]
      rfl
    | cons first lines =>
      cases column : Problem.column? first with
      | none =>
        obtain ⟨bindings, chosen, result⟩ :=
          @Problem.Sound.leaf subst registry actions ty supply call env values _ sound first
            List.mem_cons_self column
        rw [build_eq, select?, List.findSome?_cons, chosen]
        simp only [Problem.step, column]
        exact ⟨[], bindings, nofun, .refl _, by rw [List.append_nil]; exact result⟩
      | some col =>
        have inside : col < sources.length := by
          obtain ⟨inside, -⟩ := List.findIdx?_eq_some_iff_getElem.mp column
          rwa [(sound.lines first List.mem_cons_self).typed.length_eq, List.length_map] at inside
        obtain ⟨before, source, after, rfl, rfl⟩ := exists_column inside
        obtain ⟨values, value, others, rfl, inBefore, -, -⟩ := forall₂_column sound.sources
        have length := inBefore.length_eq
        have named : ∃ line ∈ first :: lines, (line.at before.length).isWild = false :=
          ⟨first, List.mem_cons_self, isWild_at_column column⟩
        rw [build_eq]
        by_cases some : (first :: lines).any fun line => (line.at before.length).isOneOf
        · obtain ⟨sound', same⟩ := sound.expand length
          simp only [Problem.step, column, some, if_true]
          rw [← same]
          exact ih _ (weight_expand (by simpa using some)) sound' rfl
        · have single : ∀ line ∈ first :: lines, (line.at before.length).isOneOf = false := by
            simpa using some
          simp only [Problem.step, column, some, Bool.false_eq_true, if_false, sourceAt_column]
          obtain ⟨tested, supply', run, each, le⟩ := split_spec registry
            (.of source.ty subst registry) ⟨before ++ source :: after, first :: lines⟩
            before.length supply
          rw [run, sourceAt_column]
          refine sound.reaches_switch length single named each le
            (built_parts (fun part _ start => le_build part.2 start) supply').1 ?_
          exact fun lighter sound' => ih _ lighter sound' rfl

end Trees

section Cases

variable {call : Term → Bindings → Outcome} {env : Bindings} {value : Value} {arms : List Arm}
  {scrutinee : Term}

def firstArm? (value : Value) (arms : List Arm) : Option (Arm × Bindings) :=
  arms.findSome? fun arm => (arm.pat.match? value).map (arm, ·)

theorem mem_of_firstArm? {arm : Arm} {bindings : Bindings}
    (found : firstArm? value arms = some (arm, bindings)) :
    arm ∈ arms ∧ arm.pat.match? value = some bindings := by
  obtain ⟨other, member, found⟩ := List.exists_of_findSome?_eq_some found
  obtain ⟨captured, matched, same⟩ := Option.map_eq_some_iff.mp found
  obtain ⟨rfl, rfl⟩ := Prod.mk.inj same
  exact ⟨member, matched⟩

theorem evalArms_eq (call : Term → Bindings → Outcome) (env : Bindings) (value : Value)
    (arms : List Arm) : evalArmsWith call env value arms =
      match firstArm? value arms with
      | some (arm, bindings) => evalWith call (env ++ bindings) arm.body
      | none => .error .failure := by
  induction arms with
  | nil => rfl
  | cons arm arms ih =>
    obtain ⟨pat, body⟩ := arm
    rw [evalArmsWith, firstArm?, List.findSome?_cons]
    cases match? pat value with
    | none => exact ih
    | some bindings => rfl

theorem select?_arms (start : Nat) :
    select? env [value]
    ((arms.zipIdx start).map fun (arm, action) => ⟨[arm.pat], [], action⟩) = none ∧
        firstArm? value arms = none ∨
      ∃ index arm bindings, arms[index]? = some arm ∧
        firstArm? value arms = some (arm, bindings) ∧
        select? env [value] ((arms.zipIdx start).map fun (arm, action) =>
          ⟨[arm.pat], [], action⟩) = some (start + index, bindings) := by
  induction arms generalizing start with
  | nil => exact .inl ⟨rfl, rfl⟩
  | cons arm arms ih =>
    have one : (⟨[arm.pat], [], start⟩ : Line).select? env [value] = arm.pat.match? value := by
      rw [Line.select?, matchAll?, matchAll?, Line.bindings]
      cases match? arm.pat value <;> simp
    rw [firstArm?, List.findSome?_cons, List.zipIdx_cons, List.map_cons, select?,
      List.findSome?_cons, one]
    cases match? arm.pat value with
    | some bindings => exact .inr ⟨0, arm, bindings, rfl, rfl, rfl⟩
    | none =>
      rcases ih (start + 1) with rest | ⟨index, other, bindings, inside, first, rest⟩
      · exact .inl rest
      · refine .inr ⟨index + 1, other, bindings, inside, first, rest.trans ?_⟩
        rw [Nat.add_assoc, Nat.add_comm 1]

/-- The tree of a match evaluates the first case that matches, with what this case captures, beside
hidden names. -/
theorem eval_compile (evaluated : evalWith call env scrutinee = .ok value)
    (typed : value.HasType subst registry (subst.zonk scrutinee.ty))
    (cases : ∀ arm ∈ arms, arm.pat.HasType subst registry (subst.zonk scrutinee.ty)) :
    match firstArm? value arms with
    | none => evalWith call env (compile subst registry scrutinee arms ty
        supply).1 = .error .failure
    | some (arm, bindings) => ∃ hidden captured : Bindings,
      (∀ entry ∈ hidden, ¬ supply.Spent entry.1) ∧ captured.Perm bindings ∧
        evalWith call env (compile subst registry scrutinee arms ty supply).1 =
          evalWith call (env ++ hidden ++ captured) arm.body := by
  have inTree : "m" ∈ treeStems := by decide
  have hides : ∀ entry ∈ [((supply.mint "m").1, value)], ¬ supply.Spent entry.1 := by
    intro entry member
    rw [List.mem_singleton.mp member]
    exact supply.not_spent_mint inTree
  have found : (env ++ [((supply.mint "m").1, value)]).value? (supply.mint "m").1 = some value := by
    rw [Bindings.value?_append, Bindings.value?_single, if_pos rfl, Option.some_or]
  have sound : Problem.Sound subst registry (supply.mint "m").2
      (env ++ [((supply.mint "m").1, value)])
      ⟨[.var (supply.mint "m").1 (subst.zonk scrutinee.ty)],
        arms.zipIdx.map fun (arm, action) => ⟨[arm.pat], [], action⟩⟩ [value] := by
    refine ⟨.cons (.var (supply.spent_mint inTree) found typed) .nil, fun line member => ?_⟩
    obtain ⟨⟨arm, action⟩, inside, rfl⟩ := List.mem_map.mp member
    exact ⟨.cons (cases arm (List.fst_mem_of_mem_zipIdx inside)) .nil, nofun⟩
  have reaches :=
    (@Problem.Sound.reaches subst registry (arms.map (·.body)) ty _ call _ _ _ sound).below
    hides (Nat.le_succ _)
    (show evalWith call env (compile subst registry scrutinee arms ty supply).1 = _ by
      change evalWith call env (.letIn false [⟨_, _, scrutinee⟩] _ ty) = _
      rw [evalWith, Term.evalDefinitionsWith, evaluated]
      rfl)
  rcases @select?_arms (env ++ [((supply.mint "m").1, value)]) value arms 0 with
    ⟨selected, first⟩ | ⟨index, arm, bindings, inside, first, selected⟩
  · rw [first]
    rwa [selected] at reaches
  · rw [first]
    rw [selected] at reaches
    obtain ⟨hidden, captured, minted, perm, result⟩ := reaches
    refine ⟨hidden, captured, minted, perm, result.trans ?_⟩
    rw [Nat.zero_add, List.getElem?_map, inside]
    rfl

end Cases

end PolyCheck.Decision
