import PolyCheck.Proofs.Term.Building
import PolyCheck.Proofs.Term.Verdict

/-! Accepted recursive groups can be built. A group is checked in three ways that look at names
differently: whether an initializer mentions the group, whether it is constructive, and which member
it evaluates to directly. Along the lets that are evaluated with an initializer, the names that may
hold a member are followed by how their definitions are written, and the names that stand for a
placeholder lead to it in the look-up by name. So an initializer of an accepted group uses no
placeholder and gives none, as long as these lets bind each name once and what they evaluate reads
no name that holds a member. Without this an accepted group may call itself while it is built, or be
itself. -/
namespace PolyCheck

namespace Term

/-- Names of definitions that may hold a member of the group, when the given names do. -/
def holders (names : List Name) (recursive : Bool) (definitions : List Definition) : List Name :=
  if recursive then
    if definitions.any (·.value.mentions names []) then definitions.map (·.name) else []
  else (definitions.filter (·.value.mentions names [])).map (·.name)

mutual

/-- The values of lets that are evaluated with a term read no name that holds a member of the
group. -/
def withholds (group held : List Name) : Term → Bool
  | var _ _ => true
  | lit _ _ => true
  | failure _ => true
  | tuple elems _ => withholdsAll group held elems
  | ctor _ _ _ arg _ => withholdsOption group held arg
  | lambda _ _ _ _ => true
  | app _ _ _ => true
  | letIn recursive definitions body _ =>
    let after := holders (group ++ held) recursive definitions ++ held
    withholdsDefinitions group (if recursive then after else held) definitions &&
      withholds group after body
  | matchOn _ _ _ => true

def withholdsAll (group held : List Name) : List Term → Bool
  | [] => true
  | term :: terms => withholds group held term && withholdsAll group held terms

def withholdsOption (group held : List Name) : Option Term → Bool
  | none => true
  | some term => withholds group held term

def withholdsDefinitions (group held : List Name) : List Definition → Bool
  | [] => true
  | ⟨_, _, value⟩ :: rest =>
    (if value.constructive group then withholds group held value else !value.mentions held []) &&
      withholdsDefinitions group held rest

end

mutual

def lets : Term → List Definition
  | var _ _ => []
  | lit _ _ => []
  | failure _ => []
  | tuple elems _ => letsAll elems
  | ctor _ _ _ arg _ => letsOption arg
  | lambda _ _ _ _ => []
  | app _ _ _ => []
  | letIn _ definitions body _ => definitions ++ (letsIn definitions ++ lets body)
  | matchOn _ _ _ => []

def letsAll : List Term → List Definition
  | [] => []
  | term :: terms => lets term ++ letsAll terms

def letsOption : Option Term → List Definition
  | none => []
  | some term => lets term

def letsIn : List Definition → List Definition
  | [] => []
  | ⟨_, _, value⟩ :: rest => lets value ++ letsIn rest

end

variable {group held : List Name} {all aliases : List Definition} {term : Term}

section Lets

mutual

theorem names_lets : ∀ term : Term, term.lets.map (·.name) = term.letNames
  | var _ _ | lit _ _ | failure _ | lambda _ _ _ _ | app _ _ _ | matchOn _ _ _ => rfl
  | tuple elems _ => names_letsAll elems
  | ctor _ _ _ none _ => rfl
  | ctor _ _ _ (some arg) _ => names_lets arg
  | letIn _ definitions body _ => by
    rw [lets, letNames, List.map_append, List.map_append, names_letsIn definitions, names_lets body]

theorem names_letsAll : ∀ terms : List Term, (letsAll terms).map (·.name) = letNamesAll terms
  | [] => rfl
  | term :: terms => by
    rw [letsAll, letNamesAll, List.map_append, names_lets term, names_letsAll terms]

theorem names_letsIn : ∀ definitions : List Definition,
    (letsIn definitions).map (·.name) = letNamesIn definitions
  | [] => rfl
  | ⟨_, _, value⟩ :: rest => by
    rw [letsIn, letNamesIn, List.map_append, names_lets value, names_letsIn rest]

end

mutual

theorem length_lets_le : ∀ term : Term, term.lets.length ≤ term.definitionCount
  | var _ _ | lit _ _ | failure _ => Nat.le_refl _
  | lambda _ _ _ _ | app _ _ _ | matchOn _ _ _ => Nat.zero_le _
  | tuple elems _ => length_letsAll_le elems
  | ctor _ _ _ none _ => Nat.le_refl _
  | ctor _ _ _ (some arg) _ => length_lets_le arg
  | letIn _ definitions body _ => by
    have inside := length_letsIn_le definitions
    have behind := length_lets_le body
    simp only [lets, definitionCount, List.length_append]
    omega

theorem length_letsAll_le : ∀ terms : List Term, (letsAll terms).length ≤ definitionCountAll terms
  | [] => Nat.le_refl _
  | term :: terms => by
    rw [letsAll, definitionCountAll, List.length_append]
    exact Nat.add_le_add (length_lets_le term) (length_letsAll_le terms)

theorem length_letsIn_le : ∀ definitions : List Definition,
    definitions.length + (letsIn definitions).length ≤ definitionCountIn definitions
  | [] => Nat.le_refl _
  | ⟨_, _, value⟩ :: rest => by
    have here := length_lets_le value
    have behind := length_letsIn_le rest
    simp only [letsIn, definitionCountIn, List.length_append, List.length_cons]
    omega

end

theorem lets_subset_letsIn {definition : Definition} {definitions : List Definition}
    (member : definition ∈ definitions) : definition.value.lets ⊆ letsIn definitions := by
  induction definitions with
  | nil => cases member
  | cons first rest ih =>
    obtain ⟨name, scheme, value⟩ := first
    rw [letsIn]
    rcases List.mem_cons.mp member with rfl | member
    · exact List.subset_append_left _ _
    · exact List.subset_append_of_subset_right _ (ih member)

theorem lets_subset_letsAll {terms : List Term} (member : term ∈ terms) :
    term.lets ⊆ letsAll terms := by
  induction terms with
  | nil => cases member
  | cons first rest ih =>
    rw [letsAll]
    rcases List.mem_cons.mp member with rfl | member
    · exact List.subset_append_left _ _
    · exact List.subset_append_of_subset_right _ (ih member)

mutual

theorem lets_closed : ∀ {term : Term} {definition : Definition}, definition ∈ term.lets →
    definition.value.lets ⊆ term.lets
  | tuple elems _, _, member => @letsAll_closed elems _ member
  | ctor _ _ _ (some arg) _, _, member => @lets_closed arg _ member
  | letIn _ definitions body _, definition, member => by
    rw [lets] at member ⊢
    rcases List.mem_append.mp member with here | member
    · exact List.subset_append_of_subset_right _
        (List.subset_append_of_subset_left _ (lets_subset_letsIn here))
    · rcases List.mem_append.mp member with inside | behind
      · exact List.subset_append_of_subset_right _
          (List.subset_append_of_subset_left _ (letsIn_closed inside))
      · exact List.subset_append_of_subset_right _
          (List.subset_append_of_subset_right _ (lets_closed behind))

theorem letsAll_closed : ∀ {terms : List Term} {definition : Definition},
    definition ∈ letsAll terms → definition.value.lets ⊆ letsAll terms
  | term :: terms, definition, member => by
    rw [letsAll] at member ⊢
    rcases List.mem_append.mp member with here | behind
    · exact List.subset_append_of_subset_left _ (lets_closed here)
    · exact List.subset_append_of_subset_right _ (letsAll_closed behind)

theorem letsIn_closed : ∀ {definitions : List Definition} {definition : Definition},
    definition ∈ letsIn definitions → definition.value.lets ⊆ letsIn definitions
  | ⟨_, _, value⟩ :: rest, definition, member => by
    rw [letsIn] at member ⊢
    rcases List.mem_append.mp member with here | behind
    · exact List.subset_append_of_subset_left _ (lets_closed here)
    · exact List.subset_append_of_subset_right _ (letsIn_closed behind)

end

theorem peelLets_subset : ∀ term : Term, term.peelLets.1 ⊆ term.lets
  | letIn _ definitions body _ => by
    rw [peelLets, lets]
    refine List.append_subset.mpr ⟨List.subset_append_left _ _, ?_⟩
    exact List.subset_append_of_subset_right _
      (List.subset_append_of_subset_right _ (peelLets_subset body))
  | var _ _ | lit _ _ | failure _ | tuple _ _ | ctor _ _ _ _ _ | lambda _ _ _ _ | app _ _
      _ | matchOn _ _ _ =>
    List.nil_subset _

end Lets

/-- Definitions that can be looked up by name, whatever is known of them. -/
structure Catalogue (group : List Name) (all : List Definition) : Prop where
  once : (all.map (·.name)).Nodup
  apart : ∀ definition ∈ all, definition.name ∉ group
  closed : ∀ definition ∈ all, definition.value.lets ⊆ all

/-- A name is looked up again and again until a member of the group is found. -/
inductive Leads (group : List Name) : List Definition → Name → Nat → Name → Prop where
  | here {aliases : List Definition} {name : Name} (absent : aliases.find? (·.name = name) = none)
      (member : name ∈ group) : Leads group aliases name 0 name
  | step {aliases : List Definition} {name next found : Name} {definition : Definition} {ty : Ty}
      {length : Nat}
      (known : aliases.find? (·.name = name) = some definition)
        (core : definition.value.peelLets.2 = var next ty)
      (leads : Leads group (definition.value.peelLets.1.reverse ++ aliases) next length found) :
      Leads group aliases name (length + 1) found

def LinksTo (group : List Name) (aliases : List Definition) (term : Term) (found : Name) : Prop :=
  ∃ next ty length, term.peelLets.2 = var next ty ∧
    Leads group (term.peelLets.1.reverse ++ aliases) next length found

section Links

variable {name found : Name} {length : Nat} {aliases' : List Definition}

theorem name_of_find? {definition : Definition}
    (found : aliases.find? (·.name = name) = some definition) : definition.name = name := by
  simpa using List.find?_some found

theorem Catalogue.find? (catalogue : Catalogue group all) {definition : Definition}
    (known : aliases ⊆ all)
    (member : definition ∈ aliases) : aliases.find? (·.name = definition.name) =
      some definition := by
  obtain ⟨other, found⟩ := Option.isSome_iff_exists.mp
    (List.find?_isSome (p := (·.name = definition.name)) |>.mpr ⟨definition, member,
        decide_eq_true rfl⟩)
  have same := name_of_find? found
  rw [found, List.inj_on_of_nodup_map catalogue.once (known (List.mem_of_find?_eq_some found))
    (known member) same]

theorem Catalogue.before (catalogue : Catalogue group all) {definition : Definition}
    (member : definition ∈ all)
    (known : aliases ⊆ all) : definition.value.peelLets.1.reverse ++ aliases ⊆ all :=
  List.append_subset.mpr ⟨fun _ inside => catalogue.closed definition member
    (peelLets_subset definition.value (List.mem_reverse.mp inside)), known⟩

theorem Leads.mono (catalogue : Catalogue group all) (leads : Leads group aliases name length found)
    (more : aliases ⊆ aliases') (known : aliases' ⊆ all) :
      Leads group aliases' name length found := by
  induction leads generalizing aliases' with
  | here absent member =>
    refine .here (List.find?_eq_none.mpr fun definition inside same => ?_) member
    exact catalogue.apart definition (known inside) (of_decide_eq_true same ▸ member)
  | @step aliases name next found definition ty length here core _ ih =>
    have member := List.mem_of_find?_eq_some here
    have same := name_of_find? here
    refine .step (same ▸ catalogue.find? known (more member)) core (ih ?_ ?_)
    · exact List.append_subset.mpr ⟨List.subset_append_left _ _,
        List.subset_append_of_subset_right _ more⟩
    · exact catalogue.before (known (more member)) known

theorem Leads.length_unique {found' : Name} {length' : Nat}
    (leads : Leads group aliases name length found)
    (leads' : Leads group aliases name length' found') : length = length' := by
  induction leads generalizing length' with
  | here absent _ =>
    cases leads' with
    | here => rfl
    | step known => cases absent.symm.trans known
  | step known core _ ih =>
    cases leads' with
    | here absent => cases absent.symm.trans known
    | step known' core' leads =>
      cases known.symm.trans known'
      cases core.symm.trans core'
      rw [ih leads]

theorem linkWithin_of_leads (catalogue : Catalogue group all)
    (leads : Leads group aliases name length found) :
    ∀ {before : List Definition} {term : Term} {ty : Ty} {steps : Nat} {visited : List Name},
      aliases = term.peelLets.1.reverse ++ before → term.peelLets.2 = var name ty → aliases ⊆ all →
      visited.Nodup → visited ⊆ all.map (·.name) →
      (∀ other ∈ visited, ∃ length', length < length' ∧ Leads group aliases other length' found) →
      all.length < steps + visited.length → linkWithin group steps before visited term =
        some found := by
  induction leads with
  | here absent member =>
    intro before term ty steps visited same core known _ _ _ _
    unfold linkWithin
    dsimp only
    rw [core, ← same]
    dsimp only
    rw [absent]
    exact if_pos (List.contains_iff_mem.mpr member)
  | @step aliases name next found definition next_ty length here core' rest ih =>
    intro before term ty steps visited same core known once inside longer enough
    have member := known (List.mem_of_find?_eq_some here)
    have named := name_of_find? here
    have leads : Leads group aliases name (length + 1) found := .step here core' rest
    have fresh : name ∉ visited := fun seen => by
      obtain ⟨length', more, again⟩ := longer name seen
      exact absurd (leads.length_unique again) (Nat.ne_of_lt more)
    have once' : (name :: visited).Nodup := List.nodup_cons.mpr ⟨fresh, once⟩
    have inside' : name :: visited ⊆ all.map (·.name) :=
      List.cons_subset.mpr ⟨named ▸ List.mem_map_of_mem member, inside⟩
    have bound : visited.length + 1 ≤ all.length := by
      simpa using (once'.subperm inside').length_le
    have known' := catalogue.before member known
    have later : aliases ⊆ definition.value.peelLets.1.reverse ++ aliases :=
      List.subset_append_right _ _
    unfold linkWithin
    dsimp only
    rw [core, ← same]
    dsimp only
    rw [here]
    dsimp only
    cases steps with
    | zero => omega
    | succ steps =>
      dsimp only
      rw [if_neg (by simpa using fresh)]
      refine ih rfl core' known' once' inside'
        (List.forall_mem_cons.mpr ⟨?_, fun other seen => ?_⟩) ?_
      · exact ⟨length + 1, Nat.lt_succ_self length, leads.mono catalogue later known'⟩
      · obtain ⟨length', more, again⟩ := longer other seen
        exact ⟨length', Nat.lt_of_succ_lt more, again.mono catalogue later known'⟩
      · rw [List.length_cons]
        omega

theorem linkedMember?_of_linksTo (catalogue : Catalogue group term.lets)
    (links : LinksTo group [] term found) : term.linkedMember? group = some found := by
  obtain ⟨next, ty, length, core, leads⟩ := links
  have known : term.peelLets.1.reverse ++ [] ⊆ term.lets := by
    rw [List.append_nil]
    exact fun definition member => peelLets_subset term (List.mem_reverse.mp member)
  have bound := length_lets_le term
  refine linkWithin_of_leads catalogue leads rfl core known List.nodup_nil (List.nil_subset _)
    (List.forall_mem_nil _) ?_
  rw [List.length_nil]
  omega

end Links

section Flow

variable {bound depth : Nat} {env : Drafts} {draft : Draft} {definitions : List Definition}
  {recursive : Bool}

/-- What the names stand for on the way: clean drafts outside the group and the names that hold a
member, and only names that lead to a member stand for one. -/
structure Flow (group held : List Name) (aliases : List Definition) (bound : Nat)
    (env : Drafts) : Prop where
  clean : ∀ name draft, env.lookup name = some draft → name ∉ group ++ held → draft.Clean
  leads : ∀ name draft, env.lookup name = some draft → ∀ depth ≤ bound, ∀ found,
    draft.settle depth = .ok (.pending found) → ∃ length, Leads group aliases name length found

/-- What a term gives: a clean draft when it mentions no name that holds a member, and a placeholder
only when it links to it. -/
structure Stems (group held : List Name) (aliases : List Definition) (bound : Nat) (term : Term)
    (draft : Draft) : Prop where
  clean : term.mentions (group ++ held) [] = false → draft.Clean
  links : ∀ depth ≤ bound, ∀ found, draft.settle depth = .ok (.pending found) →
    LinksTo group aliases term found

theorem settle_ne_pending (clean : draft.Clean) (depth : Nat) (found : Name) :
    draft.settle depth ≠ .ok (.pending found) := fun settled => by
  have safe := (clean_of_reads depth).2 draft clean
  rw [settled] at safe
  cases (safe : (Draft.pending found).Clean)

theorem settle_eq (direct : ∀ definitions env name, draft ≠ .member definitions env name)
    (depth : Nat) : draft.settle depth = .ok draft := by
  cases draft with
  | member definitions env name => exact absurd rfl (direct definitions env name)
  | _ => cases depth <;> rfl

theorem Stems.of_clean (clean : draft.Clean) : Stems group held aliases bound term draft :=
  ⟨fun _ => clean, fun depth _ found settled =>
    absurd settled (settle_ne_pending clean depth found)⟩

theorem Flow.safe_of_absent (flow : Flow group held aliases bound env)
    (absent : term.mentions (group ++ held) [] = false) : Safe Draft.Clean (term.draft depth env) :=
  (clean_of_reads depth).1 env term fun name draft read found =>
    flow.clean name draft found (not_reads_of_not_mentions absent read)

theorem Flow.mono (catalogue : Catalogue group all) (flow : Flow group held aliases bound env)
    {aliases' : List Definition} (more : aliases ⊆ aliases') (known : aliases' ⊆ all) :
    Flow group held aliases' bound env :=
  ⟨flow.clean, fun name draft found depth le member settled => by
    obtain ⟨length, leads⟩ := flow.leads name draft found depth le member settled
    exact ⟨length, leads.mono catalogue more known⟩⟩

theorem mentions_append (names others : List Name) (term : Term) :
    term.mentions (names ++ others) [] = (term.mentions names [] || term.mentions others []) := by
  refine Bool.eq_iff_iff.mpr ?_
  simp only [Bool.or_eq_true, mentions_iff, AnyOf, List.mem_append, or_and_right, exists_or]

theorem not_mentions_of_not_holders {names : List Name} {definition : Definition}
    (member : definition ∈ definitions)
    (outside : definition.name ∉ holders names recursive definitions) :
    definition.value.mentions names [] = false := by
  refine Bool.eq_false_iff.mpr fun mentioned => outside ?_
  cases recursive with
  | true =>
    rw [holders, if_pos rfl, if_pos (List.any_eq_true.mpr ⟨definition, member, mentioned⟩)]
    exact List.mem_map_of_mem member
  | false =>
    rw [holders, if_neg Bool.false_ne_true]
    exact List.mem_map_of_mem (List.mem_filter.mpr ⟨member, mentioned⟩)

theorem holders_eq_nil {names : List Name} {name : Name} (member : name ∈ definitions.map (·.name))
    (outside : name ∉ holders names true definitions) : holders names true definitions = [] := by
  rw [holders, if_pos rfl] at outside ⊢
  refine if_neg fun any => outside ?_
  rw [if_pos any]
  exact member

def Carries (group : List Name) (all : List Definition) (bound depth : Nat) : Prop :=
  ∀ (held : List Name) (aliases : List Definition) (env : Drafts) (term : Term),
    term.lets ⊆ all → aliases ⊆ all →
    term.constructive group = true → term.withholds group held = true →
      Flow group held aliases bound env →
    Safe (Stems group held aliases bound term) (term.draft depth env)

theorem constructive_of_mem (constructive : constructiveDefinitions group definitions = true)
    {definition : Definition} (member : definition ∈ definitions) :
    definition.value.mentions group [] = false ∨ definition.value.constructive group = true := by
  induction definitions with
  | nil => cases member
  | cons first rest ih =>
    obtain ⟨name, scheme, value⟩ := first
    simp only [constructiveDefinitions, Bool.and_eq_true, Bool.or_eq_true,
      Bool.not_eq_true'] at constructive
    rcases List.mem_cons.mp member with rfl | member
    · exact constructive.1
    · exact ih constructive.2 member

theorem withholds_of_mem (withholds : withholdsDefinitions group held definitions = true)
    {definition : Definition} (member : definition ∈ definitions) :
    (if definition.value.constructive group then definition.value.withholds group held
      else !definition.value.mentions held []) = true := by
  induction definitions with
  | nil => cases member
  | cons first rest ih =>
    obtain ⟨name, scheme, value⟩ := first
    simp only [withholdsDefinitions, Bool.and_eq_true] at withholds
    rcases List.mem_cons.mp member with rfl | member
    · exact withholds.1
    · exact ih withholds.2 member

theorem constructiveAll_iff {terms : List Term} :
    constructiveAll group terms = true ↔ ∀ term ∈ terms, term.constructive group = true := by
  induction terms with
  | nil => simp [constructiveAll]
  | cons term terms ih => simp [constructiveAll, ih]

theorem withholdsAll_iff {terms : List Term} :
    withholdsAll group held terms = true ↔ ∀ term ∈ terms, term.withholds group held = true := by
  induction terms with
  | nil => simp [withholdsAll]
  | cons term terms ih => simp [withholdsAll, ih]

theorem Carries.definition (carries : Carries group all bound depth) {definition : Definition}
    (constructive : constructiveDefinitions group definitions = true)
    (withholds : withholdsDefinitions group held definitions = true)
    (inside : letsIn definitions ⊆ all)
    (known : aliases ⊆ all) (flow : Flow group held aliases bound env)
    (member : definition ∈ definitions) :
    Safe (Stems group held aliases bound definition.value) (definition.value.draft depth env) := by
  have withheld := withholds_of_mem withholds member
  by_cases built : definition.value.constructive group = true
  · rw [if_pos built] at withheld
    exact carries held aliases env _ (List.Subset.trans (lets_subset_letsIn member) inside) known
      built withheld flow
  · rw [if_neg built, Bool.not_eq_true'] at withheld
    have outside := (constructive_of_mem constructive member).resolve_right built
    have absent : definition.value.mentions (group ++ held) [] = false := by
      rw [mentions_append, outside, withheld]
      rfl
    exact (flow.safe_of_absent absent).imp fun _ clean => .of_clean clean

theorem leads_of_stems (catalogue : Catalogue group all) (known : aliases ⊆ all)
    {definition : Definition}
    (member : definition ∈ aliases) (stems : Stems group held aliases bound definition.value draft)
    {found : Name}
    (le : depth ≤ bound) (settled : draft.settle depth = .ok (.pending found)) :
    ∃ length, Leads group aliases definition.name length found := by
  obtain ⟨next, ty, length, core, leads⟩ := stems.links depth le found settled
  exact ⟨length + 1, .step (catalogue.find? known member) core leads⟩

/-- The names of a recursive let stand for its definitions while these are evaluated. -/
theorem Flow.knot (catalogue : Catalogue group all)
    (carries : ∀ earlier < bound, ∀ depth, Carries group all earlier depth)
    (constructive : constructiveDefinitions group definitions = true)
    (withholds : withholdsDefinitions group (holders (group ++ held) true definitions ++ held)
      definitions = true)
    (inside : letsIn definitions ⊆ all) (known : definitions.reverse ++ aliases ⊆ all)
    (flow : Flow group held aliases bound env) :
    Flow group (holders (group ++ held) true definitions ++ held)
    (definitions.reverse ++ aliases) bound (Drafts.knot definitions env) := by
  have clean : ∀ name draft, List.lookup name (Drafts.knot definitions env) = some draft →
      name ∉ group ++ (holders (group ++ held) true definitions ++ held) → draft.Clean := by
    intro name draft found outside
    simp only [List.mem_append, not_or] at outside
    obtain ⟨notGroup, notHolder, notHeld⟩ := outside
    rcases lookup_knot_cases found with ⟨member, rfl⟩ | ⟨-, behind⟩
    · refine .member fun other value _ read found => flow.clean other value found ?_
      obtain ⟨definition, here, read⟩ := readsDefinitions_iff.mp read
      have none : definition.name ∉ holders (group ++ held) true definitions := by
        rw [holders_eq_nil member notHolder]
        exact List.not_mem_nil
      exact not_reads_of_not_mentions (not_mentions_of_not_holders here none) read
    · exact flow.clean name draft behind (by simp [notGroup, notHeld])
  have before : ∀ earlier ≤ bound, Flow group (holders (group ++ held) true definitions ++ held)
      (definitions.reverse ++ aliases) earlier (Drafts.knot definitions env) := by
    intro earlier
    -- Settling a member runs its definition at a smaller depth, with the same names.
    induction earlier using Nat.strong_induction_on with
    | _ earlier ih =>
      intro le
      refine ⟨clean, fun name draft found depth here member settled => ?_⟩
      rcases lookup_knot_cases found with ⟨-, rfl⟩ | ⟨-, behind⟩
      · cases depth with
        | zero => cases settled
        | succ depth =>
          rw [Draft.settle] at settled
          split at settled
          · rename_i definition found
            have inDefinitions := List.mem_of_find?_eq_some found
            have same := name_of_find? found
            have lower : depth < earlier := here
            have safe :=
              (carries depth (Nat.lt_of_lt_of_le lower le) depth).definition constructive withholds
              inside known (ih depth lower (Nat.le_of_lt (Nat.lt_of_lt_of_le lower le)))
                inDefinitions
            cases given : definition.value.draft depth (Drafts.knot definitions env) with
            | error _ =>
              rw [given] at settled
              cases settled
            | ok value =>
              rw [given] at settled safe
              exact same ▸ leads_of_stems catalogue known
                (List.mem_append_left _ (List.mem_reverse.mpr inDefinitions)) safe
                  (Nat.le_refl depth) settled
          · cases settled
      · obtain ⟨length, leads⟩ :=
          flow.leads name draft behind depth (Nat.le_trans here le) member settled
        exact ⟨length, leads.mono catalogue (List.subset_append_right _ _) known⟩
  exact before bound (Nat.le_refl bound)

theorem Flow.after (catalogue : Catalogue group all) (known : definitions.reverse ++ aliases ⊆ all)
    (flow : Flow group held aliases bound env) {drafts : Drafts}
    (given : FromEach (Given fun definition draft => Stems group
      (if recursive then holders (group ++ held) recursive definitions ++ held else held)
      (definitions.reverse ++ aliases) bound definition.value draft) definitions drafts) :
    Flow group (holders (group ++ held) recursive definitions ++ held)
    (definitions.reverse ++ aliases) bound (drafts.reverse ++ env) := by
  refine ⟨fun name draft found outside => ?_, fun name draft found depth le member settled => ?_⟩
  · simp only [List.mem_append, not_or] at outside
    obtain ⟨notGroup, notHolder, notHeld⟩ := outside
    rcases lookup_given given found with ⟨definition, member, rfl, stems⟩ | ⟨-, behind⟩
    · have absent := not_mentions_of_not_holders member notHolder
      refine stems.clean ?_
      cases recursive with
      | true =>
        rw [if_pos rfl, holders_eq_nil (List.mem_map_of_mem member) notHolder]
        exact absent
      | false => exact absent
    · exact flow.clean name draft behind (by simp [notGroup, notHeld])
  · rcases lookup_given given found with ⟨definition, inside, rfl, stems⟩ | ⟨-, behind⟩
    · exact leads_of_stems catalogue known (List.mem_append_left _ (List.mem_reverse.mpr inside))
        stems le settled
    · obtain ⟨length, leads⟩ := flow.leads name draft behind depth le member settled
      exact ⟨length, leads.mono catalogue (List.subset_append_right _ _) known⟩

theorem linksTo_letIn {body : Term} {ty : Ty} {found : Name}
    (links : LinksTo group (definitions.reverse ++ aliases) body found) :
    LinksTo group aliases (.letIn recursive definitions body ty) found := by
  obtain ⟨next, nextTy, length, core, leads⟩ := links
  refine ⟨next, nextTy, length, core, ?_⟩
  rw [peelLets, List.reverse_append, List.append_assoc]
  exact leads

/-- A constructive term uses no placeholder, and gives one only when it links to it. -/
theorem carries (catalogue : Catalogue group all) (bound : Nat) : ∀ depth,
    Carries group all bound depth := by
  induction bound using Nat.strong_induction_on with
  | _ bound earlier =>
    intro depth
    induction depth with
    | zero =>
      intro _ _ _ _ _ _ _ _ _ premature
      cases premature
    | succ depth ih =>
      intro held aliases env term inside known constructive withholds flow
      by_cases absent : term.mentions (group ++ held) [] = false
      · exact (flow.safe_of_absent absent).imp fun _ clean => .of_clean clean
      cases term with
      | var name ty =>
        rw [Term.draft]
        split
        · rename_i draft found
          refine ⟨fun absent' => absurd absent' absent, fun depth le member settled => ?_⟩
          obtain ⟨length, leads⟩ := flow.leads name draft found depth le member settled
          exact ⟨name, ty, length, rfl, leads⟩
        · intro premature
          cases premature
      | lit constant ty => exact absurd rfl absent
      | failure ty =>
        intro premature
        cases premature
      | tuple elems ty =>
        have each : ∀ elem ∈ elems, Safe (fun _ => True) (elem.draft depth env) :=
            fun elem member =>
          (ih held aliases env elem (List.Subset.trans (lets_subset_letsAll member) inside) known
            (constructiveAll_iff.mp constructive elem member)
              (withholdsAll_iff.mp withholds elem member) flow).imp
            fun _ _ => trivial
        refine (Safe.mapM each).bind fun drafts _ => ⟨fun absent' => absurd absent' absent, ?_⟩
        intro depth le member settled
        rw [settle_eq (by simp)] at settled
        cases settled
      | ctor name template index arg ty =>
        cases arg with
        | none => exact absurd rfl absent
        | some arg =>
          refine (ih held aliases env arg inside known constructive withholds flow).bind
              fun draft _ =>
            ⟨fun absent' => absurd absent' absent, ?_⟩
          intro depth le member settled
          rw [settle_eq (by simp)] at settled
          cases settled
      | lambda param paramTy body ty =>
        refine ⟨fun absent' => absurd absent' absent, fun depth le member settled => ?_⟩
        rw [settle_eq (by simp)] at settled
        cases settled
      | app func arg ty => cases constructive
      | matchOn scrutinee arms ty => cases constructive
      | letIn recursive definitions body ty =>
        obtain ⟨built, builtBody⟩ := Bool.and_eq_true_iff.mp constructive
        obtain ⟨withheld, withheldBody⟩ := Bool.and_eq_true_iff.mp withholds
        obtain ⟨own, inside⟩ := List.append_subset.mp inside
        obtain ⟨inner, behind⟩ := List.append_subset.mp inside
        have known' : definitions.reverse ++ aliases ⊆ all :=
          List.append_subset.mpr ⟨fun _ member => own (List.mem_reverse.mp member), known⟩
        have flowInner : Flow group
            (if recursive then holders (group ++ held) recursive definitions ++ held else held)
            (definitions.reverse ++ aliases) bound
              (if recursive then Drafts.knot definitions env else env) := by
          cases recursive with
          | true => exact flow.knot catalogue earlier built withheld inner known'
          | false => exact flow.mono catalogue (List.subset_append_right _ _) known'
        have each := fun definition (member : definition ∈ definitions) =>
          Carries.definition ih built withheld inner known' flowInner member
        refine (safe_definitions each).bind fun drafts given => ?_
        refine (ih _ _ _ body behind known' builtBody withheldBody
          (flow.after catalogue known' given)).imp
          fun draft stems => ⟨fun absent' => absurd absent' absent,
            fun depth le found settled => ?_⟩
        exact linksTo_letIn (stems.links depth le found settled)

end Flow

def placeholders (group : List Name) : Drafts := group.map fun name => (name, .pending name)

/-- The lets that are evaluated with an initializer keep to the rules by which the group is checked.
They bind each name once and no name of the group, and their values that are evaluated read no name
that holds a member. -/
structure Plain (group : List Name) (term : Term) : Prop where
  once : term.letNames.Nodup
  apart : ∀ name ∈ term.letNames, name ∉ group
  withholds : term.withholds group [] = true

theorem Plain.catalogue (plain : term.Plain group) : Catalogue group term.lets := by
  refine ⟨?_, fun definition member => ?_, fun definition member => lets_closed member⟩
  · rw [names_lets]
    exact plain.once
  · exact plain.apart definition.name (names_lets term ▸ List.mem_map_of_mem member)

theorem recursionFault?_of_validateGroup {definitions : List Definition} {spans : List Span}
    (accepted : validateGroup definitions spans = .ok ()) {definition : Definition}
    (member : definition ∈ definitions) :
    recursionFault? (definitions.map (·.name)) definition.value = none := by
  rw [validateGroup] at accepted
  generalize definitions.map (·.name) = group at accepted ⊢
  dsimp only at accepted
  generalize 0 = first at accepted
  induction definitions generalizing first with
  | nil => cases member
  | cons next rest ih =>
    rw [List.zipIdx_cons, List.forM_eq_forM, List.forM_cons] at accepted
    cases fault : recursionFault? group next.value with
    | some _ =>
      rw [fault] at accepted
      cases accepted
    | none =>
      rw [fault] at accepted
      rcases List.mem_cons.mp member with rfl | member
      · exact fault
      · exact ih member (first + 1) accepted

theorem flow_placeholders {outer : Drafts} (clean : outer.Clean) (bound : Nat) :
    Flow group [] [] bound (placeholders group ++ outer) := by
  have known : ∀ name draft, List.lookup name (placeholders group ++ outer) = some draft →
      name ∈ group ∧ draft = .pending name ∨ name ∉ group ∧ draft.Clean := by
    intro name draft found
    rcases lookup_append_cases found with here | ⟨absent, behind⟩
    · obtain ⟨other, inside, same⟩ := List.mem_map.mp here
      obtain ⟨rfl, rfl⟩ := Prod.mk.inj same
      exact .inl ⟨inside, rfl⟩
    · rw [← List.append_nil outer] at behind
      rcases lookup_append_cases behind with here | ⟨-, nowhere⟩
      · refine .inr ⟨fun inside => absent ?_, clean (name, draft) here⟩
        exact List.mem_map.mpr ⟨(name, .pending name), List.mem_map.mpr ⟨name, inside, rfl⟩, rfl⟩
      · cases nowhere
  refine ⟨fun name draft found outside => ?_, fun name draft found depth _ member settled => ?_⟩
  · rw [List.append_nil] at outside
    exact (known name draft found).elim (fun inside => absurd inside.1 outside) (·.2)
  · rcases known name draft found with ⟨inside, rfl⟩ | ⟨-, clean⟩
    · rw [settle_eq (by simp)] at settled
      cases settled
      exact ⟨0, .here rfl inside⟩
    · exact absurd settled (settle_ne_pending clean depth member)

/-- The initializers of an accepted group can be built: they use no placeholder and give none. -/
theorem accepted_group_grounded {definitions : List Definition} {spans : List Span}
    (accepted : validateGroup definitions spans = .ok ())
    (plain : ∀ definition ∈ definitions,
      definition.value.mentions (definitions.map (·.name)) [] = true →
      definition.value.Plain (definitions.map (·.name)))
    {outer : Drafts} (clean : outer.Clean) {definition : Definition}
    (member : definition ∈ definitions)
    (depth : Nat) :
    Safe (fun draft => ∀ later found, draft.settle later ≠ .ok (.pending found))
      (definition.value.draft depth (placeholders (definitions.map (·.name)) ++ outer)) := by
  have sound := recursionFault?_of_validateGroup accepted member
  have plain := plain definition member
  generalize definitions.map (·.name) = group at sound plain
  cases mentioned : definition.value.mentions group [] with
  | false =>
    have absent : definition.value.mentions (group ++ []) [] = false := by
      rw [List.append_nil, mentioned]
    exact ((flow_placeholders clean 0).safe_of_absent absent).imp fun _ clean =>
      settle_ne_pending clean
  | true =>
    have plain := plain mentioned
    rw [recursionFault?, if_neg (by simp [mentioned])] at sound
    by_cases constructive : definition.value.constructive group = true
    · rw [if_neg (by simp [constructive])] at sound
      have carried : ∀ bound, Safe (Stems group [] [] bound definition.value)
          (definition.value.draft depth (placeholders group ++ outer)) := fun bound =>
        carries plain.catalogue bound depth [] [] _ _ (List.Subset.refl _) (List.nil_subset _)
          constructive plain.withholds (flow_placeholders clean bound)
      cases given : definition.value.draft depth (placeholders group ++ outer) with
      | error halt =>
        rw [given] at carried
        exact carried 0
      | ok draft =>
        rw [given] at carried
        intro later found settled
        have links := (carried later).links later (Nat.le_refl later) found settled
        rw [linkedMember?_of_linksTo plain.catalogue links] at sound
        cases sound
    · rw [if_pos (by simpa using constructive)] at sound
      cases sound

/-- The definition of `f` by a pair of itself and a function that calls it, both by way of local
names. -/
def tied : Definition :=
  ⟨"f", .mono .unit, .letIn false [⟨"g", .mono .unit, .var "f" .unit⟩]
    (.letIn true
      [⟨"h", .mono .unit, .lambda "x" .unit (.app (.var "g" .unit) (.var "h" .unit) .unit) .unit⟩]
      (.tuple [.var "g" .unit, .var "h" .unit] .unit) .unit) .unit⟩

theorem tied_grounded : validateGroup [tied] [] = .ok () ∧ tied.value.Plain ["f"] ∧
    tied.value.draft 4 (placeholders ["f"]) = .ok (.tuple [.pending "f",
      .closure "x" (.app (.var "g" .unit) (.var "h" .unit) .unit)
        (Drafts.knot
          [⟨"h", .mono .unit,
              .lambda "x" .unit (.app (.var "g" .unit) (.var "h" .unit) .unit) .unit⟩]
          [("g", .pending "f"), ("f", .pending "f")])]) ∧
    Safe (fun draft => ∀ later found, draft.settle later ≠ .ok (.pending found))
      (tied.value.draft 4 (placeholders ["f"] ++ [])) := by
  have accepted : validateGroup [tied] [] = .ok () := by cbv
  have plain : tied.value.Plain ["f"] := ⟨by decide, by decide, by cbv⟩
  exact ⟨accepted, plain, rfl,
    accepted_group_grounded accepted (List.forall_mem_singleton.mpr fun _ => plain)
    (List.forall_mem_nil _) List.mem_cons_self 4⟩

/-- The definition of `f` by a call of itself by way of a local name. -/
def called : Definition :=
  ⟨"f", .mono .unit, .letIn false [⟨"g", .mono .unit, .var "f" .unit⟩]
    (.letIn false [⟨"h", .mono .unit, .app (.var "g" .unit) (.lit (.bool true) .unit) .unit⟩]
      (.lambda "x" .unit (.var "h" .unit) .unit) .unit) .unit⟩

/-- When two lets bind the same name, `f` is accepted as itself. When a let gives `f` another name,
a call of it is accepted. -/
theorem accepted_group_not_grounded :
    (validateGroup [aliased "a" "a"] [] = .ok () ∧
      (aliased "a" "a").value.draft 4 (placeholders ["f"]) = .ok (.pending "f")) ∧
    validateGroup [called] [] = .ok () ∧ called.value.draft 4 (placeholders ["f"]) =
      .error .premature :=
  ⟨⟨by cbv, rfl⟩, by cbv, rfl⟩

end Term

end PolyCheck
