import PolyCheck.Proofs.Pat.Worklist
import PolyCheck.Proofs.Session.Omitted

/-! What the coverage options do. They decide which findings about matches are reported, and nothing
else: under other options a unit has the same outcome and leaves the same session behind, and of the
findings those are reported that the options ask for. -/
namespace PolyCheck

namespace Coverage

def asked (useless missing : Bool) (finding : Diagnostic) : Bool :=
  (useless && finding.code == some "W0001") || (missing && finding.code == some "W0002")

variable {subst : Subst} {registry : Registry} {ty : Ty} {span : Span}

end Coverage

theorem Env.rename_id (env : Env) : env.rename id = env := by
  obtain ⟨inner, globals⟩ := env
  have scopes : Scope.rename id = id :=
    funext fun scope => congrArg Table.mk (List.map_id scope.entries)
  rw [Env.rename, scopes, List.map_id]

namespace Session

def reporting (session : Session) (useless missing : Bool) : Session :=
  { session with options :=
    { session.options with warnUseless := useless, warnNonExhaustive := missing } }

variable (session : Session) (useless missing : Bool)

def findingsOf (after : Session) : List Diagnostic := after.pending.drop session.pending.length

/-- What a later session that reports everything becomes under the options. -/
def chosen (after : Session) : Session :=
  { after with
    options := (session.reporting useless missing).options
    pending := session.pending ++ (session.findingsOf after).filter
      (Coverage.asked useless missing) }

variable {written : Surface.Decl}

/-- On a type whose head is never found the search for missing values goes on for ever. Without it
the same case is accepted, so there the option decides whether the check has a result. -/
theorem reportCoverage_selfApplied (case : Surface.Case) (arm : Arm) (span : Span) :
    Check.reportCoverage [case] [arm] .selfApplied span (session.reporting useless false) =
        .ok () (session.reporting useless false) ∧
      Check.reportCoverage [case] [arm] .selfApplied span (session.reporting useless true) =
        .error ⟨.endlessCoverage, span⟩ (session.reporting useless true) := by
  have first : ∀ subst registry, Coverage.decided subst registry [] arm.pat .selfApplied = true :=
    fun subst registry => by
      rw [Coverage.decided, Coverage.Search.search?_eq]
      rfl
  have never : ∀ subst registry, Coverage.decided subst registry [arm.pat] .any .selfApplied =
      false :=
    fun subst registry => by
      rw [Coverage.decided, Coverage.Search.search?_eq, if_neg (by simp),
        if_pos (Coverage.stands_selfApplied subst registry _ _ _)]
      rfl
  have ends : ∀ missing, Coverage.ends (session.reporting useless missing).options
      (session.reporting useless missing).subst (session.reporting useless missing).registry
        [arm.pat]
      .selfApplied = !missing := by
    intro missing
    cases missing <;> simp [Coverage.ends, reporting, first, never]
  have useful : ∀ subst registry, Coverage.useful subst registry [] arm.pat .selfApplied = true :=
    fun subst registry => by
      rw [Coverage.useful, Coverage.Search.uncovered?_eq]
      rfl
  have silent : ∀ subst registry, Coverage.uselessWarnings subst registry .selfApplied span []
      [(arm.pat, case.span)] = [] := fun subst registry => by
    rw [Coverage.uselessWarnings, if_pos (useful subst registry)]
    rfl
  constructor
  · have nothing : Coverage.warnings (session.reporting useless false).options
        (session.reporting useless false).subst (session.reporting useless false).registry
        [(arm.pat, case.span)] .selfApplied span = [] := by
      simp [Coverage.warnings, reporting, silent]
    refine Check.ending_bind_eq_ok.mpr ⟨ends false, ?_⟩
    exact congrArg (fun findings => EStateM.Result.ok () (List.foldl warn _ findings)) nothing
  · refine Run.bind_eq_error.mpr (.inl ?_)
    rw [Check.ending_apply]
    exact if_neg (Bool.eq_false_iff.mp (ends true))

end Session

end PolyCheck
