import PolyCheck.Diagnostic
import PolyCheck.Options
import PolyCheck.Pat.Coverage

/-! Findings about the coverage of a match: cases that no value reaches and values that no case
takes. -/
namespace PolyCheck.Coverage

def uselessWarning (pat : Pat) (caseSpan matchSpan : Span) : Diagnostic :=
  { Diagnostic.warning ("useless match case `" ++ pat.display ++ "`") caseSpan with
    code := some "W0001"
    remarks := [⟨"every value it matches is matched by an earlier case", matchSpan⟩] }

def missingWarning (missing : Pat) (matchSpan : Span) : Diagnostic :=
  { Diagnostic.warning "non-exhaustive match" matchSpan with
    code := some "W0002"
    remarks := [⟨"`" ++ missing.display ++ "` is not matched", matchSpan⟩] }

def uselessWarnings (subst : Subst) (registry : Registry) (ty : Ty) (matchSpan : Span) :
    List Pat → List (Pat × Span) → List Diagnostic
  | _, [] => []
  | earlier, (pat, span) :: rest =>
    let later := uselessWarnings subst registry ty matchSpan (earlier ++ [pat]) rest
    if useful subst registry earlier pat ty then later
    else uselessWarning pat span matchSpan :: later

/-- Whether the search for values that a pattern matches and earlier ones do not comes to an end. -/
def decided (subst : Subst) (registry : Registry) (earlier : List Pat) (pat : Pat)
    (ty : Ty) : Bool :=
  (Problem.search? subst registry ⟨earlier.map ([·]), [pat], [ty]⟩).isSome

/-- Whether the searches that the options ask for come to an end. -/
def ends (options : Options) (subst : Subst) (registry : Registry) (pats : List Pat)
    (ty : Ty) : Bool :=
  (!options.warnUseless || pats.zipIdx.all fun (pat, index) =>
      decided subst registry (pats.take index) pat ty) &&
    (!options.warnNonExhaustive || decided subst registry pats .any ty)

def warnings (options : Options) (subst : Subst) (registry : Registry) (cases : List (Pat × Span))
    (ty : Ty) (matchSpan : Span) : List Diagnostic :=
  (if options.warnUseless then uselessWarnings subst registry ty matchSpan [] cases else []) ++
    if options.warnNonExhaustive then
      ((witness? subst registry (cases.map (·.1)) ty).map (missingWarning · matchSpan)).toList
    else []

end PolyCheck.Coverage
