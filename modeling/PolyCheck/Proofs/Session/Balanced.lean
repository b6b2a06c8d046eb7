import PolyCheck.Proofs.Session.Lasting

/-! Scopes are entered and left in pairs. Every check gives back the scopes that it found, at its
end and at every failure, so a scope may as well be left by its depth as by leaving the innermost
one. -/
namespace PolyCheck.Check

open Run

variable {α : Type}

def endOf (check : Check α) (session : Session) : Session :=
  match check session with
  | .ok _ after => after
  | .error _ after => after

/-- The scopes afterwards, with all their bindings, are those of before. -/
def Balanced (check : Check α) : Prop :=
  ∀ session, (endOf check session).env = session.env

theorem growing_anything : Growing fun _ _ => True := ⟨fun _ _ => trivial, fun _ _ => trivial⟩

theorem solving_anything : Solving fun _ _ => True := ⟨growing_anything, fun _ _ _ _ => trivial⟩

theorem Steady.balanced {post : α → Prop} {check : Check α}
    (steady : Steady (fun _ _ => True) post check) : Balanced check := by
  intro session
  have after :=
    steady session.env session.options session.names session ⟨rfl, rfl, Nat.le_refl _, trivial⟩
  rw [endOf]
  cases result : check session with
  | ok value after' =>
    rw [result] at after
    exact after.1.env
  | error error after' =>
    rw [result] at after
    exact after.env

/-- What a scope holds is dropped when scopes are left until as many remain as there were around
it. -/
theorem truncate_foldl_bind (bindings : List (Name × Scheme)) (env : Env) :
    (bindings.foldl (fun (env : Env) (name, scheme) => env.bind name scheme) env.push).truncate
      env.depth = env := by
  have onTop : ∀ scope : Scope, ∃ scope',
      bindings.foldl (fun (env : Env) (name, scheme) => env.bind name scheme)
        { env with inner := scope :: env.inner } = { env with inner := scope' :: env.inner } := by
    induction bindings with
    | nil => exact fun scope => ⟨scope, rfl⟩
    | cons binding bindings ih => exact fun scope => ih (scope.insert binding.1 binding.2)
  obtain ⟨scope, entered⟩ := onTop .empty
  rw [Env.push, entered]
  simp [Env.truncate, Env.depth]

def inScopeByDepth (bindings : List (Name × Scheme)) (body : Check α) : Check α := fun session =>
  match body { session with
    env := bindings.foldl (fun env (name, scheme) => env.bind name scheme) session.env.push } with
  | .ok value after => .ok value { after with env := after.env.truncate session.env.depth }
  | .error error after => .error error { after with env := after.env.truncate session.env.depth }

theorem Balanced.inScope_eq {body : Check α} (balanced : Balanced body)
    (bindings : List (Name × Scheme)) : inScope bindings body = inScopeByDepth bindings body := by
  funext session
  have popped : (bindings.foldl (fun (env : Env) (name, scheme) => env.bind name scheme)
      session.env.push).pop.2 = session.env := Steady.foldl_bind_pop bindings session.env .empty
  have truncated := truncate_foldl_bind bindings session.env
  simp only [inScope, inScopeByDepth]
  generalize bindings.foldl (fun (env : Env) (name, scheme) => env.bind name scheme)
    session.env.push = entered at popped truncated ⊢
  have same := balanced { session with env := entered }
  rw [endOf] at same
  cases result : body { session with env := entered } with
  | ok value after =>
    simp only [result] at same
    simp only [same, popped, truncated]
  | error error after =>
    simp only [result] at same
    simp only [same, popped, truncated]

/-- The values of a recursive group, and what they hold fixed, may leave the scope of the group by
the depth around it, at their end and at every failure. -/
theorem inScope_values_eq (types : List Ty) (written : List Surface.Binding) (outer : Nat)
    (span : Span) (bindings : List (Name × Scheme)) :
    let values : Check (List Term × List TyVar) := do
      let terms ← inferValues types written
      ending .endless (fun session => session.env.walkableBelow outer session.subst) span
      let session ← get
      pure (terms, session.env.freeVarsBelow outer session.subst)
    inScope bindings values = inScopeByDepth bindings values := by
  intro values
  have steady : Steady (fun _ _ => True) anything values :=
    (steady_inferValues solving_anything types written).bind fun _ =>
      (steady_ending _ _ _).bind fun _ =>
      Steady.get.bind fun _ => .pure trivial
  exact steady.balanced.inScope_eq bindings

/-- In every session, expressions, cases, groups of bindings and patterns are checked without a
trace in the scopes, whether the check succeeds or fails. -/
theorem checks_balanced :
    (∀ written, Balanced (infer written)) ∧
      (∀ written expected, Balanced (expectExpr written expected)) ∧
      (∀ cases scrutineeTy result span, Balanced do
        let arms ← inferCases scrutineeTy result cases
        reportCoverage cases arms scrutineeTy span
        pure arms) ∧
      (∀ recursive bindings, Balanced (group recursive bindings)) ∧
      (∀ written captures, Balanced ((pattern written).run captures)) := by
  have solving := solving_anything
  refine ⟨fun written => ?_, fun written expected => ?_, fun cases scrutineeTy result span => ?_,
    fun recursive bindings => ?_, fun written captures => ?_⟩
  · exact (steady_infer solving written).balanced
  · exact ((steady_infer solving written).bind fun _ => steady_against solving expected
      _ _).balanced
  · have reported : Steady (fun _ _ => True) anything (do
        let arms ← inferCases scrutineeTy result cases
        reportCoverage cases arms scrutineeTy span
        pure arms) :=
      (steady_inferCases solving scrutineeTy result cases).bind fun _ =>
        (steady_reportCoverage cases _ scrutineeTy span).bind fun _ => .pure trivial
    exact reported.balanced
  · exact (steady_group solving recursive bindings).balanced
  · exact ((steady_pattern solving written).run captures).balanced

end PolyCheck.Check
