import Mathlib.Data.List.Nodup
import PolyCheck.Proofs.Name
import PolyCheck.Proofs.Value

/-! Evaluation of terms, call by value and from left to right. The evaluator takes the evaluation of
function bodies as a parameter, so it goes down the term only; the depth of calls is what a run is
bounded by. A recursive group has no meaning here. -/
namespace PolyCheck

inductive Stop where
  | failure
  | unsupported
  | unfinished
deriving DecidableEq

abbrev Outcome := Except Stop Value

namespace Bindings

def value? (env : Bindings) (name : Name) : Option Value :=
  env.reverse.lookup name

theorem value?_append (env more : Bindings) (name : Name) :
    value? (env ++ more) name = (value? more name).or (value? env name) := by
  rw [value?, List.reverse_append, List.lookup_append]
  rfl

theorem value?_single (name other : Name) (value : Value) :
    value? [(name, value)] other = if other = name then some value else none := by
  by_cases same : other = name
  · simp [value?, same]
  · simp [value?, List.lookup, same, beq_false_of_ne same]

theorem value?_eq_some_iff {env : Bindings} (distinct : (env.map (·.1)).Nodup) {name : Name}
    {value : Value} : env.value? name = some value ↔ (name, value) ∈ env := by
  rw [value?, lookup_eq_some_iff, List.mem_reverse]
  rw [List.map_reverse]
  exact List.nodup_reverse.mpr distinct

theorem value?_perm {env env' : Bindings} (perm : env.Perm env') (distinct : (env.map (·.1)).Nodup)
    (name : Name) : value? env name = value? env' name := by
  have distinct' : (env'.map (·.1)).Nodup := (perm.map (·.1)).nodup_iff.mp distinct
  ext value
  rw [value?_eq_some_iff distinct, value?_eq_some_iff distinct', perm.mem_iff]

end Bindings

def Value.ofConstant : Constant → Value
  | .bool value => .bool value
  | .int _ value => .int value
  | .str bytes => .str bytes

namespace Term

mutual

/-- The value of a term, where the bodies of functions are evaluated by `call`. -/
def evalWith (call : Term → Bindings → Outcome) (env : Bindings) : Term → Outcome
  | var name _ =>
    match env.value? name with
    | some value => .ok value
    | none => .error .failure
  | lit constant _ => .ok (.ofConstant constant)
  | tuple elems _ => do
    let values ← evalAllWith call env elems
    pure (.tuple values)
  | ctor _ _ index arg _ => do
    let arg ← evalOptionWith call env arg
    pure (.ctor index arg)
  | lambda param _ body _ => .ok (.closure param body env)
  | app func arg _ => do
    match ← evalWith call env func with
    | .closure param body inner =>
      let value ← evalWith call env arg
      call body (inner ++ [(param, value)])
    | _ => .error .unsupported
  | letIn true _ _ _ => .error .unsupported
  | letIn false definitions body _ => do
    let values ← evalDefinitionsWith call env definitions
    evalWith call (env ++ values) body
  | matchOn scrutinee arms _ => do
    let value ← evalWith call env scrutinee
    evalArmsWith call env value arms
  | failure _ => .error .failure

def evalAllWith (call : Term → Bindings → Outcome) (env : Bindings) :
    List Term → Except Stop (List Value)
  | [] => .ok []
  | term :: terms => do
    let first ← evalWith call env term
    let rest ← evalAllWith call env terms
    pure (first :: rest)

def evalOptionWith (call : Term → Bindings → Outcome) (env : Bindings) :
    Option Term → Except Stop (Option Value)
  | none => .ok none
  | some term => do
    let value ← evalWith call env term
    pure (some value)

def evalDefinitionsWith (call : Term → Bindings → Outcome) (env : Bindings) :
    List Definition → Except Stop Bindings
  | [] => .ok []
  | ⟨name, _, term⟩ :: definitions => do
    let value ← evalWith call env term
    let rest ← evalDefinitionsWith call env definitions
    pure ((name, value) :: rest)

/-- The body of the first case that matches, with what it captures. -/
def evalArmsWith (call : Term → Bindings → Outcome) (env : Bindings) (value : Value) :
    List Arm → Outcome
  | [] => .error .failure
  | ⟨pat, body⟩ :: arms =>
    match pat.match? value with
    | some captured => evalWith call (env ++ captured) body
    | none => evalArmsWith call env value arms

end

/-- The value of a term with calls up to some depth. -/
def eval : Nat → Term → Bindings → Outcome
  | 0, term, env => evalWith (fun _ _ => .error .unfinished) env term
  | depth + 1, term, env => evalWith (eval depth) env term

end Term

end PolyCheck
