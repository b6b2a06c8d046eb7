import Mathlib
import PolyCheck.Surface

/-! Parentheses, which are written as tuples of one element. An expression or a pattern has more
parentheses than another one when they stand around any parts of it, also around parts inside of
parentheses. Three places are left out, because what stands there is read as it is written: the
constructor at the head of an application, the argument that spells out the fields of a constructor
with several of them, and a single pattern for all of these fields. -/
namespace PolyCheck.Surface

abbrev Arities := Name → Option Nat

namespace Pattern

def StandsFor (count : Nat) : List Pattern → Prop
  | [.wild _] => True
  | [.tuple _ elements] => elements.length = count
  | _ => False

mutual

inductive Grouped (arities : Arities) : Pattern → Pattern → Prop where
  | parens (span : Span) {pattern pattern' : Pattern} (inner : Grouped arities pattern pattern') :
    Grouped arities pattern (.tuple span [pattern'])
  | wild (span : Span) : Grouped arities (.wild span) (.wild span)
  | lit (span : Span) (value : Literal) : Grouped arities (.lit span value) (.lit span value)
  | bind (span : Span) (name : Name) : Grouped arities (.bind span name) (.bind span name)
  | tuple (span : Span) {elements elements' : List Pattern}
      (each : GroupedAll arities elements elements') :
    Grouped arities (.tuple span elements) (.tuple span elements')
  | ctor (span : Span) (name : Name) {args args' : List Pattern}
      (each : GroupedAll arities args args')
    (spread : ∀ count, arities name = some count → 1 < count → StandsFor count args →
      StandsFor count args') :
    Grouped arities (.ctor span name args) (.ctor span name args')
  | ascribed (span : Span) (type : TypeExpr) {pattern pattern' : Pattern}
    (inner : Grouped arities pattern pattern') :
    Grouped arities (.ascribed span pattern type) (.ascribed span pattern' type)
  | oneOf (span : Span) {alternatives alternatives' : List Pattern}
    (each : GroupedAll arities alternatives alternatives') :
    Grouped arities (.oneOf span alternatives) (.oneOf span alternatives')

inductive GroupedAll (arities : Arities) : List Pattern → List Pattern → Prop where
  | nil : GroupedAll arities [] []
  | cons {first first' : Pattern} {rest rest' : List Pattern} (head : Grouped arities first first')
    (tail : GroupedAll arities rest rest') : GroupedAll arities (first :: rest) (first' :: rest')

end

theorem GroupedAll.length_eq {arities : Arities} {patterns patterns' : List Pattern}
    (each : GroupedAll arities patterns patterns') : patterns.length = patterns'.length := by
  induction patterns generalizing patterns' with
  | nil =>
    cases each
    rfl
  | cons first rest ih =>
    cases each with
    | cons _ tail => exact congrArg Nat.succ (ih tail)

/-- More parentheses never make a pattern stand for several fields. -/
theorem GroupedAll.standsFor {arities : Arities} {patterns patterns' : List Pattern} {count : Nat}
    (each : GroupedAll arities patterns patterns') (several : 1 < count)
    (stands : StandsFor count patterns') :
    StandsFor count patterns := by
  cases each with
  | nil => exact stands
  | cons head tail =>
    cases tail with
    | nil =>
      cases head with
      | parens span inner => exact absurd stands (Nat.ne_of_lt several)
      | tuple span each => exact each.length_eq.trans stands
      | _ => exact stands
    | cons => simp [StandsFor] at stands

mutual

theorem grouped_refl (arities : Arities) : ∀ pattern : Pattern, Grouped arities pattern pattern
  | .wild span => .wild span
  | .lit span value => .lit span value
  | .bind span name => .bind span name
  | .tuple span elements => .tuple span (groupedAll_refl arities elements)
  | .ctor span name args => .ctor span name (groupedAll_refl arities args) fun _ _ _ => id
  | .ascribed span pattern type => .ascribed span type (grouped_refl arities pattern)
  | .oneOf span alternatives => .oneOf span (groupedAll_refl arities alternatives)

theorem groupedAll_refl (arities : Arities) : ∀ patterns : List Pattern,
    GroupedAll arities patterns patterns
  | [] => .nil
  | first :: rest => .cons (grouped_refl arities first) (groupedAll_refl arities rest)

end

end Pattern

namespace Expr

/-- How many fields the constructor at the head of an application has. -/
def headArity? (arities : Arities) : Expr → Option Nat
  | .ident _ name => arities name
  | _ => none

/-- An argument that may be all the fields of a constructor: a tuple with as many elements, or no
tuple. -/
def StandsFor (count : Nat) : Expr → Prop
  | .tuple _ elements => elements.length = count
  | _ => True

mutual

inductive Grouped (arities : Arities) : Expr → Expr → Prop where
  | parens (span : Span) {expr expr' : Expr} (inner : Grouped arities expr expr') :
    Grouped arities expr (.tuple span [expr'])
  | lit (span : Span) (value : Literal) : Grouped arities (.lit span value) (.lit span value)
  | ident (span : Span) (name : Name) : Grouped arities (.ident span name) (.ident span name)
  | app (span : Span) {func func' arg arg' : Expr} (func_ : Grouped arities func func')
    (arg_ : Grouped arities arg arg') (head : (func.headArity? arities).isSome → func' = func)
    (spread : ∀ count, func.headArity? arities = some count → 1 < count →
      arg.StandsFor count → arg'.StandsFor count) :
    Grouped arities (.app span func arg) (.app span func' arg')
  | tuple (span : Span) {elements elements' : List Expr}
      (each : GroupedAll arities elements elements') :
    Grouped arities (.tuple span elements) (.tuple span elements')
  | lambda (span : Span) {cases cases' : List Case} (each : GroupedCases arities cases cases') :
    Grouped arities (.lambda span cases) (.lambda span cases')
  | letIn (span : Span) (recursive : Bool) {bindings bindings' : List Binding} {body body' : Expr}
    (each : GroupedBindings arities bindings bindings') (inner : Grouped arities body body') :
    Grouped arities (.letIn span recursive bindings body) (.letIn span recursive bindings' body')
  | matchOn (span : Span) {scrutinee scrutinee' : Expr} {cases cases' : List Case}
    (inner : Grouped arities scrutinee scrutinee') (each : GroupedCases arities cases cases') :
    Grouped arities (.matchOn span scrutinee cases) (.matchOn span scrutinee' cases')
  | ascribed (span : Span) (type : TypeExpr) {expr expr' : Expr}
      (inner : Grouped arities expr expr') :
    Grouped arities (.ascribed span expr type) (.ascribed span expr' type)

inductive GroupedAll (arities : Arities) : List Expr → List Expr → Prop where
  | nil : GroupedAll arities [] []
  | cons {first first' : Expr} {rest rest' : List Expr} (head : Grouped arities first first')
    (tail : GroupedAll arities rest rest') : GroupedAll arities (first :: rest) (first' :: rest')

inductive GroupedCases (arities : Arities) : List Case → List Case → Prop where
  | nil : GroupedCases arities [] []
  | cons (span : Span) (pattern : Pattern) {body body' : Expr} {rest rest' : List Case}
    (head : Grouped arities body body') (tail : GroupedCases arities rest rest') :
    GroupedCases arities (⟨span, pattern, body⟩ :: rest) (⟨span, pattern, body'⟩ :: rest')

inductive GroupedBindings (arities : Arities) : List Binding → List Binding → Prop where
  | nil : GroupedBindings arities [] []
  | cons (span : Span) (name : Name) (type : Option TypeExpr) {value value' : Expr}
    {rest rest' : List Binding} (head : Grouped arities value value')
    (tail : GroupedBindings arities rest rest') :
    GroupedBindings arities (⟨span, name, type, value⟩ :: rest)
      (⟨span, name, type, value'⟩ :: rest')

end

theorem GroupedAll.length_eq {arities : Arities} {exprs exprs' : List Expr}
    (each : GroupedAll arities exprs exprs') : exprs.length = exprs'.length := by
  induction exprs generalizing exprs' with
  | nil =>
    cases each
    rfl
  | cons first rest ih =>
    cases each with
    | cons _ tail => exact congrArg Nat.succ (ih tail)

/-- More parentheses never make an argument stand for several fields. -/
theorem Grouped.standsFor {arities : Arities} {expr expr' : Expr} {count : Nat}
    (grouped : Grouped arities expr expr') (several : 1 < count) (stands : expr'.StandsFor count) :
    expr.StandsFor count := by
  cases grouped with
  | parens span inner => exact absurd stands (Nat.ne_of_lt several)
  | tuple span each => exact each.length_eq.trans stands
  | _ => exact stands

mutual

theorem grouped_refl (arities : Arities) : ∀ expr : Expr, Grouped arities expr expr
  | .lit span value => .lit span value
  | .ident span name => .ident span name
  | .app span func arg =>
    .app span (grouped_refl arities func) (grouped_refl arities arg) (fun _ => rfl) fun _ _ _ => id
  | .tuple span elements => .tuple span (groupedAll_refl arities elements)
  | .lambda span cases => .lambda span (groupedCases_refl arities cases)
  | .letIn span recursive bindings body =>
    .letIn span recursive (groupedBindings_refl arities bindings) (grouped_refl arities body)
  | .matchOn span scrutinee cases =>
    .matchOn span (grouped_refl arities scrutinee) (groupedCases_refl arities cases)
  | .ascribed span expr type => .ascribed span type (grouped_refl arities expr)

theorem groupedAll_refl (arities : Arities) : ∀ exprs : List Expr, GroupedAll arities exprs exprs
  | [] => .nil
  | first :: rest => .cons (grouped_refl arities first) (groupedAll_refl arities rest)

theorem groupedCases_refl (arities : Arities) : ∀ cases : List Case,
    GroupedCases arities cases cases
  | [] => .nil
  | ⟨span, pattern, body⟩ :: rest =>
    .cons span pattern (grouped_refl arities body) (groupedCases_refl arities rest)

theorem groupedBindings_refl (arities : Arities) :
    ∀ bindings : List Binding, GroupedBindings arities bindings bindings
  | [] => .nil
  | ⟨span, name, type, value⟩ :: rest =>
    .cons span name type (grouped_refl arities value) (groupedBindings_refl arities rest)

end

end Expr

end PolyCheck.Surface
