import Mathlib
import PolyCheck.Surface

/-! Programs without annotations, under names that programs can spell, declarations of types in
which nothing is left open, and all the types and the names of values that a program spells out. -/
namespace PolyCheck.Surface

mutual

/-- A pattern without annotations whose names are not minted. -/
def Pattern.Bare : Pattern → Prop
  | .wild _ => True
  | .lit _ _ => True
  | .bind _ name => name.isMinted = false
  | .tuple _ elements => Pattern.BareAll elements
  | .ctor _ _ args => Pattern.BareAll args
  | .ascribed _ _ _ => False
  | .oneOf _ alternatives => Pattern.BareAll alternatives

def Pattern.BareAll : List Pattern → Prop
  | [] => True
  | pattern :: rest => pattern.Bare ∧ Pattern.BareAll rest

end

mutual

/-- An expression without annotations whose names are not minted. -/
def Expr.Bare : Expr → Prop
  | .lit _ _ => True
  | .ident _ name => name.isMinted = false
  | .app _ func arg => func.Bare ∧ arg.Bare
  | .tuple _ elements => Expr.BareAll elements
  | .lambda _ cases => Expr.BareCases cases
  | .letIn _ _ bindings body => Expr.BareBindings bindings ∧ body.Bare
  | .matchOn _ scrutinee cases => scrutinee.Bare ∧ Expr.BareCases cases
  | .ascribed _ _ _ => False

def Expr.BareAll : List Expr → Prop
  | [] => True
  | expr :: rest => expr.Bare ∧ Expr.BareAll rest

def Expr.BareCases : List Case → Prop
  | [] => True
  | ⟨_, pattern, body⟩ :: rest => pattern.Bare ∧ body.Bare ∧ Expr.BareCases rest

def Expr.BareBindings : List Binding → Prop
  | [] => True
  | ⟨_, name, type, value⟩ :: rest =>
    name.isMinted = false ∧ type = none ∧ value.Bare ∧ Expr.BareBindings rest

end

/-- A unit without annotations on values. Types are written only where they are declared. -/
def Decl.Bare : Decl → Prop
  | .data _ _ => True
  | .synonym _ _ _ _ => True
  | .define _ _ bindings => Expr.BareBindings bindings
  | .eval _ expr => expr.Bare

mutual

def TypeExpr.Complete : TypeExpr → Prop
  | .name _ _ => True
  | .var _ _ => True
  | .app _ head args => head.Complete ∧ TypeExpr.CompleteAll args
  | .arrow _ param result => param.Complete ∧ result.Complete
  | .tuple _ elements => TypeExpr.CompleteAll elements
  | .quantified _ _ body => body.Complete
  | .hole _ => False

def TypeExpr.CompleteAll : List TypeExpr → Prop
  | [] => True
  | written :: rest => written.Complete ∧ TypeExpr.CompleteAll rest

end

/-- A unit that leaves nothing open in what it declares. Annotations of values may have holes. -/
def Decl.Complete : Decl → Prop
  | .data _ types => ∀ type ∈ types, ∀ dataCase ∈ type.cases, TypeExpr.CompleteAll dataCase.fields
  | .synonym _ _ _ body => body.Complete
  | .define _ _ _ => True
  | .eval _ _ => True

mutual

def Pattern.annotations : Pattern → List TypeExpr
  | .wild _ => []
  | .lit _ _ => []
  | .bind _ _ => []
  | .tuple _ elements => Pattern.annotationsAll elements
  | .ctor _ _ args => Pattern.annotationsAll args
  | .ascribed _ inner type => inner.annotations ++ [type]
  | .oneOf _ alternatives => Pattern.annotationsAll alternatives

def Pattern.annotationsAll : List Pattern → List TypeExpr
  | [] => []
  | pattern :: rest => pattern.annotations ++ Pattern.annotationsAll rest

end

mutual

def Expr.annotations : Expr → List TypeExpr
  | .lit _ _ => []
  | .ident _ _ => []
  | .app _ func arg => func.annotations ++ arg.annotations
  | .tuple _ elements => Expr.annotationsAll elements
  | .lambda _ cases => Expr.annotationsCases cases
  | .letIn _ _ bindings body => Expr.annotationsBindings bindings ++ body.annotations
  | .matchOn _ scrutinee cases => scrutinee.annotations ++ Expr.annotationsCases cases
  | .ascribed _ inner type => inner.annotations ++ [type]

def Expr.annotationsAll : List Expr → List TypeExpr
  | [] => []
  | expr :: rest => expr.annotations ++ Expr.annotationsAll rest

def Expr.annotationsCases : List Case → List TypeExpr
  | [] => []
  | ⟨_, pattern, body⟩ :: rest =>
    pattern.annotations ++ body.annotations ++ Expr.annotationsCases rest

def Expr.annotationsBindings : List Binding → List TypeExpr
  | [] => []
  | ⟨_, _, type, value⟩ :: rest =>
    type.toList ++ value.annotations ++ Expr.annotationsBindings rest

end

theorem Expr.mem_annotationsBindings {bindings : List Binding} {binding : Binding} {type : TypeExpr}
    (member : binding ∈ bindings) (written : type ∈ binding.type) :
    type ∈ Expr.annotationsBindings bindings := by
  induction bindings with
  | nil => cases member
  | cons first rest ih =>
    obtain ⟨span, name, known, value⟩ := first
    rw [annotationsBindings, List.mem_append, List.mem_append]
    rcases List.mem_cons.mp member with rfl | later
    · exact .inl (.inl (Option.mem_toList.mpr written))
    · exact .inr (ih later)

mutual

def Pattern.names : Pattern → List Name
  | .wild _ => []
  | .lit _ _ => []
  | .bind _ name => [name]
  | .tuple _ elements => Pattern.namesAll elements
  | .ctor _ _ args => Pattern.namesAll args
  | .ascribed _ inner _ => inner.names
  | .oneOf _ alternatives => Pattern.namesAll alternatives

def Pattern.namesAll : List Pattern → List Name
  | [] => []
  | pattern :: rest => pattern.names ++ Pattern.namesAll rest

end

mutual

/-- The names of values that an expression uses or binds. -/
def Expr.names : Expr → List Name
  | .lit _ _ => []
  | .ident _ name => [name]
  | .app _ func arg => func.names ++ arg.names
  | .tuple _ elements => Expr.namesAll elements
  | .lambda _ cases => Expr.namesCases cases
  | .letIn _ _ bindings body => Expr.namesBindings bindings ++ body.names
  | .matchOn _ scrutinee cases => scrutinee.names ++ Expr.namesCases cases
  | .ascribed _ inner _ => inner.names

def Expr.namesAll : List Expr → List Name
  | [] => []
  | expr :: rest => expr.names ++ Expr.namesAll rest

def Expr.namesCases : List Case → List Name
  | [] => []
  | ⟨_, pattern, body⟩ :: rest => pattern.names ++ body.names ++ Expr.namesCases rest

def Expr.namesBindings : List Binding → List Name
  | [] => []
  | ⟨_, name, _, value⟩ :: rest => name :: value.names ++ Expr.namesBindings rest

end

theorem Expr.mem_namesBindings {bindings : List Binding} {binding : Binding}
    (member : binding ∈ bindings) : binding.name ∈ Expr.namesBindings bindings := by
  induction bindings with
  | nil => cases member
  | cons first rest ih =>
    obtain ⟨span, name, type, value⟩ := first
    rw [namesBindings]
    rcases List.mem_cons.mp member with rfl | later
    · exact List.mem_append_left _ List.mem_cons_self
    · exact List.mem_append_right _ (ih later)

/-- The names of values in a unit. A declaration of types has none. -/
def Decl.names : Decl → List Name
  | .data _ _ => []
  | .synonym _ _ _ _ => []
  | .define _ _ bindings => Expr.namesBindings bindings
  | .eval _ expr => expr.names

end PolyCheck.Surface
