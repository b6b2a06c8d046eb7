import PolyCheck.Literal
import PolyCheck.Name
import PolyCheck.Span

/-! Programs as they are written: types, patterns, expressions and top-level units, each node with
its location. A tuple of one element is a pair of parentheses. -/
namespace PolyCheck.Surface

inductive TypeExpr where
  | name (span : Span) (name : Name)
  | var (span : Span) (name : Name)
  | app (span : Span) (head : TypeExpr) (args : List TypeExpr)
  | arrow (span : Span) (param result : TypeExpr)
  | tuple (span : Span) (elements : List TypeExpr)
  | quantified (span : Span) (params : List Name) (body : TypeExpr)
  | hole (span : Span)
deriving Inhabited

def TypeExpr.span : TypeExpr → Span
  | name span _ | var span _ | app span _ _ | arrow span _ _ | tuple span _
  | quantified span _ _ | hole span => span

inductive Pattern where
  | wild (span : Span)
  | lit (span : Span) (value : Literal)
  | bind (span : Span) (name : Name)
  | tuple (span : Span) (elements : List Pattern)
  | ctor (span : Span) (name : Name) (args : List Pattern)
  | ascribed (span : Span) (pattern : Pattern) (type : TypeExpr)
  | oneOf (span : Span) (alternatives : List Pattern)
deriving Inhabited

def Pattern.span : Pattern → Span
  | wild span | lit span _ | bind span _ | tuple span _ | ctor span _ _ | ascribed span _ _
  | oneOf span _ => span

mutual

inductive Expr where
  | lit (span : Span) (value : Literal)
  | ident (span : Span) (name : Name)
  | app (span : Span) (func arg : Expr)
  | tuple (span : Span) (elements : List Expr)
  | lambda (span : Span) (cases : List Case)
  | letIn (span : Span) (recursive : Bool) (bindings : List Binding) (body : Expr)
  | matchOn (span : Span) (scrutinee : Expr) (cases : List Case)
  | ascribed (span : Span) (expr : Expr) (type : TypeExpr)

structure Case where
  span : Span
  pattern : Pattern
  body : Expr

structure Binding where
  span : Span
  name : Name
  type : Option TypeExpr
  value : Expr

end

def Expr.span : Expr → Span
  | lit span _ | ident span _ | app span _ _ | tuple span _ | lambda span _ | letIn span _ _ _
  | matchOn span _ _ | ascribed span _ _ => span

structure CaseDecl where
  span : Span
  name : Name
  fields : List TypeExpr

structure DataDecl where
  span : Span
  name : Name
  params : List Name
  cases : List CaseDecl

/-- A top-level unit. -/
inductive Decl where
  | data (span : Span) (types : List DataDecl)
  | synonym (span : Span) (name : Name) (params : List Name) (body : TypeExpr)
  | define (span : Span) (recursive : Bool) (bindings : List Binding)
  | eval (span : Span) (expr : Expr)

def Decl.span : Decl → Span
  | data span _ | synonym span _ _ _ | define span _ _ | eval span _ => span

end PolyCheck.Surface
