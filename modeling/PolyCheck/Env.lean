import PolyCheck.Scheme
import PolyCheck.Table

/-! Schemes of the names in scope. Scopes are nested; the outermost one holds the names of the top
level and is never left. -/
namespace PolyCheck

abbrev Scope := Table Name Scheme

/-- The scopes inside the top level are listed innermost first. -/
structure Env where
  inner : List Scope
  globals : Scope
deriving DecidableEq

namespace Env

def empty : Env := ⟨[], .empty⟩

def depth (env : Env) : Nat := env.inner.length + 1

def push (env : Env) : Env :=
  { env with inner := .empty :: env.inner }

/-- Leaves the innermost scope, which is given back; the top level stays. -/
def pop (env : Env) : Option Scope × Env :=
  match env.inner with
  | [] => (none, env)
  | scope :: rest => (some scope, { env with inner := rest })

/-- Leaves scopes until `depth` of them remain, the top level at least. -/
def truncate (env : Env) (depth : Nat) : Env :=
  { env with inner := env.inner.drop (env.depth - max depth 1) }

def bindGlobal (env : Env) (name : Name) (scheme : Scheme) : Env :=
  { env with globals := env.globals.insert name scheme }

def bind (env : Env) (name : Name) (scheme : Scheme) : Env :=
  match env.inner with
  | [] => env.bindGlobal name scheme
  | scope :: rest => { env with inner := scope.insert name scheme :: rest }

def lookup? (env : Env) (name : Name) : Option Scheme :=
  (env.inner.findSome? (·.get? name)).or (env.globals.get? name)

def scopes (env : Env) : List Scope :=
  env.globals :: env.inner.reverse

def freeVarsBelow (env : Env) (depth : Nat) (subst : Subst) : List TyVar :=
  (((env.scopes.take depth).flatMap Table.values).flatMap (·.freeVars subst)).eraseDups

/-- Whether the walks for these variables come to an end. -/
def walkableBelow (env : Env) (depth : Nat) (subst : Subst) : Bool :=
  ((env.scopes.take depth).flatMap Table.values).all fun scheme =>
    (subst.freeVars? scheme.ty).isSome

def freeVars (env : Env) (subst : Subst) : List TyVar :=
  env.freeVarsBelow env.depth subst

end Env

end PolyCheck
