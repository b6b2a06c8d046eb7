import PolyCheck.Registry

/-! The text of a type. Flexible variables are numbers behind a question mark and rigid ones names
behind a quote; parentheses stand only where the reading would change without them. -/
namespace PolyCheck

inductive Place where
  | top
  | arrowParam
  | argument
deriving DecidableEq

/-- The text, in parentheses if they are needed. -/
def parens (needed : Bool) (text : String) : String :=
  if needed then "(" ++ text ++ ")" else text

def Subst.varText (subst : Subst) (var : TyVar) : String :=
  let root := subst.root var
  match subst.cell root with
  | .rigid (some name) => "'" ++ name
  | .rigid none => "'?" ++ toString root.index
  | _ => "?" ++ toString root.index

namespace Ty

mutual

def render (varText : TyVar → String) (typeText : TemplateId → String) : Place → Ty → String
  | _, var v => varText v
  | place, arrow param result =>
    parens (place != .top) (render varText typeText .arrowParam param ++ " -> " ++
      render varText typeText .top result)
  | _, tuple elems => "(" ++ ", ".intercalate (renderAll varText typeText .top elems) ++ ")"
  | place, nominal template args =>
    parens (place == .argument && !args.isEmpty)
      (" ".intercalate (typeText template :: renderAll varText typeText .argument args))
  | place, quantified params body =>
    parens (place != .top) (" ".intercalate ("forall" :: params.map varText) ++ ". " ++
      render varText typeText .top body)
  | place, app head args =>
    parens (place == .argument) (" ".intercalate
      (render varText typeText .argument head :: renderAll varText typeText .argument args))

def renderAll (varText : TyVar → String) (typeText : TemplateId → String) (place : Place) :
    List Ty → List String
  | [] => []
  | t :: ts => render varText typeText place t :: renderAll varText typeText place ts

end

/-- The text of a type as far as it is known. -/
def display (ty : Ty) (subst : Subst) (registry : Registry) : String :=
  render subst.varText registry.typeName .top (subst.zonk ty)

end Ty

end PolyCheck
