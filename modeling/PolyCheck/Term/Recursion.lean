import PolyCheck.Term
import PolyCheck.TypeError

/-! Recursive groups that can be built. An initializer that mentions the group must be constructive:
functions, literals and variables inside tuples, constructors and lets, so that nothing is evaluated
before the group exists. And it must not be just another member of the group. -/
namespace PolyCheck.Term

mutual

/-- Whether a name of the group occurs free, where the shadowed names do not count. -/
def mentions (group : List Name) (shadowed : List Name) : Term → Bool
  | var name _ => group.contains name && !shadowed.contains name
  | lit _ _ => false
  | failure _ => false
  | tuple elems _ => mentionsAny group shadowed elems
  | ctor _ _ _ arg _ => mentionsOption group shadowed arg
  | app func arg _ => mentions group shadowed func || mentions group shadowed arg
  | lambda param _ body _ => mentions group (param :: shadowed) body
  | letIn recursive definitions body _ =>
    let inner := definitions.map (·.name) ++ shadowed
    mentionsDefinitions group (if recursive then inner else shadowed) definitions ||
      mentions group inner body
  | matchOn scrutinee arms _ =>
    mentions group shadowed scrutinee || mentionsArms group shadowed arms

def mentionsAny (group shadowed : List Name) : List Term → Bool
  | [] => false
  | term :: terms => mentions group shadowed term || mentionsAny group shadowed terms

def mentionsOption (group shadowed : List Name) : Option Term → Bool
  | none => false
  | some term => mentions group shadowed term

def mentionsDefinitions (group shadowed : List Name) : List Definition → Bool
  | [] => false
  | ⟨_, _, value⟩ :: rest =>
    mentions group shadowed value || mentionsDefinitions group shadowed rest

def mentionsArms (group shadowed : List Name) : List Arm → Bool
  | [] => false
  | ⟨pat, body⟩ :: rest =>
    mentions group (pat.captures ++ shadowed) body || mentionsArms group shadowed rest

end

mutual

/-- Whether a term can be built without evaluating a member of the group. -/
def constructive (group : List Name) : Term → Bool
  | lambda _ _ _ _ => true
  | var _ _ => true
  | lit _ _ => true
  | tuple elems _ => constructiveAll group elems
  | ctor _ _ _ arg _ => constructiveOption group arg
  | letIn _ definitions body _ =>
    constructiveDefinitions group definitions && constructive group body
  | app _ _ _ => false
  | matchOn _ _ _ => false
  | failure _ => false

def constructiveAll (group : List Name) : List Term → Bool
  | [] => true
  | term :: terms => constructive group term && constructiveAll group terms

def constructiveOption (group : List Name) : Option Term → Bool
  | none => true
  | some term => constructive group term

def constructiveDefinitions (group : List Name) : List Definition → Bool
  | [] => true
  | ⟨_, _, value⟩ :: rest =>
    (!mentions group [] value || constructive group value) && constructiveDefinitions group rest

end

mutual

def definitionCount : Term → Nat
  | var _ _ => 0
  | lit _ _ => 0
  | failure _ => 0
  | tuple elems _ => definitionCountAll elems
  | ctor _ _ _ arg _ => definitionCountOption arg
  | app func arg _ => definitionCount func + definitionCount arg
  | lambda _ _ body _ => definitionCount body
  | letIn _ definitions body _ => definitionCountIn definitions + definitionCount body
  | matchOn scrutinee arms _ => definitionCount scrutinee + definitionCountArms arms

def definitionCountAll : List Term → Nat
  | [] => 0
  | term :: terms => definitionCount term + definitionCountAll terms

def definitionCountOption : Option Term → Nat
  | none => 0
  | some term => definitionCount term

def definitionCountIn : List Definition → Nat
  | [] => 0
  | ⟨_, _, value⟩ :: rest => definitionCount value + definitionCountIn rest + 1

def definitionCountArms : List Arm → Nat
  | [] => 0
  | ⟨_, body⟩ :: rest => definitionCount body + definitionCountArms rest

end

/-- The definitions of the lets around the body of a term, the innermost last, and that body. -/
def peelLets : Term → List Definition × Term
  | letIn _ definitions body _ =>
    let (inner, core) := peelLets body
    (definitions ++ inner, core)
  | core => ([], core)

/-- Follows a term to the variable it evaluates to, through the definitions of lets; the latest
definition of a name counts, and a name is followed once. -/
def linkWithin (group : List Name) :
    Nat → List Definition → List Name → Term → Option Name
  | steps, aliases, visited, term =>
    let (definitions, core) := term.peelLets
    let aliases := definitions.reverse ++ aliases
    match core with
    | var name _ =>
      match aliases.find? (·.name = name) with
      | some next =>
        match steps with
        | 0 => none
        | steps + 1 =>
          if visited.contains name then none
          else linkWithin group steps aliases (name :: visited) next.value
      | none => if group.contains name then some name else none
    | _ => none

/-- The member of the group that a term evaluates to directly. Each step follows a new name, so
there are no more steps than definitions. -/
def linkedMember? (group : List Name) (term : Term) : Option Name :=
  linkWithin group (term.definitionCount + 1) [] [] term

def recursionFault? (group : List Name) (value : Term) : Option RecursionFault :=
  if !value.mentions group [] then none
  else if !value.constructive group then some .notConstructive
  else if (value.linkedMember? group).isSome then some .immediatelyLinked
  else none

/-- Refuses a recursive group at its first faulty initializer. -/
def validateGroup (definitions : List Definition) (spans : List Span) : Except TypeError Unit :=
  let group := definitions.map (·.name)
  definitions.zipIdx.forM fun (definition, index) =>
    match recursionFault? group definition.value with
    | some fault =>
      .error ⟨.illegalRecursion definition.name fault, spans[index]?.getD .synthetic⟩
    | none => .ok ()

end PolyCheck.Term
