import FeatureLogic.Graph.Trail
import FeatureLogic.Restrictor.Basic

/-!
Restrictors written as feature structures. The name of a node's type encodes its rule: a mode and
types to make others general to, separated by commas. The universal type stands for the mode that
keeps, without types; when the first part names no mode, the mode keeps and all parts are types.
Nodes that are shared become rules that are shared.
-/

namespace FeatureLogic

/-- Why a structure encodes no restrictor. -/
inductive RestrictorError
  | unnamedType (node : NodeId)
  | unknownType (name : String)
  deriving DecidableEq, Repr

def RestrictorError.message : RestrictorError → String
  | unnamedType node => s!"restrictor node n{node} has no type name"
  | unknownType name => s!"unknown generalization type `{name}` in restrictor"

namespace RestrictRule

/-- The parts of a type name between its commas, without blanks around them and without empty
parts. Quotation marks around the whole name do not count. -/
def nameParts (name : String) : List String :=
  let bare := ((name.toList.dropWhile (· == '"')).reverse.dropWhile (· == '"')).reverse
  ((bare.splitOn ',').map fun part => String.ofList (Text.trim part)).filter (!·.isEmpty)

/-- The types of parts of a name. -/
def typesOf (l : Lattice) (parts : List String) : Except RestrictorError (List TypeId) :=
  parts.mapM fun part =>
    if part = topName then .ok .top
    else match l.typeId? part with
      | some type => .ok type
      | none => .error (.unknownType part)

/-- The rule that the type of a node encodes, without children. -/
def decode (l : Lattice) (node : NodeId) (type : TypeId) : Except RestrictorError RestrictRule :=
  if type.isTop then .ok (plain .keep)
  else match l.typeName? type with
    | none => .error (.unnamedType node)
    | some name => do
      let parts := nameParts name
      match parts.head?.bind RestrictMode.ofName? with
      | some mode => return ⟨mode, ← typesOf l parts.tail, []⟩
      | none => return ⟨.keep, ← typesOf l parts, []⟩

end RestrictRule

/-- The rules that the structure below a node encodes, numbered in the order of its trail. -/
def RestrictRules.ofGraph (g : Graph) (l : Lattice) (root : NodeId) :
    Except RestrictorError RestrictRules := do
  let trail := g.trail root
  let rules ← trail.toList.mapM fun n => do
    let rule ← RestrictRule.decode l n (g.type n)
    return { rule with
      children := Edges.mapTargets (fun m => (trail.place? m).getD 0) (g.edges n) }
  return ⟨rules.toArray, 0⟩

/-- The rules that can be come to from the root, by number. -/
def RestrictRules.reachable (t : RestrictRules) : List Nat :=
  let next (id : Nat) : List Nat := (t.rule id).children.map Edge.target
  let work := t.rules.foldl (fun w r => w + r.children.length) 1
  (Trail.walk t.size work next t.root).toList.mergeSort (· ≤ ·)

end FeatureLogic
