import FeatureLogic.Lattice.Declaration

/-!
Drafts of a hierarchy: types by position, with the positions of their parents and children. A
draft comes from declarations and is ordered, classified and completed before types get their
final numbers.
-/

namespace FeatureLogic

/-- A hierarchy under construction. Position 0 is the universal type. -/
structure Draft where
  names : Array String
  parents : Array (List Nat)
  children : Array (List Nat)
  /-- Whether the type needs no code, because its single chain of parents says all. -/
  leaf : Array Bool
  deriving Repr, Inhabited

namespace Draft

def size (d : Draft) : Nat := d.names.size

def parentsOf (d : Draft) (t : Nat) : List Nat := d.parents[t]?.getD []

def childrenOf (d : Draft) (t : Nat) : List Nat := d.children[t]?.getD []

def isLeaf (d : Draft) (t : Nat) : Bool := d.leaf[t]?.getD false

def nameOf (d : Draft) (t : Nat) : String := d.names[t]?.getD ""

/-- The positions of named parents, each once, in the order of the names. -/
def resolveParents (names : NameTable) (type : String) :
    List String → Except LatticeError (List Nat)
  | list => list.foldlM (fun found parent =>
      match names.index? parent with
      | none => .error (.unknownParent type parent)
      | some p => .ok (if p ∈ found then found else found ++ [p])) []

/-- Adds each type to the children of its parents. -/
def childrenOfParents (parents : Array (List Nat)) : Array (List Nat) :=
  (List.range parents.size).foldl (fun children child =>
    (parents[child]?.getD []).foldl (fun children parent =>
      children.modify parent (· ++ [child])) children) (.replicate parents.size [])

/-- The draft of declarations whose parents are all declared. -/
def ofDeclarations (d : Declarations) : Except LatticeError Draft := do
  let parents ← (d.names.toList.zip d.parents.toList).mapM fun (name, list) =>
    resolveParents d.names name list
  return {
    names := d.names.names
    parents := parents.toArray
    children := childrenOfParents parents.toArray
    leaf := .replicate d.size false }

/-- Marks the leaf types: those other than the universal type that have one parent and only leaf
types for children. `order` has parents before children. -/
def markLeaves (d : Draft) (order : List Nat) : Draft :=
  order.foldr (fun t d =>
    let isLeaf := t != 0 && (d.parentsOf t).length == 1 && (d.childrenOf t).all d.isLeaf
    { d with leaf := d.leaf.setIfInBounds t isLeaf }) d

end Draft

end FeatureLogic
