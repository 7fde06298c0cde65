import FeatureLogic.Ident
import FeatureLogic.BitSet
import FeatureLogic.Lattice.Closure
import FeatureLogic.Lattice.Order

/-!
Finished hierarchies. Types are numbered with parents first, coded types before leaf types. The
code of a type is the set of coded types below it, so greatest lower bounds of coded types are
intersections of codes, while a leaf type is below just the types on its chain of parents and
what is above the coded end of the chain.
-/

namespace FeatureLogic

/-- A hierarchy of numbered types with codes. Number 0 is the universal type. -/
structure Hierarchy where
  names : NameTable
  /-- The codes of the coded types, whose numbers come first. -/
  codes : Array BitSet
  /-- The immediate supertypes of each type, upwards by number. -/
  parents : Array (List Nat)
  /-- The immediate subtypes of each type, upwards by number. -/
  children : Array (List Nat)
  /-- The length of the longest chain of parents up to the universal type. -/
  depths : Array Nat

namespace Hierarchy

instance : Inhabited Hierarchy := ⟨⟨.empty, #[], #[], #[], #[]⟩⟩

/-- The number of types. -/
def size (h : Hierarchy) : Nat := h.names.size

/-- The number of coded types, which is the number of the first leaf type. -/
def firstLeaf (h : Hierarchy) : Nat := h.codes.size

def parentsOf (h : Hierarchy) (t : Nat) : List Nat := h.parents[t]?.getD []

def childrenOf (h : Hierarchy) (t : Nat) : List Nat := h.children[t]?.getD []

def codeOf (h : Hierarchy) (t : Nat) : BitSet := h.codes[t]?.getD .empty

/-- Whether a number is that of a leaf type. -/
def isLeaf (h : Hierarchy) (t : Nat) : Bool := h.firstLeaf ≤ t && t < h.size

/-- The one parent of a leaf type. -/
def leafParent? (h : Hierarchy) (t : Nat) : Option Nat :=
  if h.isLeaf t then (h.parentsOf t).head? else none

/-- The ancestors of a leaf type up to the first coded one, nearest first; `fuel` bounds them. -/
def chainAbove (h : Hierarchy) : Nat → Nat → List Nat
  | 0, _ => []
  | fuel + 1, t =>
    match h.leafParent? t with
    | none => []
    | some parent => parent :: chainAbove h fuel parent

/-- The chain of parents of a type up to the first coded one. -/
def chain (h : Hierarchy) (t : Nat) : List Nat := h.chainAbove h.size t

/-- The first coded type on the way up from a type. -/
def codedAbove (h : Hierarchy) (t : Nat) : Nat := (h.chain t).getLastD t

/-- The type that has exactly this set for its code. -/
def typeOfCode? (h : Hierarchy) (code : BitSet) : Option Nat :=
  h.codes.findIdx? code.sameBits

/-- The common part of two codes, read back as a type. -/
def meetCoded (h : Hierarchy) (s t : Nat) : TypeId :=
  let meet := (h.codeOf s).inter (h.codeOf t)
  if meet.isZero then .bottom
  else match h.typeOfCode? meet with
    | some glb => .of glb
    | none => .bottom

/-- A leaf type that has the coded type above it, or `bottom`. -/
def meetLeafCoded (h : Hierarchy) (leaf coded : Nat) : TypeId :=
  let t := h.codedAbove leaf
  if t == coded || (h.codeOf t).isSubset (h.codeOf coded) then .of leaf else .bottom

/-- The greatest lower bound of two different types other than the universal one. -/
def meetDistinct (h : Hierarchy) (s t : Nat) : TypeId :=
  match h.isLeaf s, h.isLeaf t with
  | false, false => h.meetCoded s t
  | true, true =>
    if (h.chain s).contains t then .of s
    else if (h.chain t).contains s then .of t
    else .bottom
  | true, false => h.meetLeafCoded s t
  | false, true => h.meetLeafCoded t s

/-- Depths from the top down, parents having the smaller numbers. -/
def depthsOf (parents : Array (List Nat)) : Array Nat :=
  parents.foldl (fun depths list =>
    depths.push ((list.map fun p => depths[p]?.getD 0 + 1).foldl max 0)) #[]

/-- Codes from the bottom up: the own number and the codes of the coded children. -/
def codesOf (count : Nat) (children : Array (List Nat)) : Array BitSet :=
  (List.range count).foldr (fun id codes =>
    let code := (children[id]?.getD []).foldl (fun code child =>
      if child < count then code.union (codes[child]?.getD .empty) else code)
      ((BitSet.ofSize count).insert id)
    codes.setIfInBounds id code) (.replicate count (.ofSize count))

/-- Numbers the types of a draft in the given order, leaf types last. -/
def ofDraft (d : Draft) (order : List Nat) : Hierarchy :=
  let coded := order.filter fun t => !d.isLeaf t
  let sequence := coded ++ order.filter d.isLeaf
  let number := sequence.zipIdx.foldl (fun number (t, id) => number.setIfInBounds t id)
    (Array.replicate d.size 0)
  let renumber (list : List Nat) : List Nat :=
    (list.map fun t => number[t]?.getD 0).mergeSort (· ≤ ·)
  let parents := (sequence.map fun t => renumber (d.parentsOf t)).toArray
  let children := (sequence.map fun t => renumber (d.childrenOf t)).toArray
  { names := NameTable.ofList (sequence.map d.nameOf)
    codes := codesOf coded.length children
    parents
    children
    depths := depthsOf parents }

/-- The hierarchy of declarations: resolved, ordered, closed under greatest lower bounds and
ordered once more with the inserted types. -/
def ofDeclarations (declarations : Declarations) : Except LatticeError Hierarchy := do
  let draft ← Draft.ofDeclarations declarations
  let order ← draft.ordering
  let closed ← (draft.markLeaves order).close order
  return ofDraft closed (← closed.ordering)

end Hierarchy

end FeatureLogic
