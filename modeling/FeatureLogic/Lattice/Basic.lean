import FeatureLogic.Lattice.Hierarchy
import FeatureLogic.Lattice.GlbTable

/-!
Type lattices: a hierarchy, the atoms met so far and the greatest lower bounds worked out so far.
An atom is a type of its own right below the universal type; it has no common lower bound with
any other type. What is worked out once is looked up from then on, so `unify` and `subsumes`
return the lattice with what they learned.
-/

namespace FeatureLogic

/-- A hierarchy with its atoms and known greatest lower bounds. -/
structure Lattice where
  hierarchy : Hierarchy
  /-- Names of atoms; they are numbered after the types of the hierarchy. -/
  atoms : NameTable
  /-- Greatest lower bounds worked out or read so far, by canonical pair. -/
  known : GlbTable

namespace Lattice

instance : Inhabited Lattice := ⟨⟨default, .empty, {}⟩⟩

/-- The lattice of declarations, with no atoms and nothing worked out. -/
def ofDeclarations (declarations : Declarations) : Except LatticeError Lattice :=
  (Hierarchy.ofDeclarations declarations).map fun hierarchy => ⟨hierarchy, .empty, {}⟩

/-- The number of types of the hierarchy. -/
def typeCount (l : Lattice) : Nat := l.hierarchy.size

def atomCount (l : Lattice) : Nat := l.atoms.size

/-! ### Kinds of types -/

/-- Whether a type is one of the hierarchy. -/
def isGrammarType (l : Lattice) : TypeId → Bool
  | .of t => t < l.typeCount
  | .bottom => false

/-- Whether a type has a code. -/
def isProper (l : Lattice) : TypeId → Bool
  | .of t => t < l.hierarchy.firstLeaf
  | .bottom => false

/-- Whether a type is a leaf type of the hierarchy. -/
def isLeaf (l : Lattice) : TypeId → Bool
  | .of t => l.hierarchy.isLeaf t
  | .bottom => false

/-- Whether a number lies where atoms are numbered. -/
def isAtom (l : Lattice) : TypeId → Bool
  | .of t => l.typeCount ≤ t
  | .bottom => false

/-! ### Names -/

/-- The type of a name: of the hierarchy, or an atom met before. -/
def typeId? (l : Lattice) (name : String) : Option TypeId :=
  match l.hierarchy.names.index? name with
  | some t => some (.of t)
  | none => (l.atoms.index? name).map fun a => .of (l.typeCount + a)

/-- The name of a type. `bottom` and numbers not given to any type have none. -/
def typeName? (l : Lattice) : TypeId → Option String
  | .of t => if t < l.typeCount then l.hierarchy.names.name? t else l.atoms.name? (t - l.typeCount)
  | .bottom => none

/-- The type of a name, which becomes an atom when the hierarchy does not have it. -/
def intern (l : Lattice) (name : String) : TypeId × Lattice :=
  match l.hierarchy.names.index? name with
  | some t => (.of t, l)
  | none =>
    let (a, atoms) := l.atoms.intern name
    (.of (l.typeCount + a), { l with atoms })

/-! ### Structure -/

/-- The immediate supertypes; the universal type, atoms and `bottom` have none. -/
def parents (l : Lattice) : TypeId → List TypeId
  | .of t => (l.hierarchy.parentsOf t).map .of
  | .bottom => []

/-- The immediate subtypes. -/
def children (l : Lattice) : TypeId → List TypeId
  | .of t => (l.hierarchy.childrenOf t).map .of
  | .bottom => []

/-- The one parent of a leaf type. -/
def leafParent? (l : Lattice) : TypeId → Option TypeId
  | .of t => (l.hierarchy.leafParent? t).map .of
  | .bottom => none

/-- The length of the longest chain of parents to the universal type; 1 for atoms. -/
def topDistance (l : Lattice) : TypeId → Nat
  | .of t => l.hierarchy.depths[t]?.getD 1
  | .bottom => 1

/-- The code of a coded type. -/
def code? (l : Lattice) : TypeId → Option BitSet
  | .of t => l.hierarchy.codes[t]?
  | .bottom => none

/-! ### Greatest lower bounds -/

/-- The answers that need no table: those with `bottom`, the universal type, equal types or atoms.
Otherwise the canonical pair to look up. -/
def easyGlb (l : Lattice) (s t : TypeId) : TypeId ⊕ (Nat × Nat) :=
  match s, t with
  | .bottom, _ | _, .bottom => .inl .bottom
  | .of s, .of t =>
    let lo := min s t
    let hi := max s t
    if lo = 0 ∨ lo = hi then .inl (.of hi)
    else if l.typeCount ≤ hi then .inl .bottom
    else .inr (lo, hi)

/-- The greatest lower bound of two types, worked out from the hierarchy alone. -/
def glb (l : Lattice) (s t : TypeId) : TypeId :=
  match l.easyGlb s t with
  | .inl answer => answer
  | .inr (lo, hi) => l.hierarchy.meetDistinct lo hi

/-- The greatest lower bound of two types, `bottom` when they clash. A known one is taken as it
is; one that is worked out becomes known. -/
def unify (l : Lattice) (s t : TypeId) : TypeId × Lattice :=
  match l.easyGlb s t with
  | .inl answer => (answer, l)
  | .inr (lo, hi) =>
    match l.known[(TypeId.of lo, TypeId.of hi)]? with
    | some answer => (answer, l)
    | none =>
      let answer := l.hierarchy.meetDistinct lo hi
      (answer, { l with known := l.known.learn (.of lo, .of hi) answer })

/-- Whether every thing of type `specific` is of type `general`. -/
def subsumes (l : Lattice) (general specific : TypeId) : Bool × Lattice :=
  if general = specific ∨ general = .top then (true, l)
  else
    let (glb, l) := l.unify general specific
    (glb == specific, l)

/-- Works out the greatest lower bound of every two types of the hierarchy. -/
def saturate (l : Lattice) : Lattice :=
  (List.range l.typeCount).foldl (fun l s =>
    (List.range l.typeCount).foldl (fun l t =>
      if 0 < s ∧ s < t then (l.unify (.of s) (.of t)).2 else l) l) l

/-- Reads raw text as a table for this lattice, which stays as it is. -/
def readTable (l : Lattice) (bytes : List UInt8) : Except GlbTableError GlbTable :=
  GlbTable.read l.typeCount bytes

/-- Takes over what raw text holds; what is known already stays. Also tells how many entries the
text has. -/
def loadTable (l : Lattice) (bytes : List UInt8) : Except GlbTableError (Nat × Lattice) :=
  (l.readTable bytes).map fun table => (table.size, { l with known := l.known.learnAll table })

end Lattice

end FeatureLogic
