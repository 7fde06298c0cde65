import Std.Data.TreeMap
import FeatureLogic.Lattice.Basic
import FeatureLogic.Graph.Basic
import FeatureLogic.QuickCheck
import FeatureLogic.Restrictor.Basic

/-!
Grammars: a type lattice, features, prototypes of types, quick-check paths and what is deleted or
restricted by default. All but the atoms and the known bounds of the lattice stays as it was built.
-/

namespace FeatureLogic

/-! ### Names with a fixed meaning -/

namespace Reserved

/-- The list of arguments. -/
def args : String := "ARGS"
/-- The first element of a list. -/
def first : String := "FIRST"
/-- What follows the first element of a list. -/
def rest : String := "REST"
/-- The mark of the key argument. -/
def keyArg : String := "KEY-ARG"
/-- The front of a difference list. -/
def list : String := "LIST"
/-- The tail of a difference list. -/
def last : String := "LAST"
/-- The difference list of gaps. -/
def slash : String := "SLASH"

/-- The type of the value that marks the key argument. -/
def keyMarker : String := "+"

/-- The type of difference lists. -/
def diffList : String := "*diff-list*"

end Reserved

/-- The features with a fixed meaning, as far as a grammar has them. -/
structure SpecialFeatures where
  args : Option FeatureId
  first : Option FeatureId
  rest : Option FeatureId
  keyArg : Option FeatureId
  /-- The front of a difference list. -/
  list : Option FeatureId
  /-- The tail of a difference list. -/
  last : Option FeatureId
  slash : Option FeatureId
  deriving Inhabited

/-- Looks the fixed names up. -/
def SpecialFeatures.ofNames (names : NameTable) : SpecialFeatures where
  args := names.index? Reserved.args
  first := names.index? Reserved.first
  rest := names.index? Reserved.rest
  keyArg := names.index? Reserved.keyArg
  list := names.index? Reserved.list
  last := names.index? Reserved.last
  slash := names.index? Reserved.slash

/-- Which nodes carry a feature. -/
structure Appropriateness where
  /-- The most general type that carries the feature. -/
  introducer : TypeId
  /-- The type of the feature's value in the prototype of `introducer`. -/
  maximal : TypeId
  deriving DecidableEq, Repr, Inhabited

/-- Roots of prototypes, by type. -/
abbrev PrototypeRoots := Std.TreeMap TypeId NodeId TypeId.compare

/-- All that a unification needs besides its graph. -/
structure Grammar where
  lattice : Lattice
  features : NameTable
  /-- The graph of all prototypes. -/
  prototypes : Graph
  roots : PrototypeRoots
  quickCheck : QuickCheck
  /-- What results are restricted by unless told otherwise. -/
  restrictor : Restrictor
  special : SpecialFeatures
  /-- The type that marks the key argument. -/
  keyMarker : Option TypeId
  diffList : Option TypeId
  appropriate : Std.TreeMap FeatureId Appropriateness

instance : Inhabited Grammar :=
  ⟨⟨default, default, default, {}, default, default, default, none, none, {}⟩⟩

namespace Grammar

/-- The root of a type's prototype, if it has one with features. -/
def featuredPrototype? (g : Grammar) (type : TypeId) : Option NodeId :=
  match g.roots[type]? with
  | none => none
  | some root => if (g.prototypes.edges root).isEmpty then none else some root

/-- What a feature was declared appropriate for. -/
def appropriateness? (g : Grammar) (feature : FeatureId) : Option Appropriateness :=
  g.appropriate[feature]?

end Grammar

end FeatureLogic
