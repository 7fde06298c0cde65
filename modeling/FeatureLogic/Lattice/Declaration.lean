import FeatureLogic.NameTable

/-!
Declarations of types: names with the names of their parents, in the order of declaration. The
universal type is declared from the start.
-/

namespace FeatureLogic

/-- The name of the universal type. -/
def topName : String := "*top*"

/-- Why declarations do not make a lattice. -/
inductive LatticeError
  | emptyName
  | duplicateType (name : String)
  | unknownParent (type parent : String)
  | cyclicHierarchy (name : String)
  | closureDiverged (rounds : Nat)
  deriving DecidableEq, Repr

namespace LatticeError

def message : LatticeError → String
  | emptyName => "type name must not be empty"
  | duplicateType name => s!"type `{name}` is declared twice"
  | unknownParent type parent => s!"type `{type}` names unknown parent `{parent}`"
  | cyclicHierarchy name => s!"type hierarchy contains a cycle through `{name}`"
  | closureDiverged rounds => s!"glb closure did not converge after {rounds} rounds"

end LatticeError

/-- Declared types with the parents named for them. -/
structure Declarations where
  names : NameTable
  parents : Array (List String)

namespace Declarations

/-- Only the universal type, which has no parent. -/
def initial : Declarations := ⟨NameTable.empty.insert topName, #[[]]⟩

instance : Inhabited Declarations := ⟨initial⟩

def size (d : Declarations) : Nat := d.names.size

/-- Declares a type below its parents; without parents it is below the universal type. -/
def declare (d : Declarations) (name : String) (parents : List String) :
    Except LatticeError Declarations :=
  if name.isEmpty then .error .emptyName
  else if (d.names.index? name).isSome then .error (.duplicateType name)
  else .ok ⟨d.names.insert name, d.parents.push (if parents.isEmpty then [topName] else parents)⟩

/-- Declares a whole list; the first refusal ends it. -/
def declareAll (d : Declarations) (types : List (String × List String)) :
    Except LatticeError Declarations :=
  types.foldlM (fun d (name, parents) => d.declare name parents) d

end Declarations

end FeatureLogic
