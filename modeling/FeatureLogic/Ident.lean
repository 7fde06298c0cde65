/-!
Identifiers of types, features and nodes.

A type is known by its number in a lattice, or is `bottom`, the outcome of a failed type
unification, which no node carries. Features and nodes are plain numbers: the position of the
feature in the grammar's list and of the node in its graph.
-/

namespace FeatureLogic

/-- A type of a lattice. Number 0 is the universal type; `bottom` is the absurd one. -/
inductive TypeId
  | of (index : Nat)
  | bottom
  deriving DecidableEq, Repr, Hashable

/-- A feature, by its position in the grammar's feature list. -/
abbrev FeatureId := Nat

/-- A node, by its position in its graph. -/
abbrev NodeId := Nat

namespace TypeId

/-- The universal supertype. -/
@[match_pattern] abbrev top : TypeId := .of 0

instance : Inhabited TypeId := ⟨top⟩

/-- The number written for `bottom` where only numbers fit: the largest 32-bit word. -/
def bottomCode : Nat := 4294967295

/-- The number that stands for a type where only numbers fit. -/
def code : TypeId → Nat
  | of index => index
  | bottom => bottomCode

/-- The type that a number stands for. -/
def ofCode (code : Nat) : TypeId :=
  if code = bottomCode then bottom else of code

def isTop (t : TypeId) : Bool := t == top

def isBottom : TypeId → Bool
  | of _ => false
  | bottom => true

/-- By number, with `bottom` after every other type. -/
protected def compare : TypeId → TypeId → Ordering
  | of a, of b => Ord.compare a b
  | of _, bottom => .lt
  | bottom, of _ => .gt
  | bottom, bottom => .eq

instance : Ord TypeId := ⟨TypeId.compare⟩

instance : LE TypeId := ⟨fun s t => (s.compare t).isLE = true⟩

instance (s t : TypeId) : Decidable (s ≤ t) :=
  inferInstanceAs (Decidable ((s.compare t).isLE = true))

/-- The written form of a type's number. -/
protected def toString : TypeId → String
  | of index => toString index
  | bottom => "BOTTOM"

instance : ToString TypeId := ⟨TypeId.toString⟩

@[simp] theorem isBottom_eq_true_iff {t : TypeId} : t.isBottom = true ↔ t = bottom := by
  cases t <;> simp [isBottom]

@[simp] theorem isTop_eq_true_iff {t : TypeId} : t.isTop = true ↔ t = top := by
  simp [isTop]

theorem of_le_of {a b : Nat} : of a ≤ of b ↔ a ≤ b := by
  show (Ord.compare a b).isLE = true ↔ a ≤ b
  exact Nat.isLE_compare

theorem le_bottom (t : TypeId) : t ≤ bottom := by
  cases t <;> rfl

end TypeId

end FeatureLogic
