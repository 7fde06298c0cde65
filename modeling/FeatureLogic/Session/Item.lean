import FeatureLogic.Session.Copy
import FeatureLogic.Session.Equal
import FeatureLogic.Session.Restrict
import FeatureLogic.Session.Subsume

/-!
Items: structures as rules are applied to them, a root with the quick-check vector it had when the
item was made. An active item has a list of arguments, into which passive items are unified.
-/

namespace FeatureLogic

/-- A root with its quick-check vector. -/
structure Item where
  root : NodeId
  vector : List TypeId
  deriving Inhabited

namespace Session

/-- The item of a root, with the vector of the current structure. -/
def item (s : Session) (root : NodeId) : Item :=
  ⟨root, s.grammar.quickCheck.vector s.graph root⟩

/-- The item of a root that an operation may have given. -/
def item? (root : Option NodeId) (s : Session) : Option Item × Session :=
  (root.map s.item, s)

/-- Reads an item. -/
def parseItem (s : Session) (text : String) : Except Notation.SyntaxError Item × Session :=
  let (root, s) := s.parse text
  (root.map s.item, s)

/-! ### Arguments -/

/-- Goes on to the rest of a list `n` times. -/
def restOf? (g : Graph) (rest : FeatureId) : Nat → NodeId → Option NodeId
  | 0, list => some list
  | n + 1, list =>
    match g.currentValue? list rest with
    | none => none
    | some list => restOf? g rest n list

/-- The node of an argument, counted from zero. -/
def argument? (s : Session) (active : Item) (n : Nat) : Option NodeId := do
  let args ← s.grammar.special.args
  let first ← s.grammar.special.first
  let rest ← s.grammar.special.rest
  let list ← s.graph.currentValue? active.root args
  s.graph.currentValue? (← restOf? s.graph rest n list) first

/-- The item of an argument, counted from zero. -/
def argumentItem? (s : Session) (active : Item) (n : Nat) : Option Item :=
  (s.argument? active n).map s.item

/-- Counts the elements of a list from a node on, added to `length`; `fuel` bounds them. -/
def countElements (g : Graph) (first rest : FeatureId) : Nat → NodeId → Nat → Nat
  | 0, _, length => length
  | fuel + 1, n, length =>
    if (g.currentValue? n first).isNone then length
    else match g.currentValue? n rest with
      | none => length + 1
      | some n => countElements g first rest fuel n (length + 1)

/-- The number of elements of a list. A list that runs in a circle counts as one element longer
than the graph is large. -/
def listLength (s : Session) (list : NodeId) : Nat :=
  match s.grammar.special.first, s.grammar.special.rest with
  | some first, some rest =>
    countElements s.graph first rest (s.graph.size + 1) (s.graph.deref list) 0
  | _, _ => 0

/-- The number of arguments. -/
def arity (s : Session) (active : Item) : Nat :=
  match s.grammar.special.args.bind (s.graph.currentValue? active.root ·) with
  | some list => s.listLength list
  | none => 0

/-- Whether an argument is marked as the key. -/
def isKeyArgument (s : Session) (active : Item) (keyArg : FeatureId) (marker : TypeId) (n : Nat) :
    Bool :=
  match (s.argument? active n).bind (s.graph.currentValue? · keyArg) with
  | some value => s.graph.currentType value == marker
  | none => false

/-- The first argument that is marked as the key. -/
def keyArgument? (s : Session) (active : Item) : Option Nat := do
  let keyArg ← s.grammar.special.keyArg
  let marker ← s.grammar.keyMarker
  (List.range (s.arity active)).find? (s.isKeyArgument active keyArg marker)

/-- The quick-check vector of an argument, `bottom` throughout when there is none. -/
def argumentVector (s : Session) (active : Item) (n : Nat) : List TypeId :=
  match s.argument? active n with
  | some argument => s.grammar.quickCheck.vector s.graph argument
  | none => List.replicate s.grammar.quickCheck.size .bottom

/-- Whether quick check lets a passive item pass for an argument with this vector. -/
def quickCompatible (s : Session) (vector : List TypeId) (passive : Item) : Bool × Session :=
  s.ask (QuickCheck.compatible vector passive.vector)

/-! ### Unification -/

/-- Unifies two items. -/
def unify (budget : Nat) (s : Session) (a b : Item) : Option (Option Item × Session) :=
  (unifyInto budget s a.root b.root unrestricted).map fun (root, s) => item? root s

/-- Unifies a passive item into an argument and leaves the result entangled. -/
def entangleArgument (budget : Nat) (s : Session) (active passive : Item) (n : Nat) :
    Option (Bool × Session) :=
  match s.argument? active n with
  | some argument => entangle budget s argument passive.root
  | none => some (false, s)

/-- Unifies a passive item into an argument and copies all of the active item out through a
restrictor. -/
def unifyArgument (budget : Nat) (s : Session) (active passive : Item) (n : Nat) (r : Restrictor) :
    Option (Option Item × Session) :=
  let size := s.graph.size
  (entangleArgument budget s active passive n).map fun (unified, s) =>
    if unified then
      let (root, s) := s.extractOver size active.root r
      item? root s
    else (none, s)

/-! ### Copies and restrictions -/

/-- A copy of an item through a restrictor; none when it is cyclic. -/
def extractItem (s : Session) (a : Item) (r : Restrictor) : Option Item × Session :=
  let (copy, s) := s.extract a.root r
  item? copy.toOption s

/-- A copy of the committed structure, with the same vector. -/
def cloneItem (s : Session) (a : Item) : Item × Session :=
  let (root, s) := s.clone a.root
  (⟨root, a.vector⟩, s)

/-- The item with the vector of its structure as it is now. -/
def refresh (s : Session) (a : Item) : Item × Session := (s.item a.root, s)

/-- An item restricted in place. -/
def restrictItem (s : Session) (a : Item) (r : Restrictor) : Item × Session :=
  (s.restrict a.root r).refresh a

/-- An item restricted in the special way. -/
def restrictItemSpecial (s : Session) (a : Item) (r : Restrictor) : Item × Session :=
  (s.restrictSpecial a.root r).refresh a

/-- An item unfilled. -/
def unfillItem (s : Session) (a : Item) : Item × Session := (s.unfill a.root false).refresh a

/-! ### Comparison -/

/-- Whether two items have the same vectors and structures. -/
def equalItems (s : Session) (a b : Item) : Bool × Session :=
  if a.vector = b.vector then s.equal a.root b.root else (false, s)

end Session

end FeatureLogic
