import FeatureLogic.BitSet
import FeatureLogic.Lattice.Draft

/-!
Closure under greatest lower bounds. Every type that is no leaf has a code, the set of such types
below it. Wherever two codes have a common part that is the code of no type, a type is inserted
for it, below the least types that contain it and above the greatest types that it contains.
-/

namespace FeatureLogic

/-- The state of the closure: the draft so far and the codes of its coded types. -/
structure Closing where
  draft : Draft
  /-- The code of each bit's type. -/
  codes : Array BitSet
  /-- The type that each bit stands for. -/
  typeOfBit : Array Nat
  /-- How many types were inserted. -/
  inserted : Nat

namespace Closing

def codeOf (c : Closing) (bit : Nat) : BitSet := c.codes[bit]?.getD .empty

def typeAt (c : Closing) (bit : Nat) : Nat := c.typeOfBit[bit]?.getD 0

/-- Codes from the bottom up: the own bit and the codes of the coded children. -/
def codesOf (d : Draft) (coded : Array Nat) : Array BitSet :=
  (List.range coded.size).foldr (fun bit codes =>
    let t := coded[bit]?.getD 0
    let code := (d.childrenOf t).foldl (fun code child =>
      match coded.idxOf? child with
      | some below => code.union (codes[below]?.getD .empty)
      | none => code) ((BitSet.ofSize coded.size).insert bit)
    codes.setIfInBounds bit code) (.replicate coded.size (.ofSize coded.size))

/-- Bits in the order of the types, for the types that are no leaves. -/
def start (d : Draft) (order : List Nat) : Closing :=
  let coded := (order.filter fun t => !d.isLeaf t).toArray
  { draft := d, codes := codesOf d coded, typeOfBit := coded, inserted := 0 }

/-- The common part of two codes when it is not empty and no type has it for its code. -/
def missingMeet (c : Closing) (a b : Nat) : Option BitSet :=
  let x := c.codeOf a
  let y := c.codeOf b
  if x.isSubset y || y.isSubset x then none
  else
    let meet := x.inter y
    if meet.isZero || c.codes.any meet.sameBits then none else some meet

/-- The name with as many underscores after it as make it new; `fuel` bounds their number. -/
def freshName (names : Array String) : Nat → String → String
  | 0, name => name
  | fuel + 1, name => if names.contains name then freshName names fuel (name.push '_') else name

/-- The least of the codes that contain `meet`, by bit. -/
def leastAbove (c : Closing) (meet : BitSet) : List Nat :=
  let above := (List.range c.codes.size).filter fun u => meet.isSubset (c.codeOf u)
  above.filter fun u => !above.any fun v => v != u && (c.codeOf v).isSubset (c.codeOf u)

/-- The greatest of the codes whose types are in `meet`, by bit. -/
def greatestBelow (c : Closing) (meet : BitSet) : List Nat :=
  let below := meet.toList
  below.filter fun u => !below.any fun v => v != u && (c.codeOf u).isSubset (c.codeOf v)

/-- Puts a type between `parents` and `children`, which lose their direct links. -/
def insertBetween (d : Draft) (name : String) (parents children : List Nat) : Draft :=
  let new := d.size
  let childLists := parents.foldl (fun lists p =>
    lists.modify p fun list => list.filter (fun t => !children.contains t) ++ [new]) d.children
  let parentLists := children.foldl (fun lists t =>
    lists.modify t fun list => list.filter (fun p => !parents.contains p) ++ [new]) d.parents
  { names := d.names.push name
    parents := parentLists.push parents
    children := childLists.push children
    leaf := d.leaf.push false }

/-- Inserts a type whose code is `meet` and the bit of the type itself. -/
def insertMeet (c : Closing) (meet : BitSet) : Closing :=
  let bit := c.codes.size
  let serial := c.inserted + 1
  let name := freshName c.draft.names (c.draft.size + 1) s!"glbtype{serial}"
  let parents := (c.leastAbove meet).map c.typeAt
  let children := (c.greatestBelow meet).map c.typeAt
  let codes := c.codes.map fun code =>
    let wide := code.grow (bit + 1)
    if meet.isSubset code then wide.insert bit else wide
  { draft := insertBetween c.draft name parents children
    codes := codes.push ((meet.grow (bit + 1)).insert bit)
    typeOfBit := c.typeOfBit.push c.draft.size
    inserted := serial }

/-- Goes through the pairs of codes from `(a, b)` on, the first bit outermost, and inserts what is
missing. The codes that this adds are gone through as well. -/
def scan : Nat → Nat → Nat → Closing → Closing
  | 0, _, _, c => c
  | fuel + 1, a, b, c =>
    if b < c.codes.size then
      match c.missingMeet a b with
      | some meet => scan fuel a (b + 1) (c.insertMeet meet)
      | none => scan fuel a (b + 1) c
    else if a + 1 < c.codes.size then scan fuel (a + 1) (a + 2) c
    else c

/-- Goes through all pairs once. Distinct codes are distinct sets of the first `coded` types, so
there are at most `2 ^ coded` of them, and pairs accordingly. -/
def round (coded : Nat) (c : Closing) : Closing := scan (Nat.pow 4 (coded + 1)) 0 1 c

/-- How many rounds a closure may take. -/
def roundLimit : Nat := 256

/-- Takes rounds until one inserts nothing. -/
def rounds (coded : Nat) : Nat → Closing → Except LatticeError Closing
  | 0, _ => .error (.closureDiverged roundLimit)
  | left + 1, c =>
    let next := c.round coded
    if next.inserted = c.inserted then .ok next else rounds coded left next

end Closing

/-- The draft with every missing greatest lower bound inserted. -/
def Draft.close (d : Draft) (order : List Nat) : Except LatticeError Draft :=
  let start := Closing.start d order
  (Closing.rounds start.codes.size Closing.roundLimit start).map Closing.draft

end FeatureLogic
