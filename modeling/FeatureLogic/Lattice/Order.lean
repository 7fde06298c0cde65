import FeatureLogic.Lattice.Draft

/-!
Topological order of a draft: parents before children, types that become ready earlier first. When
the parent links run in a circle, the first type that never becomes ready is reported.
-/

namespace FeatureLogic.Draft

/-- How far the ordering of a draft has come. -/
structure Sorting where
  /-- For each type, how many of its parents are not yet ordered. -/
  pending : Array Nat
  /-- Types whose parents are all ordered, in the order in which that came about. -/
  ready : List Nat
  /-- The ordered types, last first. -/
  ordered : List Nat

namespace Sorting

/-- Notes that one parent of `child` is ordered. -/
def release (s : Sorting) (child : Nat) : Sorting :=
  let left := (s.pending[child]?.getD 0) - 1
  { s with
    pending := s.pending.setIfInBounds child left
    ready := if left = 0 then s.ready ++ [child] else s.ready }

/-- Orders the types that are ready, at most `fuel` of them. -/
def drain (d : Draft) : Nat → Sorting → Sorting
  | 0, s => s
  | fuel + 1, s =>
    match s.ready with
    | [] => s
    | t :: ready =>
      drain d fuel ((d.childrenOf t).foldl release { s with ready, ordered := t :: s.ordered })

/-- At the start the types without parents are ready. -/
def start (d : Draft) : Sorting :=
  let pending := d.parents.map List.length
  { pending
    ready := (List.range d.size).filter fun t => pending[t]? == some 0
    ordered := [] }

end Sorting

/-- All types with parents before children, or a type that is never ready. -/
def order (d : Draft) : Except Nat (List Nat) :=
  let final := Sorting.drain d d.size (Sorting.start d)
  if final.ordered.length < d.size then
    .error (((List.range d.size).find? fun t => 0 < final.pending[t]?.getD 0).getD 0)
  else .ok final.ordered.reverse

/-- The order, or the name of a type that is never ready as the error. -/
def ordering (d : Draft) : Except LatticeError (List Nat) :=
  match d.order with
  | .ok order => .ok order
  | .error t => .error (.cyclicHierarchy (d.nameOf t))

end FeatureLogic.Draft
