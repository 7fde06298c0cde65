/-!
Decimal numbers read strictly: digits of ASCII only, nothing before or after them but one sign
where a sign is allowed, and no number outside the given width.
-/

namespace FeatureLogic.Text

/-- The number that a nonempty run of digits denotes. -/
def digitsNat? (cs : List Char) : Option Nat :=
  if cs.isEmpty || !cs.all Char.isDigit then none
  else some (cs.foldl (fun n c => 10 * n + (c.toNat - '0'.toNat)) 0)

/-- A number below `bound`, with at most one plus sign before it. -/
def natBelow? (bound : Nat) (cs : List Char) : Option Nat :=
  let digits := match cs with
    | '+' :: rest => rest
    | _ => cs
  (digitsNat? digits).filter (· < bound)

/-- An integer of 64 bits in two's complement, with at most one sign before it. -/
def int64? (cs : List Char) : Option Int :=
  match cs with
  | '-' :: rest => ((digitsNat? rest).filter (· ≤ Nat.pow 2 63)).map fun n => -(n : Int)
  | '+' :: rest => ((digitsNat? rest).filter (· < Nat.pow 2 63)).map Int.ofNat
  | _ => ((digitsNat? cs).filter (· < Nat.pow 2 63)).map Int.ofNat

end FeatureLogic.Text
