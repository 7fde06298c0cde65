import Std.Data.TreeMap
import FeatureLogic.Ident
import FeatureLogic.Text.Blank
import FeatureLogic.Text.Decimal
import FeatureLogic.Text.Lines

/-!
Tables of greatest lower bounds, ordered by pair, and their text: one entry a line, three
numbers separated by blanks, the smaller type first and `-1` for `bottom`.
-/

namespace FeatureLogic

/-- Pairs of types in the order of the first and then of the second type. -/
def comparePairs (p q : TypeId × TypeId) : Ordering :=
  (p.1.compare q.1).then (p.2.compare q.2)

/-- Known greatest lower bounds, by pair. -/
abbrev GlbTable := Std.TreeMap (TypeId × TypeId) TypeId comparePairs

/-- Why a written table cannot be read. -/
inductive GlbTableError
  /-- The text could not be got at; `cause` says why. -/
  | unreadable (cause : String)
  | malformed (line : Nat) (text : String)
  | outOfRange (line : Nat) (id : Int) (count : Nat)
  deriving DecidableEq, Repr

namespace GlbTableError

def message : GlbTableError → String
  | unreadable cause => s!"failed to access glb cache: {cause}"
  | malformed line text => s!"line {line}: expected `t1 t2 result`, found `{text}`"
  | outOfRange line id count =>
    s!"line {line}: type id {id} is outside the lattice ({count} types)"

end GlbTableError

/-- The cause given for text that is not valid UTF-8. -/
def invalidTextCause : String := "stream did not contain valid UTF-8"

namespace GlbTable

/-- The pair with the smaller type first. -/
def canonical (s t : TypeId) : TypeId × TypeId := if s ≤ t then (s, t) else (t, s)

/-- Adds an entry; one that is there already stays as it is. -/
def learn (table : GlbTable) (pair : TypeId × TypeId) (glb : TypeId) : GlbTable :=
  table.insertIfNew pair glb

/-- Adds the entries of another table, each under its canonical pair. -/
def learnAll (table other : GlbTable) : GlbTable :=
  other.toList.foldl (fun table (pair, glb) => learn table (canonical pair.1 pair.2) glb) table

/-- The entries in the order of their pairs. -/
def entries (table : GlbTable) : List ((TypeId × TypeId) × TypeId) := table.toList

/-- A table of entries; of two entries for one pair the later counts. -/
def ofEntries (entries : List ((TypeId × TypeId) × TypeId)) : GlbTable :=
  entries.foldl (fun table (pair, glb) => table.insert pair glb) {}

/-- The text of a greatest lower bound in a table. -/
def resultText : TypeId → String
  | .bottom => "-1"
  | .of index => toString index

/-- The line of one entry. -/
def entryLine (entry : (TypeId × TypeId) × TypeId) : String :=
  s!"{entry.1.1.code} {entry.1.2.code} {resultText entry.2}\n"

/-- The text of a table. -/
def render (table : GlbTable) : String := String.join (table.entries.map entryLine)

/-- A number of a line as a type of a lattice with `count` types. -/
def checkedType (line count : Nat) (id : Int) : Except GlbTableError TypeId :=
  if id < 0 ∨ (count : Int) ≤ id then .error (.outOfRange line id count) else .ok (.of id.toNat)

/-- The entry of one line, `none` for a blank line. -/
def readLine (count line : Nat) (text : String) :
    Except GlbTableError (Option ((TypeId × TypeId) × TypeId)) :=
  let trimmed := Text.trim text.toList
  if trimmed.isEmpty then .ok none
  else match (Text.words trimmed).mapM Text.int64? with
    | some [t1, t2, glb] => do
      let s ← checkedType line count t1
      let t ← checkedType line count t2
      let result ← if glb = -1 then .ok .bottom else checkedType line count glb
      return some (canonical s t, result)
    | _ => .error (.malformed line (String.ofList trimmed))

/-- Reads the lines of a table for a lattice with `count` types, counting lines from one. Of two
lines for one pair the later counts; the first bad line ends the reading. -/
def readLines (count : Nat) (lines : List (Option String)) : Except GlbTableError GlbTable :=
  lines.zipIdx.foldlM (fun table (line, index) =>
    match line with
    | none => .error (.unreadable invalidTextCause)
    | some text => do
      match ← readLine count (index + 1) text with
      | none => return table
      | some (pair, glb) => return table.insert pair glb) {}

/-- Reads the raw text of a table for a lattice with `count` types. -/
def read (count : Nat) (bytes : List UInt8) : Except GlbTableError GlbTable :=
  readLines count (Text.lines bytes)

end GlbTable

end FeatureLogic
