import FeatureLogic.FeatureSet
import FeatureLogic.Graph.Edge
import FeatureLogic.Lattice.Basic
import FeatureLogic.Text.Blank

/-!
Restrictors: instructions, path by path, for what a copy or a pruning keeps of a structure and which
types it makes more general. A restrictor is a set of features to delete everywhere, or such a set
with a graph of rules that is gone along with the structure.
-/

namespace FeatureLogic

/-- What a rule does with the features of the node that it is applied to. -/
inductive RestrictMode
  /-- Keep the features whose rules do not delete, and only them. -/
  | keep
  /-- Drop every feature. -/
  | delete
  /-- Keep every feature except those whose rules delete. -/
  | leave
  deriving DecidableEq, Repr

namespace RestrictMode

/-- The full name of a mode. -/
def name : RestrictMode → String
  | keep => "rstr_keep"
  | delete => "rstr_del"
  | leave => "rstr_no"

/-- The mode of a name, full or short, with blanks around it and capitals allowed. -/
def ofName? (name : String) : Option RestrictMode :=
  match Text.lower (String.ofList (Text.trim name.toList)) with
  | "rstr_keep" | "keep" => some keep
  | "rstr_del" | "del" | "delete" => some delete
  | "rstr_no" | "no" | "none" => some leave
  | _ => none

end RestrictMode

/-- One rule: its mode, the types it makes others general to, and the rules of features. -/
structure RestrictRule where
  mode : RestrictMode
  generalize : List TypeId
  /-- For some features, the rule for their values, by number. -/
  children : List Edge
  deriving DecidableEq, Repr

namespace RestrictRule

/-- A rule with nothing but a mode. -/
def plain (mode : RestrictMode) : RestrictRule := ⟨mode, [], []⟩

instance : Inhabited RestrictRule := ⟨plain .keep⟩

/-- The number of the rule for the values of a feature. -/
def child? (r : RestrictRule) (feature : FeatureId) : Option Nat :=
  Edges.target? feature r.children

end RestrictRule

/-- Rules by number. They may share rules, and so may run in circles. -/
structure RestrictRules where
  rules : Array RestrictRule
  root : Nat
  deriving Repr

namespace RestrictRules

/-- One rule alone. -/
def single (mode : RestrictMode) : RestrictRules := ⟨#[.plain mode], 0⟩

def size (t : RestrictRules) : Nat := t.rules.size

/-- The rule of a number. -/
def rule (t : RestrictRules) (id : Nat) : RestrictRule := t.rules.getD id default

/-- Adds a rule; its number is the old size. -/
def add (t : RestrictRules) (mode : RestrictMode) : RestrictRules :=
  { t with rules := t.rules.push (.plain mode) }

/-- Makes `child` the rule for the values of a feature. -/
def setChild (t : RestrictRules) (parent : Nat) (feature : FeatureId) (child : Nat) :
    RestrictRules :=
  { t with rules := t.rules.modify parent fun r =>
    { r with children := Edges.put feature child r.children } }

/-- Lists the types that a rule makes others general to. -/
def setGeneralize (t : RestrictRules) (id : Nat) (types : List TypeId) : RestrictRules :=
  { t with rules := t.rules.modify id fun r => { r with generalize := types } }

end RestrictRules

/-- Features deleted everywhere, and rules if there are any. -/
structure Restrictor where
  deleted : FeatureSet
  rules? : Option RestrictRules

/-- Where a walk is in the rules: at one of them, or below all of them, where everything is kept
but the features deleted everywhere. -/
inductive RestrictCursor
  | open
  | at (rule : Nat)
  deriving DecidableEq, Repr, Hashable

namespace Restrictor

/-- No rules, only features to delete. -/
def simple (deleted : FeatureSet) : Restrictor := ⟨deleted, none⟩

/-- Rules together with features to delete. -/
def tree (deleted : FeatureSet) (rules : RestrictRules) : Restrictor := ⟨deleted, some rules⟩

instance : Inhabited Restrictor := ⟨simple .empty⟩

/-- Where a walk begins. -/
def start (r : Restrictor) : RestrictCursor :=
  match r.rules? with
  | none => .open
  | some rules => .at rules.root

/-- The rule at a cursor, none for an open walk. -/
def ruleAt? (r : Restrictor) (cursor : RestrictCursor) : Option RestrictRule :=
  match r.rules?, cursor with
  | some rules, .at id => some (rules.rule id)
  | _, _ => none

/-- The mode of the rule for the values of a feature. -/
def childMode? (r : Restrictor) (rule : RestrictRule) (feature : FeatureId) :
    Option RestrictMode :=
  match r.rules?, rule.child? feature with
  | some rules, some child => some (rules.rule child).mode
  | _, _ => none

/-- Whether the edge of a feature stays at a cursor. -/
def keeps (r : Restrictor) (cursor : RestrictCursor) (feature : FeatureId) : Bool :=
  if r.deleted.contains feature then false
  else match r.ruleAt? cursor with
    | none => true
    | some rule =>
      match rule.mode with
      | .leave => r.childMode? rule feature != some .delete
      | .keep => (r.childMode? rule feature).any (· != .delete)
      | .delete => false

/-- The cursor for the value of a feature. -/
def descend (r : Restrictor) (cursor : RestrictCursor) (feature : FeatureId) : RestrictCursor :=
  match (r.ruleAt? cursor).bind (·.child? feature) with
  | none => .open
  | some child => .at child

/-- Tries the types of a list one after the other against `type`. The best so far gives way to a
type that subsumes `type` when it subsumes that type. -/
def bestGeneral (type : TypeId) :
    List TypeId → Option TypeId → Lattice → Option TypeId × Lattice
  | [], best, l => (best, l)
  | candidate :: rest, best, l =>
    match l.subsumes candidate type with
    | (false, l) => bestGeneral type rest best l
    | (true, l) =>
      match best with
      | none => bestGeneral type rest (some candidate) l
      | some current =>
        match l.subsumes current candidate with
        | (true, l) => bestGeneral type rest (some candidate) l
        | (false, l) => bestGeneral type rest (some current) l

/-- The most specific listed type at a cursor that subsumes `type`, or `type` itself. -/
def generalize (r : Restrictor) (cursor : RestrictCursor) (type : TypeId) (l : Lattice) :
    TypeId × Lattice :=
  match r.ruleAt? cursor with
  | none => (type, l)
  | some rule =>
    let (best, l) := bestGeneral type rule.generalize none l
    (best.getD type, l)

/-- A bound on the number of cursors that a walk can be at. -/
def cursorBound (r : Restrictor) : Nat := 1 + (r.rules?.map RestrictRules.size).getD 0

end Restrictor

end FeatureLogic
