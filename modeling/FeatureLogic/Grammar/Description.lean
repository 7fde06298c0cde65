import FeatureLogic.Grammar.Draft
import FeatureLogic.JsonText

/-!
Grammar descriptions: all that a grammar is built from, as one JSON record. Every field may be left
out. Of a repeated key in a map the last value counts, and maps are gone through by key.
-/

namespace FeatureLogic

/-- What a grammar is built from. -/
structure Description where
  /-- Types with their parents. -/
  types : List (String × List String)
  features : List String
  /-- Types with their prototypes, in bracket form. -/
  prototypes : List (String × String)
  quickCheck : List (List String)
  /-- Features with the types that introduce them. -/
  appropriate : List (String × String)
  deleted : List String
  /-- Rules, in bracket form. -/
  rules : Option String
  deriving Repr, DecidableEq

namespace Description

open JsonText

/-- The names of the fields, in order. -/
def fieldNames : List String :=
  ["types", "features", "prototypes", "quick_check", "appropriate", "delete_features", "restrictor"]

/-- The value of a field, or another when the field is left out. -/
def field? {α : Type} (form : Value → Option α) (other : α) : Option Value → Option α
  | some value => form value
  | none => some other

def texts? : Value → Option (List String) := Value.list? Value.text?

/-- The declaration of one type, whose name must be there. -/
def type? (value : Value) : Option (String × List String) := do
  match ← value.fields? ["name", "parents"] with
  | [some name, parents] => return (← name.text?, ← field? texts? [] parents)
  | _ => none

/-- A map from names to names, by key. -/
def map? (value : Value) : Option (List (String × String)) := do
  let members ← value.members? Value.text?
  let table : Std.TreeMap String String := members.foldl (fun t (key, text) => t.insert key text) {}
  return table.toList

/-- A text, or null for none. -/
def optional? : Value → Option (Option String)
  | .null => some none
  | value => value.text?.map some

/-- The description that a JSON value is. -/
def ofValue? (value : Value) : Option Description := do
  match ← value.fields? fieldNames with
  | [types, features, prototypes, quickCheck, appropriate, deleted, rules] =>
    return {
      types := ← field? (Value.list? type?) [] types
      features := ← field? texts? [] features
      prototypes := ← field? map? [] prototypes
      quickCheck := ← field? (Value.list? texts?) [] quickCheck
      appropriate := ← field? map? [] appropriate
      deleted := ← field? texts? [] deleted
      rules := ← field? optional? none rules }
  | _ => none

/-- Reads a description from the bytes of a JSON text. -/
def read? (bytes : List UInt8) : Option Description := (JsonText.read bytes).bind ofValue?

end Description

namespace GrammarDraft

/-- Takes steps in order; the first that fails ends it. -/
def steps (d : GrammarDraft) : List Step → Except GrammarError GrammarDraft
  | [] => .ok d
  | step :: rest =>
    match step d with
    | (.ok (), d) => steps d rest
    | (.error e, _) => .error e

end GrammarDraft

/-- The steps that a description asks for after its types and features. -/
def Description.steps (d : Description) : List GrammarDraft.Step :=
  d.prototypes.map (fun (type, text) => GrammarDraft.setPrototype type text)
    ++ (if d.quickCheck.isEmpty then [] else [GrammarDraft.setQuickCheckPaths d.quickCheck])
    ++ d.appropriate.map (fun (feature, type) => GrammarDraft.setIntroducer feature type)
    ++ [GrammarDraft.addDeleted d.deleted]
    ++ d.rules.toList.map GrammarDraft.setRules

namespace Grammar

/-- Builds the grammar of a description. -/
def ofDescription (d : Description) : Except GrammarError Grammar := do
  let lattice ← match Declarations.initial.declareAll d.types >>= Lattice.ofDeclarations with
    | .ok lattice => .ok lattice
    | .error e => .error (.lattice e)
  let draft := d.features.foldl GrammarDraft.addFeature (.ofLattice lattice)
  return (← draft.steps d.steps).build

/-- Builds the grammar that the bytes of a JSON text describe. -/
def read (bytes : List UInt8) : Except GrammarError Grammar :=
  match Description.read? bytes with
  | some d => ofDescription d
  | none => .error .description

end Grammar

end FeatureLogic
