import FeatureLogic.Grammar.Basic
import FeatureLogic.Notation.Reader
import FeatureLogic.Restrictor.Encoding

/-!
Grammars under construction: features, prototypes and the rest are added to a lattice one by one.
A step that fails keeps what it did before it failed.
-/

namespace FeatureLogic

/-- Why a grammar cannot be built. -/
inductive GrammarError
  | lattice (e : LatticeError)
  | unknownType (name : String)
  | unknownFeature (name : String)
  | prototype (type : String) (e : Notation.SyntaxError)
  | prototypeMismatch (type found : String)
  | malformed (e : Notation.SyntaxError)
  | restrictor (e : RestrictorError)
  | quickCheck (e : QuickCheckError)
  | description
  deriving DecidableEq, Repr

namespace GrammarError

/-- The text of an error, without its cause. -/
def message : GrammarError → String
  | lattice e => e.message
  | unknownType name => s!"unknown type `{name}`"
  | unknownFeature name => s!"unknown feature `{name}`"
  | prototype type _ => s!"prototype of `{type}`"
  | prototypeMismatch type found => s!"prototype of `{type}` has root type `{found}`"
  | malformed _ => "malformed feature structure"
  | restrictor e => e.message
  | quickCheck e => e.message
  | description => "invalid grammar description"

/-- The error of reading that lies behind this one. -/
def cause? : GrammarError → Option Notation.SyntaxError
  | prototype _ e | malformed e => some e
  | _ => none

end GrammarError

/-- A grammar so far. -/
structure GrammarDraft where
  lattice : Lattice
  features : NameTable
  prototypes : Graph
  roots : PrototypeRoots
  quickCheck : QuickCheck
  deleted : FeatureSet
  rules : Option RestrictRules
  /-- The introducing type of features. -/
  introducers : Std.TreeMap FeatureId TypeId

namespace GrammarDraft

/-- Nothing but types. -/
def ofLattice (lattice : Lattice) : GrammarDraft :=
  ⟨lattice, .empty, .empty, {}, .empty, .empty, none, {}⟩

instance : Inhabited GrammarDraft := ⟨ofLattice default⟩

/-- What a step makes of a draft, and its error if it fails. -/
abbrev Step := GrammarDraft → Except GrammarError Unit × GrammarDraft

/-- Adds a feature, if it is new. -/
def addFeature (d : GrammarDraft) (name : String) : GrammarDraft :=
  { d with features := d.features.insert name }

/-- The number of a feature, which must be known. -/
def feature (d : GrammarDraft) (name : String) : Except GrammarError FeatureId :=
  match d.features.index? name with
  | some feature => .ok feature
  | none => .error (.unknownFeature name)

/-- The type of a name, which must be known. -/
def type (d : GrammarDraft) (name : String) : Except GrammarError TypeId :=
  match d.lattice.typeId? name with
  | some type => .ok type
  | none => .error (.unknownType name)

/-- Reads the prototype of a type, whose root must be of that type. -/
def setPrototype (type text : String) : Step := fun d =>
  match d.type type with
  | .error e => (.error e, d)
  | .ok id =>
    let read := Notation.parse d.features d.lattice d.prototypes text
    let d := { d with prototypes := read.graph, lattice := read.lattice }
    match read.outcome with
    | .error e => (.error (.prototype type e), d)
    | .ok root =>
      let found := d.prototypes.type root
      if found = id then (.ok (), { d with roots := d.roots.insert id root })
      else (.error (.prototypeMismatch type ((d.lattice.typeName? found).getD "")), d)

/-- Sets the quick-check paths, given by the names of their features. -/
def setQuickCheckPaths (paths : List (List String)) : Step := fun d =>
  match paths.mapM fun path => path.mapM d.feature with
  | .error e => (.error e, d)
  | .ok paths => (.ok (), { d with quickCheck := .ofPaths paths })

/-- Reads a structure into a graph of its own. -/
def readAside (text : String) (d : GrammarDraft) :
    Except GrammarError (Graph × NodeId) × GrammarDraft :=
  let read := Notation.parse d.features d.lattice .empty text
  let d := { d with lattice := read.lattice }
  match read.outcome with
  | .error e => (.error (.malformed e), d)
  | .ok root => (.ok (read.graph, root), d)

/-- Sets the quick-check paths, written as a feature structure. -/
def setQuickCheckText (text : String) : Step := fun d =>
  match d.readAside text with
  | (.error e, d) => (.error e, d)
  | (.ok (graph, root), d) =>
    match QuickCheck.ofGraph graph d.lattice root with
    | .error e => (.error (.quickCheck e), d)
    | .ok quickCheck => (.ok (), { d with quickCheck })

/-- Makes a type the one that introduces a feature. -/
def setIntroducer (feature type : String) : Step := fun d =>
  match d.feature feature, d.type type with
  | .error e, _ | .ok _, .error e => (.error e, d)
  | .ok f, .ok t => (.ok (), { d with introducers := d.introducers.insert f t })

/-- Adds features that are dropped from every restricted result. -/
def addDeleted : List String → Step
  | [], d => (.ok (), d)
  | name :: rest, d =>
    match d.feature name with
    | .error e => (.error e, d)
    | .ok f => addDeleted rest { d with deleted := d.deleted.insert f }

/-- Sets the default rules, written as a feature structure. -/
def setRules (text : String) : Step := fun d =>
  match d.readAside text with
  | (.error e, d) => (.error e, d)
  | (.ok (graph, root), d) =>
    match RestrictRules.ofGraph graph d.lattice root with
    | .error e => (.error (.restrictor e), d)
    | .ok rules => (.ok (), { d with rules := some rules })

/-- The type of a feature's value in the prototype of a type; the universal type if there is no
such value. -/
def maximalType (d : GrammarDraft) (introducer : TypeId) (feature : FeatureId) : TypeId :=
  match d.roots[introducer]?.bind fun root => d.prototypes.value? root feature with
  | some value => d.prototypes.type value
  | none => .top

/-- The grammar as it is now. -/
def build (d : GrammarDraft) : Grammar where
  lattice := d.lattice
  features := d.features
  prototypes := d.prototypes
  roots := d.roots
  quickCheck := d.quickCheck
  restrictor := ⟨d.deleted, d.rules⟩
  special := .ofNames d.features
  keyMarker := d.lattice.typeId? Reserved.keyMarker
  diffList := d.lattice.typeId? Reserved.diffList
  appropriate := d.introducers.map fun feature introducer =>
    ⟨introducer, d.maximalType introducer feature⟩

end GrammarDraft

end FeatureLogic
