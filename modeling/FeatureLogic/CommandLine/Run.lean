import FeatureLogic.CommandLine.Arguments
import FeatureLogic.CommandLine.Files
import FeatureLogic.Grammar.Description
import FeatureLogic.Session.Copy
import FeatureLogic.Session.Subsume

/-!
The commands of the program. A command that does its work tells so by text and an exit code, which
is not zero when types or structures do not unify; an error is a list of texts, the outermost first.
-/

namespace FeatureLogic.CommandLine

/-- What a command that could do its work reports. -/
structure Report where
  /-- Exit code: 0 for success, 1 when there is no unifier. -/
  code : Nat
  text : String
  deriving DecidableEq, Repr

/-- An error, as the texts of what went wrong, each the cause of the one before. -/
abbrev Chain := List String

/-- An error as it is shown: what went wrong, and below it the causes, numbered when there are
several. -/
def chainText : Chain → String
  | [] => "Error"
  | [error] => "Error: " ++ error
  | [error, cause] => s!"Error: {error}\n\nCaused by:\n    {cause}"
  | error :: causes => s!"Error: {error}\n\nCaused by:\n" ++
    "\n".intercalate (causes.zipIdx.map fun (cause, i) => s!"    {i}: {cause}")

/-- A plan that may fail. -/
abbrev Doing (α : Type) := ExceptT Chain Plan α

/-- Turns that a unification on the command line may take. -/
def commandBudget : Nat := 1000000000000

/-- The texts of an error in a grammar. -/
def grammarChain (e : GrammarError) : Chain :=
  e.message :: e.cause?.toList.map Notation.SyntaxError.message

/-- The texts of an error in a table. -/
def tableChain : GlbTableError → Chain
  | .unreadable cause => [(GlbTableError.unreadable cause).message, cause]
  | e => [e.message]

/-- The grammar that a file describes. -/
def loadGrammar (path : String) : Doing Grammar := do
  match ← (Plan.contents path : Plan Opened) with
  | .error e => throw [s!"failed to open grammar {path}", e.message]
  | .ok contents =>
    match contents.mapError (fun _ => GrammarError.description) >>= Grammar.read with
    | .ok grammar => return grammar
    | .error e => throw (s!"failed to load grammar {path}" :: grammarChain e)

/-- The grammar with the greatest lower bounds of a file known to its lattice. -/
def loadKnown (grammar : Grammar) (path : String) : Doing Grammar := do
  match ← (Plan.contents path : Plan Opened) with
  | .error e => throw [s!"failed to open GLB cache {path}", e.message]
  | .ok contents =>
    match contents.mapError (fun e => GlbTableError.unreadable e.message)
        >>= grammar.lattice.loadTable with
    | .ok (_, lattice) => return { grammar with lattice }
    | .error e => throw (s!"failed to read GLB cache {path}" :: tableChain e)

/-- The text of a structure: the argument itself, or a file after an at sign. -/
def structureText (argument : String) : Doing String := do
  match argument.toList with
  | '@' :: rest =>
    let path := String.ofList rest
    let refuse (text : String) : Doing String := throw [s!"failed to read {path}", text]
    match ← (Plan.contents path : Plan Opened) with
    | .error e | .ok (.error e) => refuse e.message
    | .ok (.ok bytes) =>
      match Text.decode? bytes with
      | some text => return text
      | none => refuse invalidTextCause
  | _ => return argument

/-- Reads the structure of an argument. -/
def readStructure (s : Session) (argument : String) : Doing (NodeId × Session) := do
  let text ← structureText argument
  match s.parse text with
  | (.ok root, s) => return (root, s)
  | (.error e, _) => throw [s!"malformed feature structure `{argument}`", e.message]

/-- Reads the restrictor of an argument, which deletes what the grammar deletes, too. -/
def readRestrictor (s : Session) (argument : String) : Doing (Restrictor × Session) := do
  let (root, s) ← readStructure s argument
  match RestrictRules.ofGraph s.graph s.grammar.lattice root with
  | .ok rules => return (.tree s.grammar.restrictor.deleted rules, s)
  | .error e => throw [s!"invalid restrictor `{argument}`", e.message]

/-- The type of a name, which must be known. -/
def typeOf (grammar : Grammar) (name : String) : Doing TypeId :=
  match grammar.lattice.typeId? name with
  | some type => return type
  | none => throw [s!"unknown type `{name}`"]

/-- Prints the greatest lower bound of two types; `bottom` is no success. -/
def runGlb (grammar : Grammar) (first second : String) : Doing Report := do
  let (glb, _) := grammar.lattice.unify (← typeOf grammar first) (← typeOf grammar second)
  if glb.isBottom then return ⟨1, s!"{glb}\n"⟩
  else return ⟨0, (grammar.lattice.typeName? glb).getD (toString glb) ++ "\n"⟩

/-- The lines of the nodes where the first operand failed. -/
def failureLines (log : FailureLog) : String :=
  String.join ((FailureLog.byNode log.forward).map fun (node, kind) =>
    s!"  {kind.message} at n{node}\n")

/-- Unifies two structures. Rules that are given are read before the structures are. -/
def runUnify (grammar : Grammar) (first second : String) (restrictor : Option String)
    (restrict failures : Bool) : Doing Report := do
  let s := (Session.ofGrammar grammar).recordFailures failures
  let (r, s) ← match restrictor with
    | some argument => readRestrictor s argument
    | none => pure (if restrict then grammar.restrictor else Session.unrestricted, s)
  let (a, s) ← readStructure s first
  let (b, s) ← readStructure s second
  match s.unifyInto commandBudget a b r with
  | some (some root, s) => return ⟨0, s.print root ++ "\n"⟩
  | some (none, s) =>
    return ⟨1, "unification failed\n" ++ (s.failures.map failureLines).getD ""⟩
  | none => throw ["unification does not come to an end"]

/-- The relation of two structures in words. -/
def verdict (r : Relation) : String :=
  match r.firstGeneral, r.secondGeneral with
  | true, true => "equal"
  | true, false => "first subsumes second"
  | false, true => "second subsumes first"
  | false, false => "incomparable"

/-- Compares two structures. -/
def runSubsumes (grammar : Grammar) (first second : String) : Doing Report := do
  let (a, s) ← readStructure (.ofGrammar grammar) first
  let (b, s) ← readStructure s second
  return ⟨0, verdict (s.relate a b).1 ++ "\n"⟩

/-- Writes what the lattice knows to a file. -/
def runGlbCache (grammar : Grammar) (out : String) (saturate : Bool) : Doing Report := do
  let lattice := if saturate then grammar.lattice.saturate else grammar.lattice
  match ← (Plan.write out lattice.known.render : Plan Created) with
  | .ok (.ok ()) => return ⟨0, s!"wrote {lattice.known.size} entries to {out}\n"⟩
  | .ok (.error e) => throw [s!"failed to write {out}", e.message]
  | .error e => throw [s!"failed to create {out}", e.message]

/-- Carries out a command with a grammar. -/
def execute (grammar : Grammar) : Command → Doing Report
  | .glb first second => runGlb grammar first second
  | .unify first second restrictor restrict failures =>
    runUnify grammar first second restrictor restrict failures
  | .subsumes first second => runSubsumes grammar first second
  | .glbCache out saturate => runGlbCache grammar out saturate

/-- Carries out what the arguments ask for. -/
def run (arguments : Arguments) : Plan (Except Chain Report) := ExceptT.run do
  let grammar ← loadGrammar arguments.grammar
  let grammar ← match arguments.glbCache with
    | some path => loadKnown grammar path
    | none => pure grammar
  execute grammar arguments.command

end FeatureLogic.CommandLine
