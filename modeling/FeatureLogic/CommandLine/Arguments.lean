import FeatureLogic.CommandLine.Option

/-!
The arguments of the program: a grammar, known greatest lower bounds to begin with, and a command.
-/

namespace FeatureLogic.CommandLine

/-- What the program is to do. Structures are given as text or, after an at sign, by file. -/
inductive Command
  /-- Print the greatest lower bound of two types. -/
  | glb (first second : String)
  /-- Unify two structures and print the result, restricted as told or by default; list the nodes
  where it failed if wanted. -/
  | unify (first second : String) (restrictor : Option String) (restrict failures : Bool)
  /-- Compare two structures. -/
  | subsumes (first second : String)
  /-- Write the known greatest lower bounds to a file, all of them if wanted. -/
  | glbCache (out : String) (saturate : Bool)
  deriving DecidableEq, Repr

/-- What a command line that is right says: where the grammar is, where known bounds are if they are
given, and what to do. -/
structure Arguments where
  grammar : String
  glbCache : Option String
  command : Command
  deriving DecidableEq, Repr

/-- Every level shows help on request. -/
def helpOption : OptionRule := ⟨"help", some 'h', .help⟩

/-- The level of the program itself. -/
def programRule : LevelRule where
  options := [⟨"grammar", some 'g', .path⟩, ⟨"glb-cache", none, .path⟩, helpOption,
    ⟨"version", some 'V', .version⟩]
  positionals := 0
  subcommands := ["glb", "unify", "subsumes", "glb-cache", "help"]

/-- The level of a command that compares two things. -/
def pairRule : LevelRule := ⟨[helpOption], 2, []⟩

/-- The level of unification, whose results may be restricted in one of two ways. -/
def unifyRule : LevelRule :=
  ⟨[⟨"restrictor", none, .text⟩, ⟨"restrict", none, .switch⟩, ⟨"failures", none, .switch⟩,
    helpOption], 2, []⟩

/-- The level of writing a table of bounds, for which a place must be named. -/
def glbCacheRule : LevelRule :=
  ⟨[⟨"out", none, .path⟩, ⟨"saturate", none, .switch⟩, helpOption], 0, []⟩

/-- Reads the words of a command, which has no subcommands, to their end. -/
def readWhole (rule : LevelRule) (words : List String) : Except UsageError Given := do
  (← readLevel rule .empty words).1.settle

/-- The two positional arguments of a command. -/
def twoOf (g : Given) : Except UsageError (String × String) :=
  match g.positionals with
  | [first, second] => .ok (first, second)
  | _ => .error .missingArgument

/-- Help is there for the program and each of its commands. -/
def readHelp (words : List String) : UsageError :=
  match words with
  | [] => .help
  | [word] => if programRule.subcommands.contains word then .help else .unknownSubcommand
  | _ => .unknownSubcommand

/-- Reads the words of a command. -/
def readCommand (name : String) (words : List String) : Except UsageError Command :=
  match name with
  | "glb" => do
    let (first, second) ← twoOf (← readWhole pairRule words)
    return .glb first second
  | "subsumes" => do
    let (first, second) ← twoOf (← readWhole pairRule words)
    return .subsumes first second
  | "unify" => do
    let g ← readWhole unifyRule words
    if g.has "restrict" && g.has "restrictor" then throw .conflict
    let (first, second) ← twoOf g
    return .unify first second (g.value? "restrictor") (g.has "restrict") (g.has "failures")
  | "glb-cache" => do
    let g ← readWhole glbCacheRule words
    match g.value? "out" with
    | some out => return .glbCache out (g.has "saturate")
    | none => throw .missingArgument
  | "help" => .error (readHelp words)
  | _ => .error .unknownSubcommand

/-- Reads the words of a command line. What is wrong with the command comes before what is missing
at the level of the program. -/
def Arguments.read (words : List String) : Except UsageError Arguments := do
  match ← readLevel programRule .empty words with
  | (g, none) =>
    let g ← g.settle
    throw (if g.options.isEmpty then .helpForNothing else .missingSubcommand)
  | (g, some (name, rest)) =>
    let command ← readCommand name rest
    let g ← g.settle
    match g.value? "grammar" with
    | some grammar => return ⟨grammar, g.value? "glb-cache", command⟩
    | none => throw .missingArgument

end FeatureLogic.CommandLine
