/-!
Option grammars of command lines and the reading of arguments by them. An option is written
`--name value`, `--name=value`, `-n value`, `-nvalue` or `-n=value`; switches can be strung together
after one hyphen. After `--` only positional arguments follow. A word that names a subcommand hands
over the rest of the line, unless it is the value that an option waits for.
-/

namespace FeatureLogic.CommandLine

/-- What is wrong with a command line, or what it asks for instead of a command. -/
inductive UsageError
  | help
  /-- Nothing is given where something must be, so help is shown. -/
  | helpForNothing
  | version
  | missingSubcommand
  | missingArgument
  | unknownArgument
  | unknownSubcommand
  /-- A value is missing, or empty where it must not be. -/
  | badValue
  /-- A switch has a value. -/
  | tooManyValues
  /-- An option is repeated or excludes another. -/
  | conflict
  deriving DecidableEq, Repr

/-- What an option takes or does. -/
inductive OptionKind
  /-- Takes any text. -/
  | text
  /-- Takes a text that is not empty. -/
  | path
  /-- Takes nothing. -/
  | switch
  | help
  | version
  deriving DecidableEq, Repr

/-- Whether a value belongs to the option. -/
def OptionKind.takesValue : OptionKind → Bool
  | text | path => true
  | switch | help | version => false

/-- An option with its long and, if it has one, its short name. -/
structure OptionRule where
  long : String
  short : Option Char
  kind : OptionKind
  deriving DecidableEq, Repr

/-- What one level of a command line may hold. -/
structure LevelRule where
  options : List OptionRule
  /-- How many positional arguments there are. -/
  positionals : Nat
  subcommands : List String
  deriving Repr

/-- What was read of one level. -/
structure Given where
  /-- Options with their values; a switch has an empty one. -/
  options : List (String × String)
  positionals : List String
  /-- The option read last, with its value if that has come. -/
  pending : Option (OptionRule × Option String)
  /-- Whether `--` was read. -/
  trailing : Bool
  deriving Repr

namespace Given

def empty : Given := ⟨[], [], none, false⟩

/-- Whether an option was read and its value taken over. -/
def has (g : Given) (long : String) : Bool := g.options.any (·.1 == long)

/-- The value of an option. -/
def value? (g : Given) (long : String) : Option String := g.options.lookup long

/-- Takes over an option with its value. -/
def give (g : Given) (rule : OptionRule) (value : String) : Except UsageError Given :=
  if g.has rule.long then .error .conflict
  else if rule.kind = .path ∧ value.isEmpty then .error .badValue
  else .ok { g with options := g.options ++ [(rule.long, value)] }

/-- Takes over the option read last, whose value must have come. -/
def settle (g : Given) : Except UsageError Given :=
  match g.pending with
  | none => .ok g
  | some (_, none) => .error .badValue
  | some (rule, some value) => { g with pending := none }.give rule value

/-- Whether the next word is the value of the option read last. -/
def awaitsValue (g : Given) : Bool :=
  match g.pending with
  | some (_, none) => true
  | _ => false

/-- Reads an option, with a value if one is attached to it. -/
def readOption (g : Given) (rule : OptionRule) (attached : Option String) :
    Except UsageError Given := do
  if rule.kind.takesValue then
    let g ← g.settle
    match attached with
    | some value => g.give rule value
    | none => return { g with pending := some (rule, none) }
  else if attached.isSome then throw .tooManyValues
  else
    let g ← g.settle
    match rule.kind with
    | .help => throw .help
    | .version => throw .version
    | _ => g.give rule ""

end Given

/-- Reads what follows two hyphens. -/
def readLong (rule : LevelRule) (g : Given) (body : List Char) : Except UsageError Given :=
  let long := String.ofList (body.takeWhile (· != '='))
  let attached := match body.dropWhile (· != '=') with
    | [] => none
    | _ :: value => some (String.ofList value)
  match rule.options.find? (·.long == long) with
  | some option => g.readOption option attached
  | none => .error .unknownArgument

/-- Reads what follows one hyphen. -/
def readShort (rule : LevelRule) (g : Given) : List Char → Except UsageError Given
  | [] => .ok g
  | c :: rest =>
    match rule.options.find? (·.short == some c) with
    | none => .error .unknownArgument
    | some option =>
      if option.kind.takesValue then
        g.readOption option (match rest with
          | [] => none
          | '=' :: value => some (String.ofList value)
          | value => some (String.ofList value))
      else do readShort rule (← g.readOption option none) rest

/-- Reads a word that is no option. -/
def readPositional (rule : LevelRule) (g : Given) (word : String) : Except UsageError Given :=
  if g.positionals.length < rule.positionals then do
    let g ← g.settle
    return { g with positionals := g.positionals ++ [word] }
  else if g.trailing && rule.subcommands.contains word then .error .unknownArgument
  else if !rule.subcommands.isEmpty then .error .unknownSubcommand
  else .error .unknownArgument

/-- Reads a word that names no subcommand. -/
def readWord (rule : LevelRule) (g : Given) (word : String) : Except UsageError Given :=
  if g.trailing then readPositional rule g word
  else
    let plain : Except UsageError Given :=
      match g.pending with
      | some (option, none) => .ok { g with pending := some (option, some word) }
      | _ => readPositional rule g word
    match word.toList with
    | ['-', '-'] => .ok { g with trailing := true }
    | '-' :: '-' :: body => readLong rule g body
    | ['-'] => plain
    | '-' :: body => readShort rule g body
    | _ => plain

/-- Reads one level up to its end or to a subcommand, whose name and words come with it. The level
is not settled yet. -/
def readLevel (rule : LevelRule) (g : Given) :
    List String → Except UsageError (Given × Option (String × List String))
  | [] => .ok (g, none)
  | word :: rest =>
    if !g.trailing && !g.awaitsValue && rule.subcommands.contains word then
      .ok (g, some (word, rest))
    else do readLevel rule (← readWord rule g word) rest

end FeatureLogic.CommandLine
