import FeatureLogic.CommandLine.Run

/-!
The program: reads its arguments, carries the plan out on the files of the system and prints the
report.
-/

namespace FeatureLogic.CommandLine

/-- The error of the system as commands report it. -/
def FileError.ofSystem : IO.Error → FileError
  | .noFileOrDirectory .. => .notFound
  | .inappropriateType _ 20 _ => .notDirectory
  | .inappropriateType _ 21 _ => .isDirectory
  | .resourceExhausted _ 28 _ => .noSpace
  | .invalidArgument _ 36 _ => .nameTooLong
  | e => .other (toString e)

/-- Opens a file of the system and reads what is in it. -/
def openFile (path : String) : IO Opened := do
  match ← EIO.toBaseIO (IO.FS.Handle.mk path .read) with
  | .error e => return .error (.ofSystem e)
  | .ok handle =>
    match ← EIO.toBaseIO handle.readBinToEnd with
    | .error e => return .ok (.error (.ofSystem e))
    | .ok bytes => return .ok (.ok bytes.toList)

/-- Creates a file of the system and writes what is to be in it. -/
def writeFile (path contents : String) : IO Created := do
  match ← EIO.toBaseIO (IO.FS.Handle.mk path .write) with
  | .error e => return .error (.ofSystem e)
  | .ok handle =>
    let written ← EIO.toBaseIO do
      handle.putStr contents
      handle.flush
    return .ok (written.mapError .ofSystem)

/-- Carries a plan out on the files of the system. -/
def Plan.runOnSystem {α : Type} : Plan α → IO α
  | done answer => return answer
  | read path next => do (next (← openFile path)).runOnSystem
  | create path contents next => do (next (← writeFile path contents)).runOnSystem

/-- What is said about a command line that gives no command. -/
def UsageError.message : UsageError → String
  | help | helpForNothing => "commands: glb, unify, subsumes, glb-cache; a grammar is given by -g"
  | version => "feature logic"
  | missingSubcommand => "error: a command is missing"
  | missingArgument => "error: an argument is missing"
  | unknownArgument => "error: there is an argument that is not known"
  | unknownSubcommand => "error: the command is not known"
  | badValue => "error: a value is missing or empty"
  | tooManyValues => "error: a switch has a value"
  | conflict => "error: arguments exclude each other"

end FeatureLogic.CommandLine

open FeatureLogic.CommandLine in
def main (words : List String) : IO UInt32 := do
  match Arguments.read words with
  | .error e =>
    if e = .help ∨ e = .version then
      IO.println e.message
      return 0
    else
      IO.eprintln e.message
      return 2
  | .ok arguments =>
    match ← (run arguments).runOnSystem with
    | .ok report =>
      IO.print report.text
      return report.code.toUInt32
    | .error chain =>
      IO.eprintln (chainText chain)
      return 1
