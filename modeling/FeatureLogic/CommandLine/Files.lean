import FeatureLogic.Text.Lines

/-!
Files as commands use them. A command is a plan of requests to read and to create files, so that
what it does can be said without any file system; `Directory` is one to carry plans out in.
-/

namespace FeatureLogic.CommandLine

/-- Why the system refuses a file. -/
inductive FileError
  | notFound
  | notDirectory
  | isDirectory
  | nameTooLong
  | noSpace
  | nulInName
  | other (text : String)
  deriving DecidableEq, Repr

/-- The text of an error, with the number that the system gives it. -/
def FileError.message : FileError → String
  | notFound => "No such file or directory (os error 2)"
  | notDirectory => "Not a directory (os error 20)"
  | isDirectory => "Is a directory (os error 21)"
  | nameTooLong => "File name too long (os error 36)"
  | noSpace => "No space left on device (os error 28)"
  | nulInName => "file name contained an unexpected NUL byte"
  | other text => text

/-- What opening a file for reading gives: an error, or its contents as far as they can be read. -/
abbrev Opened := Except FileError (Except FileError (List UInt8))

/-- What creating a file gives: an error, or whether its contents could be written. -/
abbrev Created := Except FileError (Except FileError Unit)

/-- A course of action with requests to a file system. -/
inductive Plan (α : Type)
  | done (answer : α)
  | read (path : String) (next : Opened → Plan α)
  | create (path contents : String) (next : Created → Plan α)

namespace Plan

variable {α β : Type}

/-- Goes on with another plan. -/
protected def bind : Plan α → (α → Plan β) → Plan β
  | done answer, f => f answer
  | read path next, f => read path fun opened => (next opened).bind f
  | create path contents next, f => create path contents fun created => (next created).bind f

instance : Monad Plan where
  pure := done
  bind := Plan.bind

instance : LawfulMonad Plan :=
  .mk' Plan
    (fun plan => by
      show plan.bind done = plan
      induction plan with
      | done answer => rfl
      | read path next ih => exact congrArg (read path) (funext ih)
      | create path contents next ih => exact congrArg (create path contents) (funext ih))
    (fun _ _ => rfl)
    (fun plan f g => by
      show (plan.bind f).bind g = plan.bind fun a => (f a).bind g
      induction plan with
      | done answer => rfl
      | read path next ih => exact congrArg (read path) (funext ih)
      | create path contents next ih => exact congrArg (create path contents) (funext ih))

/-- The contents of a file. -/
def contents (path : String) : Plan Opened := read path done

/-- Writes a new file or in place of an old one. -/
def write (path contents : String) : Plan Created := create path contents done

end Plan

/-! ### Directories -/

/-- Files by the names on the way to them. A directory is there when a file is in it. -/
structure Directory where
  files : List (List String × List UInt8)

/-- Files of the system that are not kept anywhere. -/
inductive Device
  /-- Takes everything and gives nothing. -/
  | null
  /-- Takes everything. What it gives does not end. -/
  | endless
  /-- Has no room for anything. What it gives does not end. -/
  | full
  deriving DecidableEq, Repr

/-- The devices by name. -/
def Device.named? : String → Option Device
  | "null" => some .null
  | "zero" | "random" | "urandom" => some .endless
  | "full" => some .full
  | _ => none

/-- What is at the end of a path. Of the system around a directory not more is known than that
there are directories above, the directories that every system has and some devices. -/
inductive Entry
  | file (names : List String) (contents : List UInt8)
  | directory (names : List String)
  /-- A directory above. -/
  | above
  /-- A directory that every system has, by the names that lead to it from the directory where
  absolute paths begin. -/
  | system (names : List String)
  | device (device : Device)

namespace Directory

def contents? (d : Directory) (names : List String) : Option (List UInt8) := d.files.lookup names

/-- Whether names lead to a directory; no names lead to the whole. -/
def isDirectory (d : Directory) (names : List String) : Bool :=
  names.isEmpty || d.files.any fun (file, _) =>
    names.isPrefixOf file && names.length < file.length

/-- The most bytes that a name may have. -/
def nameLimit : Nat := 255

/-- The most bytes that a path may have. -/
def pathLimit : Nat := 4095

/-- The directories that are in a directory of every system. -/
def systemNames : List String → List String
  | [] =>
    ["bin", "boot", "dev", "etc", "home", "lib", "lib64", "media", "mnt", "opt", "proc", "root",
      "run", "sbin", "srv", "sys", "tmp", "usr", "var"]
  | ["dev"] => ["fd", "mqueue", "pts", "shm"]
  | ["etc"] => ["alternatives", "default", "init.d", "ld.so.conf.d", "security", "skel", "ssl"]
  | ["proc"] => ["1", "bus", "fs", "irq", "net", "self", "sys", "thread-self", "tty"]
  | ["run"] => ["lock"]
  | ["sys"] =>
    ["block", "bus", "class", "dev", "devices", "firmware", "fs", "kernel", "module", "power"]
  | ["usr"] => ["bin", "games", "include", "lib", "lib64", "local", "sbin", "share", "src"]
  | ["usr", "local"] => ["bin", "etc", "games", "include", "lib", "man", "sbin", "share", "src"]
  | ["var"] =>
    ["backups", "cache", "lib", "local", "lock", "log", "mail", "opt", "run", "spool", "tmp"]
  | _ => []

/-- What a name leads to in a directory. -/
def named (d : Directory) : Entry → String → Option Entry
  | .directory names, name =>
    let below := names ++ [name]
    match d.contents? below with
    | some contents => some (.file below contents)
    | none => if d.isDirectory below then some (.directory below) else none
  | .system names, name =>
    match if names = ["dev"] then Device.named? name else none with
    | some device => some (.device device)
    | none => if name ∈ systemNames names then some (.system (names ++ [name])) else none
  | _, _ => none

/-- The directory that an entry of a directory is in. -/
def back : Entry → Entry
  | .directory names => if names.isEmpty then .above else .directory names.dropLast
  | .system names => .system names.dropLast
  | entry => entry

/-- Whether an entry is a directory. -/
def isOpen : Entry → Bool
  | .file _ _ | .device _ => false
  | .directory _ | .above | .system _ => true

/-- Takes one part of a path. Empty parts and single dots stay at a directory, double dots go
back. -/
def step (d : Directory) (entry : Entry) (part : String) : Except FileError Entry :=
  if !isOpen entry then .error .notDirectory
  else if part = "" ∨ part = "." then .ok entry
  else if part = ".." then .ok (back entry)
  else if nameLimit < part.utf8ByteSize then .error .nameTooLong
  else match d.named entry part with
    | some entry => .ok entry
    | none => .error .notFound

/-- Goes along the parts of a path. -/
def walk (d : Directory) (start : Entry) (parts : List String) : Except FileError Entry :=
  parts.foldlM d.step start

/-- Where a path begins and the parts it is made of. -/
def parts (path : String) : Except FileError (Entry × List String) :=
  if path.toList.contains '\x00' then .error .nulInName
  else if path.isEmpty then .error .notFound
  else if pathLimit < path.utf8ByteSize then .error .nameTooLong
  else .ok (if path.startsWith "/" then .system [] else .directory [],
    (path.toList.splitOn '/').map String.ofList)

/-- What is at the end of a path. -/
def find (d : Directory) (path : String) : Except FileError Entry := do
  let (start, parts) ← parts path
  d.walk start parts

/-- Opens a file. A directory can be opened, but not read. -/
def read (d : Directory) (path : String) : Opened :=
  match d.find path with
  | .ok (.file _ contents) => .ok (.ok contents)
  | .ok (.device .null) => .ok (.ok [])
  | .ok (.device _) => .ok (.error (.other "the file does not end"))
  | .ok _ => .ok (.error .isDirectory)
  | .error e => .error e

/-- Puts a file in a place, a new one at the end. -/
def put (names : List String) (contents : List UInt8) :
    List (List String × List UInt8) → List (List String × List UInt8)
  | [] => [(names, contents)]
  | (n, c) :: rest => if n = names then (n, contents) :: rest else (n, c) :: put names contents rest

theorem lookup_put (names others : List String) (contents : List UInt8)
    (files : List (List String × List UInt8)) :
    (put names contents files).lookup others =
      if others = names then some contents else files.lookup others := by
  have cons (n : List String) (c : List UInt8) (rest : List (List String × List UInt8)) :
      ((n, c) :: rest).lookup others = if others = n then some c else rest.lookup others := by
    by_cases h : others = n
    · simp [h]
    · simp [List.lookup_cons, beq_false_of_ne h, h]
  induction files with
  | nil => exact cons names contents []
  | cons file rest ih =>
    obtain ⟨n, c⟩ := file
    by_cases hn : n = names
    · by_cases h : others = names <;> simp [put, cons, hn, h]
    · by_cases h : others = n
      · simp [put, hn, h]
      · simp [put, cons, hn, h, ih]

/-- The parts on the way to the last name of a path, and this name, if the path ends in a name and
not in dots. Slashes behind the name do not count. -/
def splitLast (parts : List String) : List String × Option String :=
  match parts.reverse.dropWhile (· == "") with
  | last :: way => (way.reverse, if last = "." ∨ last = ".." then none else some last)
  | [] => ([], none)

/-- Writes a file in a directory that is there. A path that ends in a slash is not one of a file,
whether or not there is something; only the directories on the way to it have to be there. A file
that is written outside is not kept. -/
def create (d : Directory) (path contents : String) :
    Except FileError (Except FileError Unit × Directory) := do
  let (start, parts) ← parts path
  let (way, last) := splitLast parts
  let place ← d.walk start way
  if !isOpen place then throw .notDirectory
  match last with
  | none => throw .isDirectory
  | some name =>
    if path.endsWith "/" then throw .isDirectory
    match d.step place name with
    | .ok (.device .full) => return (if contents.isEmpty then .ok () else .error .noSpace, d)
    | .ok (.device _) => return (.ok (), d)
    | .ok (.file names _) => return (.ok (), ⟨put names (Text.encode contents) d.files⟩)
    | .ok _ => throw .isDirectory
    | .error .notFound =>
      match place with
      | .directory names =>
        return (.ok (), ⟨put (names ++ [name]) (Text.encode contents) d.files⟩)
      | _ => return (.ok (), d)
    | .error e => throw e

end Directory

/-- Carries a plan out in a directory. -/
def Plan.runIn {α : Type} : Plan α → Directory → α × Directory
  | done answer, d => (answer, d)
  | read path next, d => (next (d.read path)).runIn d
  | create path contents next, d =>
    match d.create path contents with
    | .ok (written, d) => (next (.ok written)).runIn d
    | .error e => (next (.error e)).runIn d

/-- What follows a plan runs in the directory that the plan leaves. -/
theorem Plan.runIn_bind {α β : Type} (plan : Plan α) (f : α → Plan β) (d : Directory) :
    (plan.bind f).runIn d = (f (plan.runIn d).1).runIn (plan.runIn d).2 := by
  induction plan generalizing d with
  | done answer => rfl
  | read path next ih => exact ih _ _
  | create path contents next ih =>
    simp only [Plan.bind, runIn]
    cases d.create path contents <;> exact ih _ _

end FeatureLogic.CommandLine
