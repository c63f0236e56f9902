import Classfile.Command.Run

/-!
A working directory held in memory, on which the command can run.

The directory is part of a machine with the usual directories and devices. Everything before the
last part of a path must be an existing directory, and a path must not be too long. Only files in
the working directory and below belong to the outcome of a run.
-/

namespace Classfile

namespace Command

/-- The parts of a path from the root down. -/
abbrev Path := List String

/-- What is found at a path. A device has no contents, and accepts what is written or refuses it. -/
inductive Entry where
  | directory
  | file (contents : Bytes)
  | device (accepts : Bool)

structure Workspace where
  entries : List (Path × Entry)

namespace Workspace

/-- Where relative paths start. -/
def workingDirectory : Path := ["tmp", "work"]

/-- The directories and devices of every machine. -/
def machine : List (Path × Entry) :=
  let directories := ["bin", "boot", "dev", "etc", "home", "lib", "lib64", "media", "mnt", "opt",
    "proc", "root", "run", "sbin", "srv", "sys", "tmp", "usr", "var"]
  let accepting := ["null", "zero", "random", "urandom", "stdin", "stdout", "stderr"]
  let refusing := ["full", "tty"]
  ([], .directory) :: (workingDirectory, .directory)
    :: directories.map (fun name => ([name], .directory))
    ++ accepting.map (fun name => (["dev", name], .device true))
    ++ refusing.map (fun name => (["dev", name], .device false))

/-- The parts of a path as it is written. -/
def parts (path : String) : List String :=
  (path.splitOn "/").filter fun part => ¬part.isEmpty ∧ part ≠ "."

/-- A path has at most 4095 bytes, and each of its parts at most 255. -/
def isShort (path : String) : Bool :=
  path.utf8ByteSize ≤ 4095 && (parts path).all fun part => part.utf8ByteSize ≤ 255

/-- The place a path starts from. -/
def origin (path : String) : Path := if path.startsWith "/" then [] else workingDirectory

/-- The working directory holds the files given, in the directories their paths name. -/
def ofFiles (files : List (String × Bytes)) : Workspace where
  entries := machine ++ files.flatMap fun (name, contents) =>
    let path := parts name
    (workingDirectory ++ path, .file contents)
      :: (List.range path.length).map fun count => (workingDirectory ++ path.take count, .directory)

def entry? (workspace : Workspace) (place : Path) : Option Entry :=
  (workspace.entries.find? fun (other, _) => other = place).map Prod.snd

def isDirectory (workspace : Workspace) (place : Path) : Bool :=
  match workspace.entry? place with
  | some .directory => true
  | _ => false

/-- The place that parts of a path lead to from a directory, if every directory on the way exists.
The root is its own parent. -/
def resolveFrom (workspace : Workspace) : Path → List String → Option Path
  | place, [] => some place
  | place, ".." :: rest => workspace.resolveFrom place.dropLast rest
  | place, part :: [] => some (place ++ [part])
  | place, part :: rest =>
    if workspace.isDirectory (place ++ [part]) then workspace.resolveFrom (place ++ [part]) rest
    else none

/-- The place of a file, whose path does not end like that of a directory. -/
def resolveFile (workspace : Workspace) (path : String) : Option Path :=
  if ¬isShort path || path.endsWith "/" || path.endsWith "/." then none
  else workspace.resolveFrom (origin path) (parts path)

def read (workspace : Workspace) (path : String) : Option Bytes :=
  match (workspace.resolveFile path).bind workspace.entry? with
  | some (.file contents) => some contents
  | some (.device true) => some []
  | _ => none

/-- Missing directories on the way are created, unless something else is in the way. -/
def createFrom (workspace : Workspace) : Path → List String → Option Workspace
  | _, [] => some workspace
  | place, ".." :: rest => createFrom workspace place.dropLast rest
  | place, part :: rest =>
    let next := place ++ [part]
    match workspace.entry? next with
    | some .directory => createFrom workspace next rest
    | some _ => none
    | none => createFrom ⟨(next, .directory) :: workspace.entries⟩ next rest

def createDirectories (workspace : Workspace) (path : String) : Option Workspace :=
  if isShort path then workspace.createFrom (origin path) (parts path) else none

/-- A file is replaced or added, unless its place is a directory or in none. -/
def write (workspace : Workspace) (path : String) (contents : Bytes) : Option Workspace :=
  match workspace.resolveFile path with
  | none => none
  | some place =>
    match workspace.entry? place with
    | some .directory | some (.device false) => none
    | some (.device true) => some workspace
    | _ => some ⟨(place, .file contents) ::
        workspace.entries.filter fun (other, _) => other ≠ place⟩

/-- The files in the working directory and below, by their relative paths. -/
def files (workspace : Workspace) : List (String × Bytes) :=
  workspace.entries.filterMap fun (place, entry) =>
    match entry with
    | .file contents =>
      if workingDirectory.isPrefixOf place then
        some ("/".intercalate (place.drop workingDirectory.length), contents)
      else none
    | _ => none

/-- The workspace as the state of a run. -/
def access : FileAccess (StateM Workspace) where
  read path := return (← get).read path
  createDirectories path := do
    match (← get).createDirectories path with
    | some created => set created; return true
    | none => return false
  write path contents := do
    match (← get).write path contents with
    | some written => set written; return true
    | none => return false

/-- A run on the files given, with its exit code and the files afterwards. -/
def run (given : List (String × Bytes)) (arguments : List String) :
    ExitCode × List (String × Bytes) :=
  let (code, workspace) := (Command.run access arguments).run (ofFiles given)
  (code, workspace.files)

end Workspace

end Command

end Classfile
