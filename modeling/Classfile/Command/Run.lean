import Classfile.Command.Options
import Classfile.Trace

/-!
A run of the command: a class is read, patched and written.

The run is stated over any way to reach files. The class is encoded in full before its file is
written, so a class that cannot be encoded leaves an existing file as it is.
-/

namespace Classfile

namespace Command

/-- How a run reaches files; the answers tell whether an access succeeded. -/
structure FileAccess (M : Type → Type) where
  read : String → M (Option Bytes)
  createDirectories : String → M Bool
  write : String → Bytes → M Bool

/-- The exit codes of the command. -/
inductive ExitCode where
  | success
  | failure
  | usage
  deriving DecidableEq

def ExitCode.toNat : ExitCode → Nat
  | .success => 0
  | .failure => 1
  | .usage => 2

def Options.traceSettings (options : Options) : TraceSettings :=
  let default : TraceSettings := {}
  { methods := options.methods
    className := options.traceClass.getD default.className
    fieldName := options.traceField.getD default.fieldName }

/-- A reversed path without what makes it end like a directory. -/
def dropTrailing : List Char → List Char
  | '/' :: rest => dropTrailing rest
  | '.' :: '/' :: rest => dropTrailing rest
  | path => path

/-- The path of the directory a file is in, which is empty for a file without one. -/
def parentPath (path : String) : String :=
  let reversed := dropTrailing path.toList.reverse
  String.ofList (dropTrailing (reversed.dropWhile (· ≠ '/'))).reverse

/-- The class with the requested changes. -/
def patch (options : Options) (input : Bytes) : Except Error Class :=
  let task : Task Class Unit :=
    if options.traceEntries then discard (Class.traceEntries options.traceSettings)
    else Class.relaxAll
  match Class.read ⟨input, #[]⟩ with
  | .error error _ => .error error
  | .ok classFile logged =>
    match task ⟨classFile, logged.events⟩ with
    | .error error _ => .error error
    | .ok _ patched => .ok patched.state

variable {M : Type → Type} [Monad M]

/-- The patched class replaces the input unless another output is named. -/
def save (files : FileAccess M) (options : Options) (classFile : Class) : M ExitCode := do
  let output := options.output.getD options.input
  let parent := parentPath output
  let ready ← if options.createDirectories ∧ ¬parent.isEmpty then files.createDirectories parent
    else pure true
  match ready, classFile.toBytes with
  | true, .ok bytes => return if ← files.write output bytes then .success else .failure
  | _, _ => return .failure

def run (files : FileAccess M) (arguments : List String) : M ExitCode := do
  match parse arguments with
  | .error .usage => return .usage
  | .error .information => return .success
  | .ok options =>
    match ← files.read options.input with
    | none => return .failure
    | some input =>
      match patch options input with
      | .error _ => return .failure
      | .ok classFile => save files options classFile

end Command

end Classfile
