import Classfile.Command.Run

/-!
The command on the files of the machine.
-/

namespace Classfile

namespace Command

def usageText : String :=
  "Usage: classfile [OPTIONS] <INPUT>\n\n" ++
  "  -o, --output <PATH>        where to write the patched class (default: INPUT)\n" ++
  "      --trace-entries        print the name of every method on entry to it\n" ++
  "      --method <NAME>        only trace methods with this name (can be repeated)\n" ++
  "      --trace-class <CLASS>  class of the static stream field the trace goes to\n" ++
  "      --trace-field <NAME>   static stream field the trace goes to\n" ++
  "      --create-dirs          create missing parent directories of the output\n" ++
  "  -h, --help                 print this text\n" ++
  "  -V, --version              print the version"

/-- An access that throws has failed. -/
def succeeds (action : IO Unit) : IO Bool := do
  try
    action
    return true
  catch _ => return false

def machineAccess : FileAccess IO where
  read path := do
    try return some (← IO.FS.readBinFile path).toList
    catch _ => return none
  createDirectories path := succeeds (IO.FS.createDirAll path)
  write path bytes := succeeds (IO.FS.writeBinFile path ⟨bytes.toArray⟩)

end Command

end Classfile

def main (arguments : List String) : IO UInt32 := do
  match Classfile.Command.parse arguments with
  | .error .information => IO.println Classfile.Command.usageText
  | .error .usage => IO.eprintln Classfile.Command.usageText
  | .ok _ => pure ()
  let code ← Classfile.Command.run Classfile.Command.machineAccess arguments
  return UInt32.ofNat code.toNat
