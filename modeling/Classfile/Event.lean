import Classfile.Handle

/-!
What an operation reports about its work, as data with one wording per event.
-/

namespace Classfile

/-- How much a reader of the log is expected to care. -/
inductive Severity where
  | warn
  | debug
  | trace
  deriving DecidableEq

/-- Something an operation reports while it works. -/
inductive Event where
  | bodyDecoded (instructions bytes handlers : Nat)
  | classRead (major minor : UInt16) (constants fields methods : Nat)
  | handlerDropped (removed : Handle)
  | framePromoted (compact : String) (bci : Nat) (extended : String) (delta : UInt16)
  | branchOversized (mnemonic : String) (bci : Nat) (offset : Int)
  | branchInverted (mnemonic inverted : String)
  | branchToIsland (mnemonic : String) (site : Handle)
  | relaxed (rounds length : Nat)
  | lengthChanged (before after : Nat)
  | entryTraced (description : String)
  | methodWithoutCode (description : String)
  | nothingTraced (className : String) (methods : String)
  deriving DecidableEq

def Event.severity : Event → Severity
  | .methodWithoutCode .. | .nothingTraced .. => .warn
  | .bodyDecoded .. | .classRead .. | .lengthChanged .. => .trace
  | _ => .debug

def Event.message : Event → String
  | .bodyDecoded instructions bytes handlers =>
    s!"decoded {instructions} instructions ({bytes} bytes, {handlers} exception handlers)"
  | .classRead major minor constants fields methods =>
    s!"read class file version {major}.{minor} " ++
      s!"({constants} constants, {fields} fields, {methods} methods)"
  | .handlerDropped removed =>
    s!"dropping exception handler range emptied by removing {removed.label}"
  | .framePromoted compact bci extended delta =>
    s!"promoting {compact} at bci {bci} to {extended} (offset delta {delta})"
  | .branchOversized mnemonic bci offset =>
    s!"{mnemonic} at bci {bci} is oversized (offset {offset})"
  | .branchInverted mnemonic inverted =>
    s!"rewrote {mnemonic} into {inverted} over a goto_w trampoline"
  | .branchToIsland mnemonic site =>
    s!"pointed {mnemonic} at a goto_w island placed after {site.label}"
  | .relaxed rounds length =>
    s!"relaxed jumps in {rounds} round(s), code is now {length} bytes"
  | .lengthChanged before after => s!"code length {before} -> {after}"
  | .entryTraced description => s!"traced entry to {description}"
  | .methodWithoutCode description => s!"{description} has no code, skipping"
  | .nothingTraced className methods => s!"no method of {className} matched {methods}"

end Classfile
