import Classfile.Bytes
import Classfile.Event

/-!
Tasks: operations on a state that report events and may fail.

A task that fails keeps the state and the events it had reached, so a caller sees how far it got.
-/

namespace Classfile

/-- A state together with the events reported so far. -/
structure Logged (S : Type) where
  state : S
  events : Array Event

/-- An operation on a state that reports events and may fail. -/
abbrev Task (S : Type) := EStateM Error (Logged S)

namespace Task

variable {S T A : Type}

/-- The current state. -/
def read : Task S S := fun logged => .ok logged.state logged

/-- The state is replaced and the events are kept. -/
def write (state : S) : Task S Unit := fun logged => .ok () { logged with state := state }

def report (event : Event) : Task S Unit := fun logged =>
  .ok () { logged with events := logged.events.push event }

def ofExcept : Except Error A → Task S A
  | .ok value => fun logged => .ok value logged
  | .error error => fun logged => .error error logged

/-- A task on a part of the state, whose result is put back even when it fails. -/
def focus (part : S → T) (restore : S → T → S) (task : Task T A) : Task S A := fun logged =>
  match task ⟨part logged.state, logged.events⟩ with
  | .ok value after => .ok value ⟨restore logged.state after.state, after.events⟩
  | .error error after => .error error ⟨restore logged.state after.state, after.events⟩

/-- A task that reports nothing acts on the state alone. -/
def silent (task : EStateM Error S A) : Task S A := fun logged =>
  match task logged.state with
  | .ok value state => .ok value { logged with state := state }
  | .error error state => .error error { logged with state := state }

/-- A reader consumes bytes and reports nothing. -/
def ofReader (reader : Reader A) : Task Bytes A := fun logged =>
  match reader logged.state with
  | .ok (value, rest) => .ok value { logged with state := rest }
  | .error error => .error error logged

/-- Items are produced one after the other onto the reversed items before. -/
def manyOnto (item : Task S A) : Nat → List A → Task S (List A)
  | 0, done, logged => .ok done.reverse logged
  | count + 1, done, logged =>
    match item logged with
    | .ok value logged => manyOnto item count (value :: done) logged
    | .error error logged => .error error logged

/-- A fixed number of items. -/
def many (item : Task S A) (count : Nat) : Task S (List A) := manyOnto item count []

end Task

end Classfile
