import Classfile.Class
import Classfile.Code.Cursor
import Classfile.Code.Relax
import Classfile.Text.Quoted

/-!
Passes over a whole class: relaxing all bodies, and tracing the entry to methods.
-/

namespace Classfile

/-- Which methods are traced, and the static field of the stream the trace is printed to. -/
structure TraceSettings where
  methods : List String := []
  className : String := "java/lang/System"
  fieldName : String := "out"
  deriving DecidableEq

namespace TraceSettings

def fieldDescriptor : String := "Ljava/io/PrintStream;"

/-- An empty list of names selects every method. -/
def selects (settings : TraceSettings) (method : String) : Bool :=
  settings.methods.isEmpty || settings.methods.contains method

end TraceSettings

/-- The stack items used by the traced entry: the stream and the message. -/
def traceStack : UInt16 := 2

namespace Edit

/-- A body is relaxed, and a change of its length is reported. -/
def relaxReporting : Task Edit Unit := do
  let before := (← body!).codeLength
  relax
  let after := (← body!).codeLength
  if before ≠ after then Task.report (.lengthChanged before after)

/-- A message is printed before the first instruction. -/
def traceEntry (settings : TraceSettings) (message : String) : Task Edit Unit := do
  Cursor.run .atStart do
    discard (Cursor.getStatic settings.className settings.fieldName TraceSettings.fieldDescriptor)
    discard (Cursor.loadString message)
    discard (Cursor.invokeVirtual "java/io/PrintStream" "println" "(Ljava/lang/String;)V")
  replace fun body => .ok { body with maxStack := max body.maxStack traceStack }
  Task.report (.entryTraced message)

end Edit

namespace Class

def relaxAll : Task Class Unit := do
  (List.range (← Task.read).methods.size).forM fun index =>
    discard (onCode index Edit.relaxReporting)

/-- A method is traced if it is selected and has code; the answer tells whether it was. -/
def traceMethod (settings : TraceSettings) (className : String) (index : Nat) :
    Task Class Bool := do
  let classFile ← Task.read
  match classFile.methods[index]? with
  | none => return false
  | some method =>
    let name ← Task.ofExcept (method.name classFile.pool)
    if settings.selects name then
      let descriptor ← Task.ofExcept (method.descriptor classFile.pool)
      let message := className ++ "." ++ name ++ descriptor
      match ← onCode index (Edit.traceEntry settings message) with
      | some () => return true
      | none =>
        if ¬settings.methods.isEmpty then Task.report (.methodWithoutCode message)
        return false
    else return false

/-- The entry to each selected method is traced, and then all bodies are relaxed; the answer is the
number of traced methods. -/
def traceEntries (settings : TraceSettings) : Task Class Nat := do
  let classFile ← Task.read
  let className ← Task.ofExcept classFile.name
  let traced ← (List.range classFile.methods.size).filterM (traceMethod settings className)
  if traced.isEmpty ∧ ¬settings.methods.isEmpty then
    Task.report (.nothingTraced className (Quoted.list settings.methods))
  relaxAll
  return traced.length

end Class

end Classfile
