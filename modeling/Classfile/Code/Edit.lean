import Classfile.Code.Body.Layout

/-!
Edits: changes to a body that may need constants of its class.
-/

namespace Classfile

/-- A body together with the pool of its class. -/
structure Edit where
  body : Body
  pool : Pool

namespace Edit

variable {A : Type}

/-- A task on the body alone. -/
def onBody (task : Task Body A) : Task Edit A :=
  Task.focus Edit.body (fun edit body => { edit with body := body }) task

/-- Constants are interned in the pool of the class. -/
def onPool (interning : Interning A) : Task Edit A :=
  Task.focus Edit.pool (fun edit pool => { edit with pool := pool }) (Task.silent interning)

def body! : Task Edit Body := return (← Task.read).body

/-- The body is changed by a function that also returns a value. -/
def change (result : Body → Except Error (A × Body)) : Task Edit A := do
  let (value, body) ← Task.ofExcept (result (← Task.read).body)
  Task.write { ← Task.read with body := body }
  return value

/-- The body is replaced. -/
def replace (result : Body → Except Error Body) : Task Edit Unit :=
  change fun body => return ((), ← result body)

end Edit

end Classfile
