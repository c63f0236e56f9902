import Classfile.Code.Edit

/-!
Cursors: splicing a run of instructions into a body.

Each instruction goes right after the one before it, so the instructions of a run are laid out in
the order of the calls. Constants are interned, so a run that is inserted a second time adds none.
-/

namespace Classfile

/-- Where a run of instructions starts. -/
inductive Anchor where
  | atStart
  | atEnd
  | before (handle : Handle)
  | after (handle : Handle)
  deriving DecidableEq

/-- The index in the layout at which a run starts. -/
def Anchor.position (anchor : Anchor) (body : Body) : Except Error Nat :=
  match anchor with
  | .atStart => .ok 0
  | .atEnd => .ok body.order.size
  | .before handle => body.position handle
  | .after handle => return (← body.position handle) + 1

/-- An edit with the index in the layout at which the next instruction goes. -/
structure Cursor where
  edit : Edit
  position : Nat

/-- An operation at a cursor. -/
abbrev AtCursor := Task Cursor

namespace Cursor

variable {A : Type}

def onEdit (task : Task Edit A) : AtCursor A :=
  Task.focus Cursor.edit (fun cursor edit => { cursor with edit := edit }) task

def onPool (interning : Interning A) : AtCursor A := onEdit (Edit.onPool interning)

/-- The run starts at an anchor. -/
def run (anchor : Anchor) (task : AtCursor A) : Task Edit A := do
  let position ← Task.ofExcept (anchor.position (← Task.read).body)
  Task.focus (fun edit => ⟨edit, position⟩) (fun _ cursor => cursor.edit) task

/-- The next instruction of the run. -/
def push (instruction : Instruction Jump) : AtCursor Handle := do
  let position := (← Task.read).position
  let handle ← onEdit (Edit.change fun body => body.insert position instruction)
  Task.write { ← Task.read with position := position + 1 }
  return handle

def simple (opcode : Opcode) : AtCursor Handle := push (.simple opcode)

/-- A reference is loaded from a local variable by the shortest encoding. -/
def loadReference (index : UInt16) : AtCursor Handle :=
  match index with
  | 0 => simple .aload0
  | 1 => simple .aload1
  | 2 => simple .aload2
  | 3 => simple .aload3
  | _ =>
    if index < 256 then push (.localAccess .aload index.toUInt8)
    else push (.wideLocalAccess .aload index)

/-- A constant is loaded by the short form if its index fits in a byte. -/
def loadConstant (index : ConstantIndex) : AtCursor Handle :=
  if index < 256 then push (.loadConstant index.toUInt8) else push (.constant .ldcW index)

/-- An integer is pushed by the shortest encoding. -/
def pushInteger (value : Int32) : AtCursor Handle :=
  if value = -1 then simple .iconstM1
  else if value = 0 then simple .iconst0
  else if value = 1 then simple .iconst1
  else if value = 2 then simple .iconst2
  else if value = 3 then simple .iconst3
  else if value = 4 then simple .iconst4
  else if value = 5 then simple .iconst5
  else if -0x80 ≤ value ∧ value < 0x80 then push (.pushByte value.toInt8)
  else if -0x8000 ≤ value ∧ value < 0x8000 then push (.pushShort value.toInt16)
  else do loadConstant (← onPool (Pool.intern (.integer value)))

def pushShort (value : Int16) : AtCursor Handle := push (.pushShort value)

def checkCast (className : String) : AtCursor Handle := do
  push (.constant .checkcast (← onPool (Pool.internClass className)))

def getStatic (owner name descriptor : String) : AtCursor Handle := do
  push (.constant .getstatic (← onPool (Pool.internField owner name descriptor)))

def putStatic (owner name descriptor : String) : AtCursor Handle := do
  push (.constant .putstatic (← onPool (Pool.internField owner name descriptor)))

def invokeStatic (owner name descriptor : String) : AtCursor Handle := do
  push (.constant .invokestatic (← onPool (Pool.internMethod owner name descriptor)))

def invokeVirtual (owner name descriptor : String) : AtCursor Handle := do
  push (.constant .invokevirtual (← onPool (Pool.internMethod owner name descriptor)))

def loadString (contents : String) : AtCursor Handle := do
  loadConstant (← onPool (Pool.internString contents))

def gotoWide (target : Handle) : AtCursor Handle := push (.wideBranch .gotoW (.to target))

def ifZero (target : Handle) : AtCursor Handle := push (.branch .ifeq (.to target))

/-- The method that an instruction calls. -/
def calledMethod (invoke : Handle) : AtCursor ConstantIndex := do
  match ← Task.ofExcept ((← Task.read).edit.body.get invoke) with
  | .constant .invokevirtual method | .constant .invokespecial method
  | .constant .invokestatic method | .invokeInterface method _ => return method
  | _ => throw (.notAnInvoke invoke)

/-- The name and then the descriptor of a called method are loaded as strings. -/
def loadNameAndDescriptor (invoke : Handle) : AtCursor Unit := do
  let method ← calledMethod invoke
  let pool := (← Task.read).edit.pool
  let (_, signature) ← Task.ofExcept (pool.member method)
  let (name, descriptor) ← Task.ofExcept (pool.nameAndType signature)
  let name ← onPool (Pool.intern (.string name))
  let descriptor ← onPool (Pool.intern (.string descriptor))
  discard (loadConstant name)
  discard (loadConstant descriptor)

/-- A cast to the class that declares the method an instruction calls. -/
def checkCastToOwner (invoke : Handle) : AtCursor Handle := do
  let method ← calledMethod invoke
  let (owner, _) ← Task.ofExcept ((← Task.read).edit.pool.member method)
  push (.constant .checkcast owner)

end Cursor

end Classfile
