/-!
Type descriptors: the text form of field types and method signatures.

A parser reads a descriptor from the front of a character list and returns what is left, and
`render` writes it back. Each parser consumes at least one character, which is what makes the
parameter list of a method a terminating recursion.
-/

namespace Classfile

/-- The reasons a text is not a descriptor. -/
inductive DescriptorError where
  | leftover (next : Char) (source : String)
  | invalidBase (found : Char)
  | missingBase
  | missingField
  | unterminatedClass (name : String)
  | invalidField (found : Char)
  | missingOpening
  | missingClosing
  deriving DecidableEq

def DescriptorError.message : DescriptorError → String
  | .leftover next source => s!"unexpected leftover input '{next}' in '{source}'"
  | .invalidBase found => s!"invalid base type character '{found}'"
  | .missingBase => "missing base type"
  | .missingField => "missing field type"
  | .unterminatedClass name => s!"unterminated class type 'L{name}'"
  | .invalidField found => s!"invalid field type character '{found}'"
  | .missingOpening => "expected '(' for method"
  | .missingClosing => "expected ')' for method"

/-- A descriptor parser returns a value and the characters after it. -/
abbrev DescriptorParser (A : Type) := List Char → Except DescriptorError (A × List Char)

/-- The whole text must be one descriptor. -/
def parseWhole {A : Type} (parser : DescriptorParser A) (source : String) :
    Except DescriptorError A :=
  match parser source.toList with
  | .error error => .error error
  | .ok (value, []) => .ok value
  | .ok (_, next :: _) => .error (.leftover next source)

/-- The primitive value types. -/
inductive BaseType where
  | byte
  | char
  | double
  | float
  | int
  | long
  | short
  | boolean
  deriving DecidableEq

def BaseType.letter : BaseType → Char
  | .byte => 'B'
  | .char => 'C'
  | .double => 'D'
  | .float => 'F'
  | .int => 'I'
  | .long => 'J'
  | .short => 'S'
  | .boolean => 'Z'

def BaseType.ofLetter? : Char → Option BaseType
  | 'B' => some .byte
  | 'C' => some .char
  | 'D' => some .double
  | 'F' => some .float
  | 'I' => some .int
  | 'J' => some .long
  | 'S' => some .short
  | 'Z' => some .boolean
  | _ => none

@[simp] theorem BaseType.ofLetter?_letter (base : BaseType) :
    ofLetter? base.letter = some base := by
  cases base <;> rfl

def BaseType.render (base : BaseType) : String := String.singleton base.letter

def BaseType.parser : DescriptorParser BaseType
  | [] => .error .missingBase
  | letter :: rest =>
    match ofLetter? letter with
    | some base => .ok (base, rest)
    | none => .error (.invalidBase letter)

def BaseType.parse (source : String) : Except DescriptorError BaseType :=
  parseWhole parser source

/-- The type of a field, a parameter or a local variable. -/
inductive FieldType where
  | base (primitive : BaseType)
  | object (className : String)
  | array (element : FieldType)
  deriving DecidableEq

/-- The characters of a field type. -/
def FieldType.chars : FieldType → List Char
  | .base primitive => [primitive.letter]
  | .object className => 'L' :: (className.toList ++ [';'])
  | .array element => '[' :: element.chars

def FieldType.render (type : FieldType) : String := String.ofList type.chars

/-- A class name is a nonempty run of characters up to the next semicolon. -/
def FieldType.classParser (source : List Char) : Except DescriptorError (FieldType × List Char) :=
  match source.takeWhile (· ≠ ';'), source.dropWhile (· ≠ ';') with
  | first :: name, _ :: rest => .ok (.object (String.ofList (first :: name)), rest)
  | name, _ => .error (.unterminatedClass (String.ofList name))

def FieldType.parser : DescriptorParser FieldType
  | [] => .error .missingField
  | '[' :: rest =>
    match parser rest with
    | .ok (element, rest) => .ok (.array element, rest)
    | .error error => .error error
  | 'L' :: rest => classParser rest
  | letter :: rest =>
    match BaseType.ofLetter? letter with
    | some primitive => .ok (.base primitive, rest)
    | none => .error (.invalidField letter)

theorem FieldType.length_of_classParser {source rest : List Char} {type : FieldType}
    (parsed : classParser source = .ok (type, rest)) : rest.length < source.length := by
  unfold classParser at parsed
  split at parsed
  case h_1 _ _ _ _ _ _ remaining =>
    have shorter := (List.dropWhile_sublist (l := source) (· ≠ ';')).length_le
    rw [remaining] at shorter
    simp only [Except.ok.injEq, Prod.mk.injEq] at parsed
    rw [← parsed.2]
    simp only [List.length_cons] at shorter
    omega
  case h_2 => simp at parsed

/-- A field type takes at least one character. -/
theorem FieldType.length_of_parser {source rest : List Char} {type : FieldType}
    (parsed : parser source = .ok (type, rest)) : rest.length < source.length := by
  fun_induction parser source generalizing type rest with
  | case1 => simp at parsed
  | case2 tail element rest' inner inductionHypothesis =>
    have shorter := inductionHypothesis inner
    simp only [Except.ok.injEq, Prod.mk.injEq] at parsed
    simp only [List.length_cons, ← parsed.2]
    omega
  | case3 => simp at parsed
  | case4 tail =>
    have shorter := length_of_classParser parsed
    simp only [List.length_cons]
    omega
  | case5 letter tail _ _ base _ =>
    simp only [Except.ok.injEq, Prod.mk.injEq] at parsed
    simp [← parsed.2]
  | case6 => simp at parsed

def FieldType.parse (source : String) : Except DescriptorError FieldType :=
  parseWhole parser source

/-- The signature of a method, where no return type means `void`. -/
structure MethodDescriptor where
  parameters : List FieldType
  returnType : Option FieldType
  deriving DecidableEq

/-- The change in stack height caused by a call, with every value counted once. -/
def MethodDescriptor.stackDelta (descriptor : MethodDescriptor) (hasReceiver : Bool) : Int :=
  (if descriptor.returnType.isSome then 1 else 0) - (if hasReceiver then 1 else 0)
    - descriptor.parameters.length

def MethodDescriptor.chars (descriptor : MethodDescriptor) : List Char :=
  '(' :: (descriptor.parameters.flatMap FieldType.chars ++
    ')' :: (match descriptor.returnType with
      | none => ['V']
      | some type => type.chars))

def MethodDescriptor.render (descriptor : MethodDescriptor) : String :=
  String.ofList descriptor.chars

/-- Parameters are read up to the closing parenthesis. -/
def MethodDescriptor.parametersParser (source : List Char) (parsed : List FieldType) :
    Except DescriptorError (List FieldType × List Char) :=
  match source with
  | [] => .error .missingClosing
  | ')' :: rest => .ok (parsed.reverse, rest)
  | letter :: tail =>
    match _consumed : FieldType.parser (letter :: tail) with
    | .error error => .error error
    | .ok (type, rest) => parametersParser rest (type :: parsed)
termination_by source.length
decreasing_by exact FieldType.length_of_parser ‹_›

/-- The return type is `V` or a field type. -/
def MethodDescriptor.returnParser : DescriptorParser (Option FieldType)
  | 'V' :: rest => .ok (none, rest)
  | source =>
    match FieldType.parser source with
    | .error error => .error error
    | .ok (type, rest) => .ok (some type, rest)

def MethodDescriptor.parser : DescriptorParser MethodDescriptor
  | '(' :: source =>
    match parametersParser source [] with
    | .error error => .error error
    | .ok (parameters, rest) =>
      match returnParser rest with
      | .error error => .error error
      | .ok (returnType, rest) => .ok (⟨parameters, returnType⟩, rest)
  | _ => .error .missingOpening

def MethodDescriptor.parse (source : String) : Except DescriptorError MethodDescriptor :=
  parseWhole parser source

end Classfile
