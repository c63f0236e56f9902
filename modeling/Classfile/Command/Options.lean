/-!
The options of the command line.

Arguments are read from left to right, and the first one that is wrong, or that asks for
information, ends the reading. An option with a value takes it from the same argument or from the
next one, which must not look like an option.
-/

namespace Classfile

namespace Command

/-- What a run is asked to do. -/
structure Options where
  input : String
  output : Option String
  traceEntries : Bool
  methods : List String
  traceClass : Option String
  traceField : Option String
  createDirectories : Bool
  deriving DecidableEq

/-- The reasons a command line asks for no run. -/
inductive NoRun where
  | usage
  | information
  deriving DecidableEq

/-- The options that take a value. -/
inductive ValueOption where
  | output
  | method
  | traceClass
  | traceField
  deriving DecidableEq

/-- What has been read so far. -/
structure Parsing where
  input : Option String := none
  output : Option String := none
  traceEntries : Bool := false
  methods : List String := []
  traceClass : Option String := none
  traceField : Option String := none
  createDirectories : Bool := false
  pending : Option ValueOption := none
  onlyPositional : Bool := false

namespace Parsing

/-- Only the option that names a method may be repeated, and a path is not empty. -/
def assign (parsing : Parsing) (option : ValueOption) (value : String) : Except NoRun Parsing :=
  let parsing := { parsing with pending := none }
  match option with
  | .output =>
    if parsing.output.isSome ∨ value.isEmpty then .error .usage
    else .ok { parsing with output := some value }
  | .method => .ok { parsing with methods := parsing.methods ++ [value] }
  | .traceClass =>
    if parsing.traceClass.isSome then .error .usage
    else .ok { parsing with traceClass := some value }
  | .traceField =>
    if parsing.traceField.isSome then .error .usage
    else .ok { parsing with traceField := some value }

/-- There is one positional argument, the path of the input. -/
def positional (parsing : Parsing) (value : String) : Except NoRun Parsing :=
  if parsing.input.isSome ∨ value.isEmpty then .error .usage
  else .ok { parsing with input := some value }

/-- A value written with its option is taken at once, and any other is expected next. -/
def valueOption (parsing : Parsing) (option : ValueOption) (attached : Option (List Char)) :
    Except NoRun Parsing :=
  match attached with
  | some value => parsing.assign option (String.ofList value)
  | none => .ok { parsing with pending := some option }

/-- A long option by its name, with the value after an equals sign if there is one. -/
def long (parsing : Parsing) (name : String) (attached : Option (List Char)) :
    Except NoRun Parsing :=
  match name, attached with
  | "output", value => parsing.valueOption .output value
  | "method", value => parsing.valueOption .method value
  | "trace-class", value => parsing.valueOption .traceClass value
  | "trace-field", value => parsing.valueOption .traceField value
  | "trace-entries", none =>
    if parsing.traceEntries then .error .usage else .ok { parsing with traceEntries := true }
  | "create-dirs", none =>
    if parsing.createDirectories then .error .usage
    else .ok { parsing with createDirectories := true }
  | "help", none | "version", none => .error .information
  | _, _ => .error .usage

/-- A short option by its letter, with the rest of its argument. -/
def short (parsing : Parsing) (letter : Char) (rest : List Char) : Except NoRun Parsing :=
  match letter, rest with
  | 'h', _ | 'V', _ => .error .information
  | 'o', [] => parsing.valueOption .output none
  | 'o', '=' :: value => parsing.valueOption .output (some value)
  | 'o', value => parsing.valueOption .output (some value)
  | _, _ => .error .usage

/-- One more argument is read. -/
def step (parsing : Parsing) (argument : String) : Except NoRun Parsing :=
  if parsing.onlyPositional then parsing.positional argument
  else
    match parsing.pending, argument.toList with
    | some _, '-' :: _ :: _ => .error .usage
    | some option, _ => parsing.assign option argument
    | none, ['-', '-'] => .ok { parsing with onlyPositional := true }
    | none, '-' :: '-' :: rest =>
      let attached := match rest.dropWhile (· ≠ '=') with
        | [] => none
        | _ :: value => some value
      parsing.long (String.ofList (rest.takeWhile (· ≠ '='))) attached
    | none, '-' :: letter :: rest => parsing.short letter rest
    | none, _ => parsing.positional argument

/-- No option may be left without its value, and an input is required. -/
def finish (parsing : Parsing) : Except NoRun Options :=
  match parsing.pending, parsing.input with
  | none, some input => .ok {
      input := input
      output := parsing.output
      traceEntries := parsing.traceEntries
      methods := parsing.methods
      traceClass := parsing.traceClass
      traceField := parsing.traceField
      createDirectories := parsing.createDirectories }
  | _, _ => .error .usage

end Parsing

def parse (arguments : List String) : Except NoRun Options := do
  (← arguments.foldlM Parsing.step {}).finish

end Command

end Classfile
