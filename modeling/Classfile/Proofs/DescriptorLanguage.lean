import Classfile.Descriptor
import Mathlib.Data.List.TakeWhile
import Mathlib.Tactic

/-!
The language of descriptors.

A parser takes the written form of a value from the front of a text, whatever follows it, as long as
the class names in the value end at their semicolons. So a text is a descriptor exactly if it is such a
written form, and no two values share one.
-/

namespace Classfile

variable {A : Type}

/-- A class name is not empty, and as it ends at the next semicolon it has none. -/
def IsClassName (name : String) : Prop := name ≠ "" ∧ ';' ∉ name.toList

instance (name : String) : Decidable (IsClassName name) := inferInstanceAs (Decidable (_ ∧ _))

/-- The names of the classes that a type mentions. -/
def FieldType.classNames : FieldType → List String
  | .base _ => []
  | .object className => [className]
  | .array element => element.classNames

/-- The class names in the parameters and in the return type. -/
def MethodDescriptor.classNames (descriptor : MethodDescriptor) : List String :=
  descriptor.parameters.flatMap FieldType.classNames ++
    descriptor.returnType.toList.flatMap FieldType.classNames

/-- The parser takes the written forms of values with proper class names, and nothing else. -/
def Recognizes (parser : DescriptorParser A) (written : A → List Char) (names : A → List String) :
    Prop :=
  ∀ source value rest, parser source = .ok (value, rest) ↔
    source = written value ++ rest ∧ ∀ name ∈ names value, IsClassName name

/-- A letter that stands for a base type is the letter of that type. -/
theorem BaseType.letter_of_ofLetter? {letter : Char} {base : BaseType}
    (known : ofLetter? letter = some base) : base.letter = letter := by
  unfold ofLetter? at known
  split at known
  case h_9 => cases known
  all_goals
    cases known
    rfl

namespace FieldType

variable {source rest : List Char} {type : FieldType}

/-- A class is parsed up to the semicolon after its name. -/
theorem classParser_eq_ok_iff :
    classParser source = .ok (type, rest) ↔
      ∃ className, type = .object className ∧ IsClassName className ∧
        source = className.toList ++ ';' :: rest := by
  constructor
  · intro parsed
    unfold classParser at parsed
    split at parsed
    case h_2 => cases parsed
    case h_1 first name next tail taken left =>
      cases parsed
      have whole := @List.takeWhile_append_dropWhile _ (· ≠ ';') source
      have stopped := List.head?_dropWhile_not (· ≠ ';') source
      rw [left] at stopped
      obtain rfl : next = ';' := by simpa using stopped
      refine ⟨_, rfl, ⟨by simp, fun present => ?_⟩, ?_⟩
      · rw [String.toList_ofList, ← taken] at present
        simpa using List.mem_takeWhile_imp present
      · rw [String.toList_ofList, ← taken, ← left, whole]
  · rintro ⟨className, rfl, ⟨nonempty, unbroken⟩, rfl⟩
    have inside : ∀ character ∈ className.toList, decide (character ≠ ';') = true := by
      intro character present
      exact decide_eq_true fun same => unbroken (same ▸ present)
    obtain ⟨first, name, letters⟩ := List.exists_cons_of_ne_nil (String.toList_eq_nil_iff.not.mpr nonempty)
    have taken : (className.toList ++ ';' :: rest).takeWhile (· ≠ ';') = first :: name := by
      rw [List.takeWhile_append_of_pos inside, letters]
      simp
    have left : (className.toList ++ ';' :: rest).dropWhile (· ≠ ';') = ';' :: rest := by
      rw [List.dropWhile_append_of_pos inside]
      simp
    simp only [classParser, taken, left]
    rw [← letters, String.ofList_toList]

/-- What is parsed is written like what was taken. -/
theorem chars_of_parsed (parsed : parser source = .ok (type, rest)) :
    source = type.chars ++ rest ∧ ∀ name ∈ type.classNames, IsClassName name := by
  fun_induction parser source generalizing type rest with
  | case1 => cases parsed
  | case2 tail element remaining inner inductionHypothesis =>
    cases parsed
    obtain ⟨written, named⟩ := inductionHypothesis inner
    exact ⟨by rw [chars, written, List.cons_append], named⟩
  | case3 => cases parsed
  | case4 tail =>
    obtain ⟨className, rfl, named, rfl⟩ := classParser_eq_ok_iff.mp parsed
    exact ⟨by simp [chars], by simpa [classNames] using named⟩
  | case5 letter tail _ _ base known =>
    cases parsed
    exact ⟨by rw [chars, BaseType.letter_of_ofLetter? known, List.singleton_append], by simp [classNames]⟩
  | case6 => cases parsed

/-- What is written is parsed again, whatever follows it. -/
theorem parser_chars (named : ∀ name ∈ type.classNames, IsClassName name) (rest : List Char) :
    parser (type.chars ++ rest) = .ok (type, rest) := by
  induction type with
  | base primitive => cases primitive <;> rfl
  | object className =>
    have written : (object className).chars ++ rest = 'L' :: (className.toList ++ ';' :: rest) := by
      simp [chars]
    rw [written, parser]
    exact classParser_eq_ok_iff.mpr ⟨className, rfl, named className (by simp [classNames]), rfl⟩
  | array element inductionHypothesis =>
    rw [chars, List.cons_append, parser, inductionHypothesis named]

theorem recognized : Recognizes parser chars classNames :=
  fun _ _ rest => ⟨chars_of_parsed, fun ⟨written, named⟩ => written ▸ parser_chars named rest⟩

/-- The first character of a field type neither ends a parameter list nor stands for `void`. -/
theorem exists_chars (type : FieldType) :
    ∃ first tail, type.chars = first :: tail ∧ first ≠ ')' ∧ first ≠ 'V' := by
  cases type with
  | base primitive => exact ⟨_, _, rfl, by cases primitive <;> decide, by cases primitive <;> decide⟩
  | object className => exact ⟨_, _, rfl, by decide, by decide⟩
  | array element => exact ⟨_, _, rfl, by decide, by decide⟩

end FieldType

namespace MethodDescriptor

variable {source rest : List Char} {types done parameters : List FieldType}

/-- Parameters that are parsed are written as what was parsed. -/
theorem chars_of_parametersParser (parsed : parametersParser source done = .ok (parameters, rest)) :
    ∃ types, parameters = done.reverse ++ types ∧
      source = types.flatMap FieldType.chars ++ ')' :: rest ∧
      ∀ name ∈ types.flatMap FieldType.classNames, IsClassName name := by
  fun_induction parametersParser source done with
  | case1 => cases parsed
  | case2 =>
    cases parsed
    exact ⟨[], by simp⟩
  | case3 => cases parsed
  | case4 done letter tail notClosing type remaining consumed inductionHypothesis =>
    obtain ⟨types, rfl, rfl, named⟩ := inductionHypothesis parsed
    obtain ⟨written, namedFirst⟩ := FieldType.chars_of_parsed consumed
    refine ⟨type :: types, by simp, by simp [written], ?_⟩
    rw [List.flatMap_cons, List.forall_mem_append]
    exact ⟨namedFirst, named⟩

/-- A parameter is parsed before the others. -/
theorem parametersParser_of_parsed {first : Char} {tail : List Char} {type : FieldType}
    (notClosing : first ≠ ')') (parsed : FieldType.parser (first :: tail) = .ok (type, rest))
    (done : List FieldType) :
    parametersParser (first :: tail) done = parametersParser rest (type :: done) := by
  rw [parametersParser]
  · split
    · next failed =>
      rw [parsed] at failed
      cases failed
    · next consumed =>
      rw [parsed] at consumed
      cases consumed
      rfl
  · exact notClosing

/-- Parameters that are written are parsed as what was written. -/
theorem parametersParser_chars (named : ∀ name ∈ types.flatMap FieldType.classNames, IsClassName name)
    (done : List FieldType) (rest : List Char) :
    parametersParser (types.flatMap FieldType.chars ++ ')' :: rest) done =
      .ok (done.reverse ++ types, rest) := by
  induction types generalizing done with
  | nil => simp [parametersParser]
  | cons type types inductionHypothesis =>
    rw [List.flatMap_cons, List.forall_mem_append] at named
    obtain ⟨first, tail, written, notClosing, -⟩ := type.exists_chars
    have parsed := FieldType.parser_chars named.1 (types.flatMap FieldType.chars ++ ')' :: rest)
    rw [List.flatMap_cons, List.append_assoc]
    rw [written, List.cons_append] at parsed ⊢
    rw [parametersParser_of_parsed notClosing parsed, inductionHypothesis named.2]
    simp

/-- How a return type is written. -/
def returnChars : Option FieldType → List Char
  | none => ['V']
  | some type => type.chars

theorem chars_eq (descriptor : MethodDescriptor) :
    descriptor.chars =
      '(' :: (descriptor.parameters.flatMap FieldType.chars ++
        ')' :: returnChars descriptor.returnType) := rfl

/-- The parser of return types recognizes their written forms. -/
theorem returnParser_recognized :
    Recognizes returnParser returnChars fun returned => returned.toList.flatMap FieldType.classNames := by
  intro source returned rest
  constructor
  · intro parsed
    unfold returnParser at parsed
    split at parsed
    · cases parsed
      exact ⟨rfl, by simp⟩
    · split at parsed
      · cases parsed
      · next consumed =>
        cases parsed
        obtain ⟨written, named⟩ := FieldType.chars_of_parsed consumed
        exact ⟨written, by simpa using named⟩
  · rintro ⟨rfl, named⟩
    cases returned with
    | none => rfl
    | some type =>
      obtain ⟨first, tail, written, -, notVoid⟩ := type.exists_chars
      have parsed : FieldType.parser (type.chars ++ rest) = .ok (type, rest) :=
        FieldType.parser_chars (by simpa using named) rest
      rw [returnChars]
      rw [written, List.cons_append] at parsed ⊢
      rw [returnParser, parsed]
      exact fun _ same => notVoid (List.cons.inj same).1

theorem recognized : Recognizes parser chars classNames := by
  intro source descriptor rest
  rw [chars_eq, classNames, List.forall_mem_append]
  constructor
  · intro parsed
    unfold parser at parsed
    split at parsed
    · next tail =>
      split at parsed
      · cases parsed
      · next taken =>
        split at parsed
        · cases parsed
        · next returned =>
          cases parsed
          obtain ⟨types, rfl, rfl, named⟩ := chars_of_parametersParser taken
          obtain ⟨rfl, namedLast⟩ := (returnParser_recognized _ _ _).mp returned
          exact ⟨by simp, named, namedLast⟩
    · cases parsed
  · rintro ⟨rfl, named, namedLast⟩
    have returned := (returnParser_recognized _ _ rest).mpr ⟨rfl, namedLast⟩
    have taken := parametersParser_chars named [] (returnChars descriptor.returnType ++ rest)
    simp only [List.cons_append, List.append_assoc, parser, taken, returned, List.reverse_nil,
      List.nil_append]

end MethodDescriptor

/-- A text is parsed to the values of which it is the written form. -/
theorem Recognizes.parseWhole_eq_ok_iff {parser : DescriptorParser A} {written : A → List Char}
    {names : A → List String} (recognizes : Recognizes parser written names) {source : String}
    {value : A} :
    parseWhole parser source = .ok value ↔
      String.ofList (written value) = source ∧ ∀ name ∈ names value, IsClassName name := by
  have whole := recognizes source.toList value []
  rw [List.append_nil] at whole
  have same : String.ofList (written value) = source ↔ source.toList = written value := by
    rw [← String.toList_inj, String.toList_ofList, eq_comm]
  rw [same, ← whole, parseWhole]
  split
  · next failed => simp [failed]
  · next ended => simp [ended]
  · next left => simp [left]

/-- Parsing inverts rendering on values with proper class names, and fails on all other texts. -/
structure Inverts (parse : String → Except DescriptorError A) (render : A → String)
    (names : A → List String) : Prop where
  accepts : ∀ source value, parse source = .ok value ↔
    render value = source ∧ ∀ name ∈ names value, IsClassName name
  unambiguous : ∀ first second, (∀ name ∈ names first, IsClassName name) →
    (∀ name ∈ names second, IsClassName name) → render first = render second → first = second
  rejects : ∀ source, (∃ cause, parse source = .error cause) ↔
    ¬∃ value, render value = source ∧ ∀ name ∈ names value, IsClassName name

/-- A parser that recognizes written forms inverts writing. -/
theorem Recognizes.inverts {parser : DescriptorParser A} {written : A → List Char}
    {names : A → List String} (recognizes : Recognizes parser written names) :
    Inverts (parseWhole parser) (fun value => String.ofList (written value)) names := by
  constructor
  case accepts => exact fun source value => recognizes.parseWhole_eq_ok_iff
  case unambiguous =>
    intro first second namedFirst namedSecond same
    have one := recognizes.parseWhole_eq_ok_iff.mpr ⟨same, namedFirst⟩
    have other := recognizes.parseWhole_eq_ok_iff.mpr ⟨rfl, namedSecond⟩
    rw [one] at other
    exact Except.ok.inj other
  case rejects =>
    intro source
    simp only [← recognizes.parseWhole_eq_ok_iff]
    cases parseWhole parser source <;> simp

/-- A text is a descriptor exactly if it is a rendered one whose class names are nonempty and without
semicolons. -/
theorem parse_inverts_render :
    Inverts FieldType.parse FieldType.render FieldType.classNames ∧
      Inverts MethodDescriptor.parse MethodDescriptor.render MethodDescriptor.classNames :=
  ⟨FieldType.recognized.inverts, MethodDescriptor.recognized.inverts⟩

/-- A class name may hold a parenthesis and letters of other types, but it may not be missing. -/
theorem parse_inverts_render_oddName :
    MethodDescriptor.parse "([[La(I;I)V" =
        .ok ⟨[.array (.array (.object "a(I")), .base .int], none⟩ ∧
      ¬∃ type, FieldType.render type = "[L;" ∧ ∀ name ∈ type.classNames, IsClassName name := by
  obtain ⟨fields, methods⟩ := parse_inverts_render
  exact ⟨(methods.accepts _ _).mpr ⟨rfl, by decide⟩, (fields.rejects _).mp ⟨.unterminatedClass "", rfl⟩⟩

end Classfile
