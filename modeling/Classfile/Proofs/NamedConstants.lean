import Classfile.Proofs.EntryTracing
import Classfile.Proofs.PoolHistory
import Classfile.Proofs.TextEncoding

/-!
Constants that are interned by name say that name for good.

A request enters up to six constants that refer to each other. `Request.Entered` says which constants
are found from the index it returns. They are found there in every later pool, and they lead back to the
texts of the request, so an index stands for one request only.
-/

namespace Classfile

namespace Pool

variable {before after later : Pool} {index : ConstantIndex}

/-- The first index of a constant is one at which it is found. -/
theorem Built.get_firstIndex {pool : Pool} (built : pool.Built) {constant : Constant}
    (known : pool.firstIndex[constant]? = some index) : pool.get index = .ok constant := by
  have scanned := built.scan?_eq constant
  rw [known, Option.map_some, scan?, eq_comm, Option.map_eq_some_iff] at scanned
  obtain ⟨⟨offset, other⟩, found, rfl⟩ := scanned
  have same : other = constant := by simpa using List.find?_some found
  obtain ⟨entry, located⟩ := List.getElem?_of_mem (List.mem_of_find?_eq_some found)
  rw [get_eq_ok_iff built]
  exact ⟨entry, by rw [← Array.getElem?_toList, located, same]⟩

/-- A constant that was interned is found at its index. -/
theorem get_of_intern (built : before.Built) {constant : Constant}
    (interned : intern constant before = .ok index after) : after.get index = .ok constant :=
  (extends_of_intern interned built).1.get_firstIndex (remembers_of_intern interned).2

/-- The index of a text. -/
def HoldsText (pool : Pool) (index : ConstantIndex) (text : String) : Prop :=
  pool.get index = .ok (.utf8 (ModifiedUtf8.encode text))

/-- The index of a class with a name. -/
def HoldsClass (pool : Pool) (index : ConstantIndex) (name : String) : Prop :=
  ∃ text, pool.get index = .ok (.classInfo text) ∧ pool.HoldsText text name

/-- The index of a name with a descriptor. -/
def HoldsSignature (pool : Pool) (index : ConstantIndex) (name descriptor : String) : Prop :=
  ∃ first second, pool.get index = .ok (.nameAndType first second) ∧ pool.HoldsText first name ∧
    pool.HoldsText second descriptor

/-- The constant at the index is what a request asks for, and so are the constants it refers to. -/
def Request.Entered (pool : Pool) (index : ConstantIndex) : Request → Prop
  | .entry constant => pool.get index = .ok constant
  | .text contents => pool.HoldsText index contents
  | .className name => pool.HoldsClass index name
  | .string contents => ∃ text, pool.get index = .ok (.string text) ∧ pool.HoldsText text contents
  | .nameAndType name descriptor => pool.HoldsSignature index name descriptor
  | .field owner name descriptor => ∃ first second, pool.get index = .ok (.fieldRef first second) ∧
      pool.HoldsClass first owner ∧ pool.HoldsSignature second name descriptor
  | .method owner name descriptor => ∃ first second,
      pool.get index = .ok (.methodRef first second false) ∧
      pool.HoldsClass first owner ∧ pool.HoldsSignature second name descriptor

section Growth

variable (kept : ∀ index constant, before.get index = .ok constant → after.get index = .ok constant)

include kept

/-- A text that a pool holds is held by every later one. -/
theorem HoldsText.grows {text : String} (holds : before.HoldsText index text) :
    after.HoldsText index text := kept _ _ holds

theorem HoldsClass.grows {name : String} (holds : before.HoldsClass index name) :
    after.HoldsClass index name := by
  obtain ⟨text, found, named⟩ := holds
  exact ⟨text, kept _ _ found, kept _ _ named⟩

theorem HoldsSignature.grows {name descriptor : String}
    (holds : before.HoldsSignature index name descriptor) :
    after.HoldsSignature index name descriptor := by
  obtain ⟨first, second, found, named, described⟩ := holds
  exact ⟨first, second, kept _ _ found, kept _ _ named, kept _ _ described⟩

/-- What was entered is still found where constants are. -/
theorem Request.Entered.grows {request : Request} (entered : request.Entered before index) :
    request.Entered after index := by
  cases request with
  | entry constant => exact kept _ _ entered
  | text contents => exact HoldsText.grows kept entered
  | className name => exact HoldsClass.grows kept entered
  | string contents =>
    obtain ⟨text, found, holds⟩ := entered
    exact ⟨text, kept _ _ found, holds.grows kept⟩
  | nameAndType name descriptor => exact HoldsSignature.grows kept entered
  | field owner name descriptor | method owner name descriptor =>
    obtain ⟨first, second, found, owned, signed⟩ := entered
    exact ⟨first, second, kept _ _ found, owned.grows kept, signed.grows kept⟩

end Growth

/-- A class that was interned is held with its name. -/
theorem holdsClass_of_internClass (built : before.Built) {name : String}
    (interned : internClass name before = .ok index after) : after.HoldsClass index name := by
  obtain ⟨text, middle, first, second⟩ := Interning.bind_eq_ok_iff.mp interned
  have grown := extends_of_intern first built
  have kept := (extends_of_intern second grown.1).2
  exact ⟨text, get_of_intern grown.1 second, kept _ _ (get_of_intern built first)⟩

/-- A name and type that were interned are held with their texts. -/
theorem holdsSignature_of_internNameAndType (built : before.Built) {name descriptor : String}
    (interned : internNameAndType name descriptor before = .ok index after) :
    after.HoldsSignature index name descriptor := by
  obtain ⟨first, middle, ranName, interned⟩ := Interning.bind_eq_ok_iff.mp interned
  obtain ⟨second, last, ranDescriptor, paired⟩ := Interning.bind_eq_ok_iff.mp interned
  have grown := extends_of_intern ranName built
  have grownAgain := extends_of_intern ranDescriptor grown.1
  have kept := (extends_of_intern paired grownAgain.1).2
  have named := grownAgain.2 _ _ (get_of_intern built ranName)
  exact ⟨first, second, get_of_intern grownAgain.1 paired, kept _ _ named,
    kept _ _ (get_of_intern grown.1 ranDescriptor)⟩

/-- The class and the signature of a member are entered before the member itself. -/
theorem holdsMember_of_bind (built : before.Built) {owner name descriptor : String}
    {make : ConstantIndex → ConstantIndex → Constant}
    (interned : (do
      let owner ← internClass owner
      let signature ← internNameAndType name descriptor
      intern (make owner signature) : Interning ConstantIndex) before = .ok index after) :
    ∃ first second, after.get index = .ok (make first second) ∧ after.HoldsClass first owner ∧
      after.HoldsSignature second name descriptor := by
  obtain ⟨first, middle, ranOwner, interned⟩ := Interning.bind_eq_ok_iff.mp interned
  obtain ⟨second, last, ranSignature, made⟩ := Interning.bind_eq_ok_iff.mp interned
  have grown := (Interning.enlarges_internClass owner).toExtends ranOwner built
  have grownAgain := (Interning.enlarges_internNameAndType name descriptor).toExtends ranSignature grown.1
  have kept := (extends_of_intern made grownAgain.1).2
  have owned := (holdsClass_of_internClass built ranOwner).grows grownAgain.2
  exact ⟨first, second, get_of_intern grownAgain.1 made, owned.grows kept,
    (holdsSignature_of_internNameAndType grown.1 ranSignature).grows kept⟩

/-- A request that is met enters what it asks for. -/
theorem Request.entered_of_run (built : before.Built) {request : Request}
    (ran : request.run before = .ok index after) : request.Entered after index := by
  cases request with
  | entry constant => exact get_of_intern built ran
  | text contents => exact get_of_intern built ran
  | className name => exact holdsClass_of_internClass built ran
  | string contents =>
    obtain ⟨text, middle, first, second⟩ := Interning.bind_eq_ok_iff.mp ran
    have grown := extends_of_intern first built
    have kept := (extends_of_intern second grown.1).2
    exact ⟨text, get_of_intern grown.1 second, kept _ _ (get_of_intern built first)⟩
  | nameAndType name descriptor => exact holdsSignature_of_internNameAndType built ran
  | field owner name descriptor => exact holdsMember_of_bind built ran
  | method owner name descriptor => exact @holdsMember_of_bind _ _ _ built _ _ _ (.methodRef · · false) ran

section Lookups

variable {pool : Pool}

/-- A text that is held is found by its index. -/
theorem HoldsText.text_eq {text : String} (holds : pool.HoldsText index text) :
    pool.text index = .ok text := by
  have found : pool.utf8 index = .ok (ModifiedUtf8.encode text) := by
    rw [utf8, holds]
    rfl
  rw [Pool.text, found]
  exact congrArg Except.ok (ModifiedUtf8.decode_encode text)

theorem HoldsClass.className_eq {name : String} (holds : pool.HoldsClass index name) :
    pool.className index = .ok name := by
  obtain ⟨text, found, named⟩ := holds
  rw [className, found]
  exact named.text_eq

/-- The pair that lookups find at the index has the name and the descriptor. -/
def NamesSignature (pool : Pool) (index : ConstantIndex) (name descriptor : String) : Prop :=
  ∃ first second, pool.nameAndType index = .ok (first, second) ∧ pool.text first = .ok name ∧
    pool.text second = .ok descriptor

/-- A name and type that are held are found by their index. -/
theorem HoldsSignature.names {name descriptor : String}
    (holds : pool.HoldsSignature index name descriptor) :
    pool.NamesSignature index name descriptor := by
  obtain ⟨first, second, found, named, described⟩ := holds
  refine ⟨first, second, ?_, named.text_eq, described.text_eq⟩
  rw [nameAndType, found]
  rfl

/-- The member that lookups find at the index has the owner, the name and the descriptor. -/
structure NamesMember (pool : Pool) (index : ConstantIndex) (owner name descriptor : String) :
    Prop where
  parts : ∃ first second, pool.member index = .ok (first, second) ∧
    pool.className first = .ok owner ∧ pool.NamesSignature second name descriptor
  described : pool.memberDescriptor index = .ok descriptor

/-- The text of the descriptor is looked up through the signature. -/
theorem NamesSignature.text_descriptor {name descriptor : String}
    (names : pool.NamesSignature index name descriptor) :
    (do let (_, descriptor) ← pool.nameAndType index
        pool.text descriptor) = .ok descriptor := by
  obtain ⟨first, second, found, -, described⟩ := names
  rw [found]
  exact described

/-- A member whose parts are held is found by its index. -/
theorem namesMember_of_get {first second : ConstantIndex} {owner name descriptor : String}
    (found : pool.get index = .ok (.fieldRef first second) ∨
      ∃ onInterface, pool.get index = .ok (.methodRef first second onInterface))
    (owned : pool.HoldsClass first owner) (signed : pool.HoldsSignature second name descriptor) :
    pool.NamesMember index owner name descriptor := by
  have described := signed.names.text_descriptor
  refine ⟨⟨first, second, ?_, owned.className_eq, signed.names⟩, ?_⟩
  · rcases found with found | ⟨onInterface, found⟩ <;> rw [member, found] <;> rfl
  · rcases found with found | ⟨onInterface, found⟩ <;> rw [memberDescriptor, found] <;>
      exact described

/-- Lookups lead from the index to what was asked for. -/
def Request.Denotes (pool : Pool) (index : ConstantIndex) : Request → Prop
  | .entry constant => pool.get index = .ok constant
  | .text contents => pool.text index = .ok contents
  | .className name => pool.className index = .ok name
  | .string contents => pool.string index = .ok contents
  | .nameAndType name descriptor => pool.NamesSignature index name descriptor
  | .field owner name descriptor | .method owner name descriptor =>
    pool.NamesMember index owner name descriptor

/-- The answer to a request denotes what was asked for. -/
theorem Request.Entered.denotes {request : Request} (entered : request.Entered pool index) :
    request.Denotes pool index := by
  cases request with
  | entry constant => exact entered
  | text contents => exact HoldsText.text_eq entered
  | className name => exact HoldsClass.className_eq entered
  | string contents =>
    obtain ⟨text, found, holds⟩ := entered
    change pool.string index = .ok contents
    rw [Pool.string, found]
    exact holds.text_eq
  | nameAndType name descriptor => exact HoldsSignature.names entered
  | field owner name descriptor =>
    obtain ⟨first, second, found, owned, signed⟩ := entered
    exact namesMember_of_get (.inl found) owned signed
  | method owner name descriptor =>
    obtain ⟨first, second, found, owned, signed⟩ := entered
    exact namesMember_of_get (.inr ⟨false, found⟩) owned signed

/-- The request gives texts, not a constant as such. -/
def Request.ByTexts : Request → Prop
  | .entry _ => False
  | _ => True

/-- The request by texts that is answered with the index, which undoes interning. -/
def answered (pool : Pool) (index : ConstantIndex) : Except Error Request := do
  match ← pool.get index with
  | .utf8 bytes => return .text (ModifiedUtf8.decode bytes)
  | .classInfo name => return .className (← pool.text name)
  | .string contents => return .string (← pool.text contents)
  | .nameAndType name descriptor => return .nameAndType (← pool.text name) (← pool.text descriptor)
  | .fieldRef owner signature =>
    let (name, descriptor) ← pool.nameAndType signature
    return .field (← pool.className owner) (← pool.text name) (← pool.text descriptor)
  | .methodRef owner signature _ =>
    let (name, descriptor) ← pool.nameAndType signature
    return .method (← pool.className owner) (← pool.text name) (← pool.text descriptor)
  | constant => return .entry constant

/-- The request can be told from its answer. -/
theorem Request.Entered.answered_eq {request : Request} (entered : request.Entered pool index)
    (named : request.ByTexts) : pool.answered index = .ok request := by
  cases request with
  | entry constant => exact named.elim
  | text contents =>
    change pool.get index = _ at entered
    rw [answered, entered]
    exact congrArg (Except.ok ∘ Request.text) (ModifiedUtf8.decode_encode contents)
  | className name =>
    obtain ⟨text, found, holds⟩ := entered
    simp [answered, found, holds.text_eq, exceptBind_eq_ok_iff]
  | string contents =>
    obtain ⟨text, found, holds⟩ := entered
    simp [answered, found, holds.text_eq, exceptBind_eq_ok_iff]
  | nameAndType name descriptor =>
    obtain ⟨first, second, found, holds, described⟩ := entered
    simp [answered, found, holds.text_eq, described.text_eq, exceptBind_eq_ok_iff]
  | field owner name descriptor | method owner name descriptor =>
    obtain ⟨_, signature, found, owned, signed⟩ := entered
    obtain ⟨first, second, paired, holds, described⟩ := signed.names
    simp [answered, found, owned.className_eq, paired, holds, described, exceptBind_eq_ok_iff]

end Lookups

/-- Whatever is requested later, lookups lead from the index of a request to what was asked for, and
a request for other texts, or for another kind of constant, has another index. -/
theorem denotes_of_reached {pool : Pool} (reached : pool.Reached) {request : Request}
    (ran : request.run pool = .ok index after) (requests : List Request) :
    request.Denotes (after.after requests) index ∧
      ∀ other again later, other.run (after.after requests) = .ok again later →
        request.ByTexts → other.ByTexts → other ≠ request → again ≠ index := by
  obtain ⟨built, -⟩ := request.enlarges.toExtends ran reached.built
  have entered := Request.entered_of_run reached.built ran
  obtain ⟨builtLast, kept⟩ := (after.enlarges_after requests).toExtends built
  have enteredLast := entered.grows kept
  refine ⟨enteredLast.denotes, ?_⟩
  rintro other again later ranOther named namedOther different rfl
  have keptOther := (other.enlarges.toExtends ranOther builtLast).2
  have known := (enteredLast.grows keptOther).answered_eq named
  rw [(Request.entered_of_run builtLast ranOther).answered_eq namedOther] at known
  exact different (Except.ok.inj known)

theorem denotes_of_reached_doubledText :
    ∃ pool after later index again, Pool.read doubledText = .ok (pool, []) ∧
      (Request.method "a" "b" "c").run pool = .ok index after ∧
      (Request.field "b" "a" "c").run (after.after [.string "a"]) = .ok again later ∧
      (after.after [.string "a"]).NamesMember index "a" "b" "c" ∧ again ≠ index := by
  obtain ⟨pool, done, extent⟩ : ∃ pool, Pool.read doubledText = .ok (pool, []) ∧ pool.table.extent = 6 :=
    ⟨_, rfl, rfl⟩
  have short (letter : String) (one : letter = "a" ∨ letter = "b" ∨ letter = "c") :
      (ModifiedUtf8.encode letter).length < 65536 := by
    rcases one with rfl | rfl | rfl <;> decide
  obtain ⟨index, after, ran, used⟩ := Interning.fits_internMethod (short "a" (by simp))
    (short "b" (by simp)) (short "c" (by simp)) pool (by omega)
  obtain ⟨text, middle, ranString, usedMiddle⟩ := Interning.fits_internString (short "a" (by simp))
    after (by omega)
  have left : after.after [.string "a"] = middle := by
    simp only [Pool.after, List.foldl_cons, List.foldl_nil, Interning.leaves, Request.run, ranString]
  obtain ⟨again, later, ranOther, -⟩ := Interning.fits_internField (short "b" (by simp))
    (short "a" (by simp)) (short "c" (by simp)) middle (by omega)
  rw [← left] at ranOther
  obtain ⟨denotes, distinct⟩ := @denotes_of_reached _ _ pool ⟨pool, [], .read done, rfl⟩
    (.method "a" "b" "c") ran [.string "a"]
  exact ⟨pool, after, later, index, again, done, ran, ranOther, denotes,
    distinct (.field "b" "a" "c") again later ranOther trivial trivial (by decide)⟩

end Pool

end Classfile
