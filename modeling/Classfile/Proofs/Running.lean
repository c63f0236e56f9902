import Classfile.Code.Edit
import Mathlib.Tactic

/-!
Running tasks: what a run says about its parts.
-/

namespace Classfile

/-- A bind succeeds exactly when both of its parts do. -/
theorem exceptBind_eq_ok_iff {A B : Type} {first : Except Error A} {next : A → Except Error B}
    {value : B} :
    (first >>= next) = .ok value ↔ ∃ middle, first = .ok middle ∧ next middle = .ok value := by
  cases first with
  | error error => simp [bind, Except.bind]
  | ok middle => simp [bind, Except.bind]

theorem exceptPure_eq_ok_iff {A : Type} {value result : A} :
    (pure value : Except Error A) = .ok result ↔ value = result := by
  simp [pure, Except.pure]

theorem exceptThrow_eq_ok_iff {A : Type} {error : Error} {result : A} :
    (throw error : Except Error A) = .ok result ↔ False := by
  simp [throw, throwThe, MonadExceptOf.throw]

/-- What every step keeps holds after a fold. -/
theorem foldlM_invariant {A B : Type} {step : B → A → Except Error B} (holds : B → Prop)
    {items : List A}
    (kept : ∀ state item result, item ∈ items → holds state → step state item = .ok result →
      holds result)
    {start result : B} (initially : holds start) (ran : items.foldlM step start = .ok result) :
    holds result := by
  induction items generalizing start with
  | nil =>
    rw [List.foldlM_nil, exceptPure_eq_ok_iff] at ran
    exact ran ▸ initially
  | cons item items inductionHypothesis =>
    rw [List.foldlM_cons, exceptBind_eq_ok_iff] at ran
    obtain ⟨middle, stepped, continued⟩ := ran
    apply inductionHypothesis _ (kept start item middle (by simp) initially stepped) continued
    intro state other next present
    exact kept state other next (by simp [present])

namespace Task

variable {S T A B : Type}

theorem bind_eq_ok_iff {task : Task S A} {next : A → Task S B} {before after : Logged S}
    {value : B} :
    (task >>= next) before = .ok value after ↔
      ∃ first middle, task before = .ok first middle ∧ next first middle = .ok value after := by
  change EStateM.bind task next before = _ ↔ _
  cases ran : task before with
  | ok first middle => simp [EStateM.bind, ran]
  | error error middle => simp [EStateM.bind, ran]

theorem bind_of_eq_ok {task : Task S A} {next : A → Task S B} {before middle : Logged S}
    {first : A} (ran : task before = .ok first middle) :
    (task >>= next) before = next first middle := by
  change EStateM.bind task next before = _
  simp only [EStateM.bind, ran]

theorem bind_of_eq_error {task : Task S A} {next : A → Task S B} {before after : Logged S}
    {error : Error} (failed : task before = .error error after) :
    (task >>= next) before = .error error after := by
  change EStateM.bind task next before = _
  simp only [EStateM.bind, failed]

theorem pure_eq_ok_iff {value result : A} {before after : Logged S} :
    (pure value : Task S A) before = .ok result after ↔ value = result ∧ before = after := by
  change EStateM.pure value before = _ ↔ _
  simp [EStateM.pure]

theorem throw_eq_ok_iff {error : Error} {result : A} {before after : Logged S} :
    (throw error : Task S A) before = .ok result after ↔ False := by
  change EStateM.Result.error error before = .ok result after ↔ _
  simp

theorem read_eq_ok_iff {result : S} {before after : Logged S} :
    (read : Task S S) before = .ok result after ↔ before.state = result ∧ before = after := by
  simp [read]

theorem write_eq_ok_iff {state : S} {result : Unit} {before after : Logged S} :
    write state before = .ok result after ↔ ⟨state, before.events⟩ = after := by
  simp [write]

theorem report_eq_ok_iff {event : Event} {result : Unit} {before after : Logged S} :
    report event before = .ok result after ↔
      ⟨before.state, before.events.push event⟩ = after := by
  simp [report]

theorem ofExcept_eq_ok_iff {outcome : Except Error A} {result : A} {before after : Logged S} :
    ofExcept outcome before = .ok result after ↔ outcome = .ok result ∧ before = after := by
  cases outcome <;> simp [ofExcept]

theorem focus_eq_ok_iff {part : S → T} {restore : S → T → S} {task : Task T A} {result : A}
    {before after : Logged S} :
    focus part restore task before = .ok result after ↔
      ∃ inner, task ⟨part before.state, before.events⟩ = .ok result inner ∧
        ⟨restore before.state inner.state, inner.events⟩ = after := by
  cases ran : task ⟨part before.state, before.events⟩ with
  | ok value inner => simp [focus, ran, and_assoc]
  | error error inner => simp [focus, ran]

theorem silent_eq_ok_iff {task : EStateM Error S A} {result : A} {before after : Logged S} :
    silent task before = .ok result after ↔
      ∃ state, task before.state = .ok result state ∧ ⟨state, before.events⟩ = after := by
  cases ran : task before.state with
  | ok value state => simp [silent, ran, and_assoc]
  | error error state => simp [silent, ran]

theorem ofReader_eq_ok_iff {reader : Reader A} {result : A} {before after : Logged Bytes} :
    ofReader reader before = .ok result after ↔
      ∃ rest, reader before.state = .ok (result, rest) ∧ ⟨rest, before.events⟩ = after := by
  cases ran : reader before.state with
  | ok pair =>
    obtain ⟨value, rest⟩ := pair
    simp [ofReader, ran, and_assoc]
  | error error => simp [ofReader, ran]

theorem forM_nil {act : A → Task S Unit} {before : Logged S} :
    ([] : List A).forM act before = .ok () before := rfl

/-- A task for each item of a list succeeds for the first one and then for the others. -/
theorem forM_cons_eq_ok_iff {act : A → Task S Unit} {item : A} {items : List A}
    {before after : Logged S} {result : Unit} :
    (item :: items).forM act before = .ok result after ↔
      ∃ middle, act item before = .ok () middle ∧ items.forM act middle = .ok result after := by
  change (act item >>= fun _ => items.forM act) before = _ ↔ _
  rw [bind_eq_ok_iff]
  constructor
  · rintro ⟨⟨⟩, middle, ran, continued⟩
    exact ⟨middle, ran, continued⟩
  · rintro ⟨middle, ran, continued⟩
    exact ⟨(), middle, ran, continued⟩

/-- Reports are added to those before, and leave the state alone. -/
theorem forM_report (events : List Event) (before : Logged S) :
    events.forM report before = .ok () ⟨before.state, before.events ++ events.toArray⟩ := by
  induction events generalizing before with
  | nil => simp [forM_nil]
  | cons event events inductionHypothesis =>
    refine forM_cons_eq_ok_iff.mpr ⟨_, report_eq_ok_iff.mpr rfl, ?_⟩
    rw [inductionHypothesis, List.toArray_cons, ← Array.append_assoc, Array.append_singleton]

/-- A run returned a value or failed with an error, and something holds of it and of the state it
left. -/
def Ends (returns : A → S → Prop) (fails : Error → S → Prop) :
    EStateM.Result Error (Logged S) A → Prop
  | .ok value after => returns value after.state
  | .error error after => fails error after.state

section Ends

variable {returns : B → S → Prop} {fails : Error → S → Prop}

/-- Two tasks end one after the other, where the first may fail already. -/
theorem Ends.bind {task : Task S A} {next : A → Task S B} {before : Logged S}
    {between : A → S → Prop} (first : Ends between fails (task before))
    (continued : ∀ value middle, between value middle.state → Ends returns fails (next value middle)) :
    Ends returns fails ((task >>= next) before) := by
  cases ran : task before with
  | ok value middle =>
    rw [ran] at first
    rw [bind_of_eq_ok ran]
    exact continued value middle first
  | error error after =>
    rw [ran] at first
    rw [bind_of_eq_error ran]
    exact first

/-- What is known of how a task ends can be weakened. -/
theorem Ends.imp {other : B → S → Prop} {otherFails : Error → S → Prop}
    {result : EStateM.Result Error (Logged S) B} (ends : Ends returns fails result)
    (returned : ∀ value state, returns value state → other value state)
    (failed : ∀ error state, fails error state → otherFails error state) :
    Ends other otherFails result := by
  cases result with
  | ok value after => exact returned value after.state ends
  | error error after => exact failed error after.state ends

/-- What each task keeps, whatever tasks are left, a list of them keeps. -/
theorem ends_forM {act : A → Task S Unit} (pending : List A → S → Prop)
    (step : ∀ item items before, pending (item :: items) before.state →
      Ends (fun _ after => pending items after) fails (act item before))
    (items : List A) {before : Logged S} (holds : pending items before.state) :
    Ends (fun _ after => pending [] after) fails (items.forM act before) := by
  induction items generalizing before with
  | nil => exact holds
  | cons item items inductionHypothesis =>
    exact Ends.bind (step item items before holds) fun _ _ kept => inductionHypothesis kept

end Ends

end Task

end Classfile
