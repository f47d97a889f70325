import KeyTree.Proofs.Ensures

/-!
How programs end when requests fail. A program settles if from every state with an invariant it
comes to a value with a property, or to a failure that is expected of it, and the invariant holds
again. Programs that settle are put together by the rules below.
-/
namespace KeyTree

namespace Program
variable {I : Interface} {σ α β : Type}

/-- A value with the property, or an expected failure. -/
def Fate (expected : Failure → Prop) (post : α → Prop) : Except Failure α → Prop
  | .ok value => post value
  | .error failure => expected failure

/-- An expected end in a state with the invariant. -/
def Settled (inv : σ → Prop) (expected : Failure → Prop) (post : α → Prop)
    (result : Except Failure α) (later : σ) : Prop :=
  inv later ∧ Fate expected post result

/-- From every state with the invariant the program comes to an expected end. -/
def Settles (may : Behaviour I σ) (inv : σ → Prop) (expected : Failure → Prop)
    (program : Program I α) (post : α → Prop) : Prop :=
  ∀ state, inv state → program.Ensures may state (Settled inv expected post)

namespace Settles
variable {may : Behaviour I σ} {inv : σ → Prop} {expected : Failure → Prop}
  {program : Program I α} {post middle : α → Prop}

theorem done {value : α} (holds : post value) :
    Settles may inv expected (.done value) post :=
  fun _ kept => ⟨kept, holds⟩

theorem fail {failure : Failure} (known : expected failure) :
    Settles may inv expected (.fail failure) post :=
  fun _ kept => ⟨kept, known⟩

theorem notify (notice : Notice) :
    Settles may inv expected (notify notice) fun _ => True :=
  fun _ kept => ⟨kept, trivial⟩

theorem mono (settles : program.Settles may inv expected middle)
    (widens : ∀ value, middle value → post value) : program.Settles may inv expected post := by
  intro state kept
  apply Ensures.mono (settles state kept)
  intro result later ended
  cases result with
  | ok value => exact ⟨ended.1, widens value ended.2⟩
  | error failure => exact ended

theorem allow {wider : Failure → Prop} (settles : program.Settles may inv expected post)
    (widens : ∀ failure, expected failure → wider failure) :
    program.Settles may inv wider post := by
  intro state kept
  apply Ensures.mono (settles state kept)
  intro result later ended
  cases result with
  | ok value => exact ended
  | error failure => exact ⟨ended.1, widens failure ended.2⟩

theorem bind {next : α → Program I β} {final : β → Prop}
    (first : program.Settles may inv expected middle)
    (rest : ∀ value, middle value → (next value).Settles may inv expected final) :
    (program.bind next).Settles may inv expected final := by
  intro state kept
  apply Ensures.bind (first state kept)
  · rintro value later ⟨kept, holds⟩
    exact rest value holds later kept
  · exact fun failure later ended => ended

theorem map {form : α → β} {final : β → Prop} (settles : program.Settles may inv expected middle)
    (formed : ∀ value, middle value → final (form value)) :
    (form <$> program).Settles may inv expected final :=
  bind settles fun value holds => done (formed value holds)

theorem ite {condition : Prop} [Decidable condition] {first second : Program I α}
    (yes : condition → first.Settles may inv expected post)
    (no : ¬ condition → second.Settles may inv expected post) :
    Settles may inv expected (if condition then first else second) post := by
  split
  · exact yes ‹_›
  · exact no ‹_›

theorem forM {next : β → Program I PUnit} {items : List β}
    (each : ∀ item ∈ items, (next item).Settles may inv expected fun _ => True) :
    Settles may inv expected (items.forM next) fun _ => True := by
  induction items with
  | nil => exact done trivial
  | cons item later ih =>
    apply bind (each item List.mem_cons_self)
    exact fun _ _ => ih fun item member => each item (List.mem_cons_of_mem _ member)

theorem foldlM {next : α → β → Program I α} {items : List β} {value : α} (start : post value)
    (each : ∀ value, post value → ∀ item ∈ items, (next value item).Settles may inv expected post) :
    Settles may inv expected (items.foldlM next value) post := by
  induction items generalizing value with
  | nil => exact done start
  | cons item later ih =>
    apply bind (each value start item List.mem_cons_self)
    intro next holds
    exact ih holds fun value holds item member => each value holds item (List.mem_cons_of_mem _ member)

/-- However the program ends is its outcome. -/
theorem outcome (settles : program.Settles may inv expected post) :
    program.outcome.Settles may inv (fun _ => False) (Fate expected post) := by
  intro state kept
  apply Ensures.mono (Ensures.outcome (settles state kept))
  rintro result later ⟨inner, rfl, ended⟩
  exact ended

/-- A refusal is a value once it is attempted. -/
theorem attempt (settles : program.Settles may inv expected post) :
    program.attempt.Settles may inv
      (fun failure => (∀ cause, failure ≠ .refused cause) ∧ expected failure)
      (fun answer => (∃ value, answer = .ok value ∧ post value) ∨
        ∃ cause, answer = .error cause ∧ expected (.refused cause)) := by
  intro state kept
  apply Ensures.mono (Ensures.attempt (settles state kept))
  rintro result later (⟨value, rfl, kept, holds⟩ | ⟨cause, rfl, kept, known⟩ |
    ⟨failure, other, rfl, kept, known⟩)
  · exact ⟨kept, .inl ⟨value, rfl, holds⟩⟩
  · exact ⟨kept, .inr ⟨cause, rfl, known⟩⟩
  · exact ⟨kept, other, known⟩

end Settles

/-- Where success is asked for, only failures that are no refusals are left. -/
theorem Ensures.settled_succeeds {may : Behaviour I σ} {inv : σ → Prop}
    {expected narrower : Failure → Prop} {program : Program I Unit} {post : Unit → Prop} {state : σ}
    (ensured : program.Ensures may state (Settled inv expected post)) (notice : Cause → Notice)
    (left : ∀ failure, (∀ cause, failure ≠ .refused cause) → expected failure →
      narrower failure) :
    (program.succeeds notice).Ensures may state (Settled inv narrower fun _ => True) := by
  apply Ensures.bind (Ensures.attempt ensured)
  · rintro answer later (⟨value, ⟨⟩, kept, _⟩ | ⟨cause, ⟨⟩, kept, _⟩ | ⟨_, _, ⟨⟩, _⟩)
    · exact ⟨kept, trivial⟩
    · exact ⟨kept, trivial⟩
  · rintro failure later (⟨_, ⟨⟩, _⟩ | ⟨_, ⟨⟩, _⟩ | ⟨_, other, ⟨⟩, kept, known⟩)
    exact ⟨kept, left failure other known⟩

end Program

/-- A refusal of one of these kinds, or a limit that is reached where there may be no end. -/
def Failure.Expected (kinds : Kind → Prop) (endless : Prop) : Failure → Prop
  | .refused cause => kinds cause.kind
  | .defect _ => False
  | .tooManyPages | .tooDeep => endless

end KeyTree
