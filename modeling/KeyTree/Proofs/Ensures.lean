import KeyTree.Program.Run

/-!
What a program ensures against an environment that may answer in more than one way. A
behaviour says which answers a request may get and which states it may leave; a program
ensures a condition if every way of answering it ends there. A handler that stays within
the behaviour then ends there too (`Ensures.run`).
-/
namespace KeyTree

/-- The answers that a request may get from a state, with the states that it may leave. -/
abbrev Behaviour (I : Interface) (σ : Type) :=
  (query : I.Request) → σ → Except Failure (I.Answer query) → σ → Prop

/-- The handler, seen through a view of its state, answers as the behaviour allows. -/
def Handler.Within {I : Interface} {σ τ : Type} (handler : Handler I τ) (view : τ → σ)
    (may : Behaviour I σ) : Prop :=
  ∀ query state, may query (view state) (handler query state).1 (view (handler query state).2)

namespace Program
variable {I : Interface} {σ τ α β : Type} {may : Behaviour I σ}

def Ensures (may : Behaviour I σ) : Program I α → σ → (Except Failure α → σ → Prop) → Prop
  | done value, state, post => post (.ok value) state
  | fail failure, state, post => post (.error failure) state
  | report _ rest, state, post => rest.Ensures may state post
  | ask query next, state, post =>
    ∀ answer later, may query state answer later → (next answer).Ensures may later post

/-- Every way of answering the program ends with a value, and there the condition
holds. -/
def Returns (may : Behaviour I σ) (program : Program I α) (state : σ) (post : α → σ → Prop) :
    Prop :=
  program.Ensures may state fun result later => ∃ value, result = .ok value ∧ post value later

namespace Ensures
variable {state : σ} {post wider : Except Failure α → σ → Prop} {program : Program I α}

theorem mono (ensured : program.Ensures may state post)
    (widens : ∀ result later, post result later → wider result later) :
    program.Ensures may state wider := by
  induction program generalizing state with
  | done value => exact widens _ _ ensured
  | fail failure => exact widens _ _ ensured
  | report notice rest ih => exact ih ensured
  | ask query next ih => exact fun answer later served => ih answer (ensured answer later served)

/-- What a program ensures one by one it ensures together. -/
theorem and {other : Except Failure α → σ → Prop} (first : program.Ensures may state post)
    (second : program.Ensures may state other) :
    program.Ensures may state fun result later => post result later ∧ other result later := by
  induction program generalizing state with
  | done value => exact ⟨first, second⟩
  | fail failure => exact ⟨first, second⟩
  | report notice rest ih => exact ih first second
  | ask query next ih =>
    intro answer later served
    exact ih answer (first answer later served) (second answer later served)

/-- A sequence ensures what its second part ensures from every end of the first, and
what the failures of the first part leave. -/
theorem bind {final : Except Failure β → σ → Prop} {next : α → Program I β}
    (first : program.Ensures may state post)
    (second : ∀ value later, post (.ok value) later → (next value).Ensures may later final)
    (failed : ∀ failure later, post (.error failure) later → final (.error failure) later) :
    (program.bind next).Ensures may state final := by
  induction program generalizing state with
  | done value => exact second value state first
  | fail failure => exact failed failure state first
  | report notice rest ih => exact ih first
  | ask query rest ih => exact fun answer later served => ih answer (first answer later served)

theorem bind_done {value : β} {next : β → Program I α}
    (rest : (next value).Ensures may state post) :
    ((done value).bind next).Ensures may state post :=
  rest

theorem notify {notice : Notice} {next : Unit → Program I α}
    (rest : (next ()).Ensures may state post) :
    ((Program.notify notice).bind next).Ensures may state post :=
  rest

theorem outcome (ensured : program.Ensures may state post) :
    program.outcome.Ensures may state fun result later =>
      ∃ inner, result = .ok inner ∧ post inner later := by
  induction program generalizing state with
  | done value => exact ⟨_, rfl, ensured⟩
  | fail failure => exact ⟨_, rfl, ensured⟩
  | report notice rest ih => exact ih ensured
  | ask query next ih => exact fun answer later served => ih answer (ensured answer later served)

/-- A refusal becomes a value; every other failure stays one. -/
theorem attempt (ensured : program.Ensures may state post) :
    program.attempt.Ensures may state fun result later =>
      (∃ value, result = .ok (.ok value) ∧ post (.ok value) later) ∨
      (∃ cause, result = .ok (.error cause) ∧ post (.error (.refused cause)) later) ∨
      ∃ failure, (∀ cause, failure ≠ .refused cause) ∧ result = .error failure ∧
        post (.error failure) later := by
  refine bind (outcome ensured) ?_ ?_
  · rintro inner later ⟨_, ⟨⟩, holds⟩
    cases inner with
    | ok value => exact .inl ⟨value, rfl, holds⟩
    | error failure =>
      cases failure with
      | refused cause => exact .inr (.inl ⟨cause, rfl, holds⟩)
      | defect _ | tooManyPages | tooDeep => exact .inr (.inr ⟨_, fun _ => Failure.noConfusion, rfl, holds⟩)
  · rintro failure later ⟨_, ⟨⟩, _⟩

/-- A program that succeeds answers yes, one that is refused no. -/
theorem succeeds {program : Program I Unit} {post : Except Failure Unit → σ → Prop}
    (ensured : program.Ensures may state post) (notice : Cause → Notice) :
    (program.succeeds notice).Ensures may state fun result later =>
      (result = .ok true ∧ post (.ok ()) later) ∨
      (result = .ok false ∧ ∃ cause, post (.error (.refused cause)) later) ∨
      ∃ failure, result = .error failure ∧ post (.error failure) later := by
  refine bind (attempt ensured) ?_ ?_
  · rintro inner later (⟨⟨⟩, ⟨⟩, holds⟩ | ⟨cause, ⟨⟩, holds⟩ | ⟨_, _, ⟨⟩, _⟩)
    · exact .inl ⟨rfl, holds⟩
    · exact .inr (.inl ⟨rfl, cause, holds⟩)
  · rintro failure later (⟨_, ⟨⟩, _⟩ | ⟨_, ⟨⟩, _⟩ | ⟨_, _, ⟨⟩, holds⟩)
    exact .inr (.inr ⟨failure, rfl, holds⟩)

/-- What a program leaves however it ends, it leaves where its success is asked for. -/
theorem succeeds_leaves {program : Program I Unit} {left : σ → Prop}
    (ensured : program.Ensures may state fun _ => left) (notice : Cause → Notice) :
    (program.succeeds notice).Ensures may state fun _ => left := by
  apply mono (ensured.succeeds notice)
  rintro result later (⟨_, holds⟩ | ⟨_, _, holds⟩ | ⟨_, _, holds⟩)
  · exact holds
  · exact holds
  · exact holds

/-- What holds beside a coarser view of the states holds beside the states themselves. -/
theorem of_view {fine : Behaviour I τ} {view : τ → σ}
    (coarse : ∀ query state answer later, fine query state answer later →
      may query (view state) answer (view later)) {start : τ}
    (ensured : program.Ensures may (view start) post) :
    program.Ensures fine start fun result later => post result (view later) := by
  induction program generalizing start with
  | done value => exact ensured
  | fail failure => exact ensured
  | report notice rest ih => exact ih ensured
  | ask query next ih =>
    exact fun answer later served => ih answer (ensured answer _ (coarse query start answer later served))

/-- What holds however the program may be answered holds of each of its runs. -/
theorem run {handler : Handler I τ} {view : τ → σ} {start : τ}
    (within : handler.Within view may) (ensured : program.Ensures may (view start) post) :
    post (program.run handler start).result (view (program.run handler start).state) := by
  induction program generalizing start with
  | done value => exact ensured
  | fail failure => exact ensured
  | report notice rest ih => exact ih ensured
  | ask query next ih => exact ih _ (ensured _ _ (within query start))

end Ensures

namespace Returns
variable {state : σ} {program : Program I α} {post wider : α → σ → Prop}

theorem mono (ensured : program.Returns may state post)
    (widens : ∀ value later, post value later → wider value later) :
    program.Returns may state wider :=
  Ensures.mono ensured fun _ later ⟨value, same, holds⟩ => ⟨value, same, widens value later holds⟩

theorem bind {final : Except Failure β → σ → Prop} {next : α → Program I β}
    (first : program.Returns may state post)
    (second : ∀ value later, post value later → (next value).Ensures may later final) :
    (program.bind next).Ensures may state final := by
  refine Ensures.bind first ?_ ?_
  · rintro value later ⟨_, ⟨⟩, holds⟩
    exact second value later holds
  · rintro failure later ⟨_, ⟨⟩, _⟩

theorem and {other : α → σ → Prop} (first : program.Returns may state post)
    (second : program.Returns may state other) :
    program.Returns may state fun value later => post value later ∧ other value later := by
  apply Ensures.mono (Ensures.and first second)
  rintro result later ⟨⟨value, rfl, holds⟩, _, ⟨⟩, also⟩
  exact ⟨value, rfl, holds, also⟩

theorem attempt (ensured : program.Returns may state post) :
    program.attempt.Returns may state fun answer later =>
      ∃ value, answer = .ok value ∧ post value later := by
  apply Ensures.mono (Ensures.attempt ensured)
  rintro result later (⟨value, rfl, _, ⟨⟩, holds⟩ | ⟨_, _, _, ⟨⟩, _⟩ | ⟨_, _, _, _, ⟨⟩, _⟩)
  exact ⟨_, rfl, value, rfl, holds⟩

/-- A program that fails by refusals only is always answered for. -/
theorem succeeds {program : Program I Unit} {post : Except Failure Unit → σ → Prop}
    (ensured : program.Ensures may state post) (notice : Cause → Notice)
    (refuses : ∀ failure later, post (.error failure) later → ∃ cause, failure = .refused cause) :
    (program.succeeds notice).Returns may state fun answer later =>
      (answer = true ∧ post (.ok ()) later) ∨
      answer = false ∧ ∃ cause, post (.error (.refused cause)) later := by
  apply Ensures.bind (Ensures.attempt ensured)
  · rintro inner later (⟨⟨⟩, ⟨⟩, holds⟩ | ⟨cause, ⟨⟩, holds⟩ | ⟨_, _, ⟨⟩, _⟩)
    · exact ⟨true, rfl, .inl ⟨rfl, holds⟩⟩
    · exact ⟨false, rfl, .inr ⟨rfl, cause, holds⟩⟩
  · rintro failure later (⟨_, ⟨⟩, _⟩ | ⟨_, ⟨⟩, _⟩ | ⟨_, other, ⟨⟩, holds⟩)
    obtain ⟨cause, same⟩ := refuses failure later holds
    exact absurd same (other cause)

end Returns
end Program
end KeyTree
