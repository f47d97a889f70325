import KeyTree.Program

/-!
Running a program. A handler answers requests from a state and moves the state on. A
run keeps the requests with their answers, so that what a program asked can be told
from what it found. The run of a sequence is the run of its parts one after the other
(`run_bind`), catching a failure changes nothing but the result (`run_outcome`), and a
program that is served by others ends as it does with their handler (`run_servedBy`).
-/
namespace KeyTree

/-- Answers requests from a state. -/
abbrev Handler (I : Interface) (σ : Type) :=
  (query : I.Request) → σ → Except Failure (I.Answer query) × σ

/-- A request with the answer that it got. -/
structure Exchange (I : Interface) where
  query : I.Request
  answer : Except Failure (I.Answer query)

/-- What a run leaves: its result, its notices and its exchanges in order, and the
last state. -/
structure Run (I : Interface) (σ α : Type) where
  result : Except Failure α
  notices : List Notice
  exchanges : List (Exchange I)
  state : σ

namespace Run
variable {I : Interface} {α β σ : Type}

/-- The run with what was reported and asked before it. -/
def after (notices : List Notice) (exchanges : List (Exchange I)) (run : Run I σ α) :
    Run I σ α where
  result := run.result
  notices := notices ++ run.notices
  exchanges := exchanges ++ run.exchanges
  state := run.state

/-- Goes on from where a run ended, unless it failed. -/
def andThen (first : Run I σ α) (next : α → σ → Run I σ β) : Run I σ β :=
  match first.result with
  | .ok value => (next value first.state).after first.notices first.exchanges
  | .error failure => ⟨.error failure, first.notices, first.exchanges, first.state⟩

section after
variable (notices : List Notice) (exchanges : List (Exchange I)) (run : Run I σ α)

@[simp] theorem after_result : (run.after notices exchanges).result = run.result := rfl

@[simp] theorem after_notices : (run.after notices exchanges).notices = notices ++ run.notices :=
  rfl

@[simp] theorem after_exchanges :
    (run.after notices exchanges).exchanges = exchanges ++ run.exchanges := rfl

@[simp] theorem after_state : (run.after notices exchanges).state = run.state := rfl

@[simp] theorem after_nil : run.after [] [] = run := rfl

@[simp] theorem after_after (earlier : List Notice) (before : List (Exchange I)) :
    (run.after notices exchanges).after earlier before =
      run.after (earlier ++ notices) (before ++ exchanges) := by
  simp only [after, List.append_assoc]

@[simp] theorem after_andThen (next : α → σ → Run I σ β) :
    (run.after notices exchanges).andThen next = (run.andThen next).after notices exchanges := by
  obtain ⟨result, later, asked, state⟩ := run
  cases result with
  | ok value => exact (after_after later asked (next value state) notices exchanges).symm
  | error failure => rfl

end after

@[simp] theorem andThen_ok (value : α) (notices : List Notice) (exchanges : List (Exchange I))
    (state : σ) (next : α → σ → Run I σ β) :
    andThen ⟨.ok value, notices, exchanges, state⟩ next =
      (next value state).after notices exchanges := rfl

@[simp] theorem andThen_error (failure : Failure) (notices : List Notice)
    (exchanges : List (Exchange I)) (state : σ) (next : α → σ → Run I σ β) :
    andThen ⟨.error failure, notices, exchanges, state⟩ next =
      ⟨.error failure, notices, exchanges, state⟩ := rfl

end Run

namespace Program
variable {I : Interface} {α β σ : Type}

def run (handler : Handler I σ) : Program I α → σ → Run I σ α
  | done value, state => ⟨.ok value, [], [], state⟩
  | fail failure, state => ⟨.error failure, [], [], state⟩
  | report notice rest, state => (rest.run handler state).after [notice] []
  | ask query next, state =>
    let answered := handler query state
    ((next answered.1).run handler answered.2).after [] [⟨query, answered.1⟩]

section run
variable (handler : Handler I σ) (state : σ)

@[simp] theorem run_done (value : α) :
    (done value : Program I α).run handler state = ⟨.ok value, [], [], state⟩ := rfl

@[simp] theorem run_fail (failure : Failure) :
    (fail failure : Program I α).run handler state = ⟨.error failure, [], [], state⟩ := rfl

@[simp] theorem run_refuse (cause : Cause) :
    (refuse cause : Program I α).run handler state = ⟨.error (.refused cause), [], [], state⟩ :=
  rfl

@[simp] theorem run_report (notice : Notice) (rest : Program I α) :
    (report notice rest).run handler state = (rest.run handler state).after [notice] [] := rfl

@[simp] theorem run_notify (notice : Notice) :
    (notify notice : Program I Unit).run handler state = ⟨.ok (), [notice], [], state⟩ := rfl

theorem run_request (query : I.Request) :
    (request query).run handler state =
      ⟨(handler query state).1, [], [⟨query, (handler query state).1⟩],
        (handler query state).2⟩ := by
  simp only [request, run]
  cases (handler query state).1 <;> rfl

/-- A sequence runs its second part from where the first one ended, and not at all
where the first one failed. -/
theorem run_bind (program : Program I α) (next : α → Program I β) :
    (program.bind next).run handler state =
      (program.run handler state).andThen fun value later => (next value).run handler later := by
  induction program generalizing state with
  | done value => rfl
  | fail failure => rfl
  | report notice rest ih => simp only [bind, run, ih, Run.after_andThen]
  | ask query rest ih => simp only [bind, run, ih, Run.after_andThen]

/-- Catching a failure changes nothing but the result. -/
theorem run_outcome (program : Program I α) :
    program.outcome.run handler state =
      let inner := program.run handler state
      ⟨.ok inner.result, inner.notices, inner.exchanges, inner.state⟩ := by
  induction program generalizing state with
  | done value => rfl
  | fail failure => rfl
  | report notice rest ih => simp only [outcome, run, ih, Run.after]
  | ask query next ih => simp only [outcome, run, ih, Run.after]

end run

/-- What fails by a refusal answers no, and what fails otherwise still fails; nothing more is
asked. -/
theorem run_succeeds (handler : Handler I σ) (program : Program I Unit) (notice : Cause → Notice)
    (state : σ) :
    ((program.succeeds notice).run handler state).result =
        (match (program.run handler state).result with
        | .ok _ => .ok true
        | .error (.refused _) => .ok false
        | .error failure => .error failure) ∧
      ((program.succeeds notice).run handler state).state = (program.run handler state).state ∧
      ((program.succeeds notice).run handler state).exchanges =
        (program.run handler state).exchanges := by
  rw [succeeds, attempt, run_bind, run_bind, run_outcome]
  generalize program.run handler state = inner
  obtain ⟨result, notices, exchanges, later⟩ := inner
  cases result with
  | ok value => exact ⟨rfl, rfl, by simp⟩
  | error failure => cases failure <;> exact ⟨rfl, rfl, by simp⟩

/-- The handler that answers each request by a run of the program that serves it. -/
def handlerOf {J : Interface} (serve : (query : I.Request) → Program J (I.Answer query))
    (handler : Handler J σ) : Handler I σ :=
  fun query state =>
    let inner := (serve query).run handler state
    (inner.result, inner.state)

/-- A served program ends as the program does with the handler of its server. -/
theorem run_servedBy {J : Interface} (serve : (query : I.Request) → Program J (I.Answer query))
    (handler : Handler J σ) (program : Program I α) (state : σ) :
    ((program.servedBy serve).run handler state).result =
        (program.run (handlerOf serve handler) state).result ∧
      ((program.servedBy serve).run handler state).state =
        (program.run (handlerOf serve handler) state).state := by
  induction program generalizing state with
  | done value => exact ⟨rfl, rfl⟩
  | fail failure => exact ⟨rfl, rfl⟩
  | report notice rest ih => exact ih state
  | ask query next ih =>
    simp only [servedBy, run_bind, run_outcome, Run.andThen_ok, Run.after_result,
      Run.after_state, run]
    exact ih _ _

section servedBy
variable {J : Interface} {serve : (query : I.Request) → Program J (I.Answer query)}

theorem servedBy_bind (program : Program I α) (next : α → Program I β) :
    (program.bind next).servedBy serve =
      (program.servedBy serve).bind fun value => (next value).servedBy serve := by
  induction program with
  | done value => rfl
  | fail failure => rfl
  | report notice rest ih => simp only [bind, servedBy, ih]
  | ask query rest ih => simp only [bind, servedBy, ih, bind_assoc]

variable (handler : Handler J σ) (state : σ)

/-- A served request is a run of its server. -/
theorem run_servedBy_request (query : I.Request) :
    ((request query).servedBy serve).run handler state = (serve query).run handler state := by
  simp only [request, servedBy, run_bind, run_outcome, Run.andThen_ok]
  cases ended : ((serve query).run handler state).result <;> simp [servedBy, Run.after, ← ended]

theorem run_servedBy_outcome (program : Program I α) :
    (program.outcome.servedBy serve).run handler state =
      let inner := (program.servedBy serve).run handler state
      ⟨.ok inner.result, inner.notices, inner.exchanges, inner.state⟩ := by
  induction program generalizing state with
  | done value => rfl
  | fail failure => rfl
  | report notice rest ih => simp only [outcome, servedBy, run, ih, Run.after]
  | ask query next ih =>
    simp only [outcome, servedBy, run_bind, run_outcome, Run.andThen_ok, ih, Run.after]

end servedBy

end Program
end KeyTree
