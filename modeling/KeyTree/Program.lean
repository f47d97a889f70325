import KeyTree.Notice

/-!
Programs that ask for what they cannot compute. An interface lists the requests
and the type of each answer; a program is a tree of requests, notices and results,
so it can be run against any handler, or served by programs over another interface. A
failed request is an answer too: the program decides what becomes of it.
-/
namespace KeyTree

structure Interface where
  Request : Type
  Answer : Request → Type

inductive Program (I : Interface) (α : Type) where
  | done (value : α)
  | fail (failure : Failure)
  | report (notice : Notice) (rest : Program I α)
  | ask (request : I.Request) (next : Except Failure (I.Answer request) → Program I α)

namespace Program
variable {I J : Interface} {α β γ : Type}

def bind : Program I α → (α → Program I β) → Program I β
  | done value, next => next value
  | fail failure, _ => fail failure
  | report notice rest, next => report notice (rest.bind next)
  | ask request rest, next => ask request fun answer => (rest answer).bind next

instance : Monad (Program I) where
  pure := done
  bind := bind

/-- Asks and takes the answer; a failed request fails the program. -/
def request (query : I.Request) : Program I (I.Answer query) :=
  ask query fun
    | .ok value => done value
    | .error failure => fail failure

def refuse (cause : Cause) : Program I α := fail (.refused cause)

def notify (notice : Notice) : Program I Unit := report notice (done ())

def ofExcept : Except Failure α → Program I α
  | .ok value => done value
  | .error failure => fail failure

/-- Turns how the program ends into its value. -/
def outcome : Program I α → Program I (Except Failure α)
  | done value => done (.ok value)
  | fail failure => done (.error failure)
  | report notice rest => report notice rest.outcome
  | ask query next => ask query fun answer => (next answer).outcome

/-- Turns a refusal into a value; every other failure still fails the program. -/
def attempt (program : Program I α) : Program I (Except Cause α) :=
  program.outcome.bind fun
    | .ok value => done (.ok value)
    | .error (.refused cause) => done (.error cause)
    | .error failure => fail failure

/-- Answers whether the program succeeded; a refusal is reported and answers no. -/
def succeeds (program : Program I Unit) (notice : Cause → Notice) : Program I Bool :=
  program.attempt.bind fun
    | .ok _ => done true
    | .error cause => report (notice cause) (done false)

/-- Serves every request of one interface by a program over another. -/
def servedBy (serve : (query : I.Request) → Program J (I.Answer query)) :
    Program I α → Program J α
  | done value => done value
  | fail failure => fail failure
  | report notice rest => report notice (rest.servedBy serve)
  | ask query next => (serve query).outcome.bind fun answer => (next answer).servedBy serve

@[simp] theorem pure_eq_done (value : α) : (pure value : Program I α) = done value := rfl

@[simp] theorem bind_eq_bind (program : Program I α) (next : α → Program I β) :
    program >>= next = program.bind next := rfl

theorem bind_done (program : Program I α) : program.bind done = program := by
  induction program with
  | done value => rfl
  | fail failure => rfl
  | report notice rest ih => simp only [bind, ih]
  | ask query next ih => simp only [bind, ih]

theorem bind_assoc (program : Program I α) (first : α → Program I β)
    (second : β → Program I γ) :
    (program.bind first).bind second = program.bind fun value => (first value).bind second := by
  induction program with
  | done value => rfl
  | fail failure => rfl
  | report notice rest ih => simp only [bind, ih]
  | ask query next ih => simp only [bind, ih]

instance : LawfulMonad (Program I) :=
  LawfulMonad.mk' (Program I) bind_done (fun _ _ => rfl) bind_assoc

end Program
end KeyTree
