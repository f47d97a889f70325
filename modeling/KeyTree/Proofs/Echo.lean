import KeyTree.Program.Run
import Mathlib.Data.List.Forall2

/-!
Programs that differ only in how they spell the paths of their messages. One echoes another
if both ask the same requests whatever is answered, and end alike up to the path texts that
their messages quote. Run against the same handler, they have the same exchanges and leave
the same state (`Echoes.run`).
-/
namespace KeyTree

/-- The cause without the texts of the paths that it quotes; the keys stay. -/
def Cause.unquoted : Cause → Cause
  | alreadyFile _ => alreadyFile []
  | ancestorIsFile _ => ancestorIsFile []
  | parentMissing _ => parentMissing []
  | notListable _ => notListable []
  | notEmpty _ => notEmpty []
  | destinationExists _ => destinationExists []
  | destinationInside _ _ => destinationInside [] []
  | sourceMissing _ => sourceMissing []
  | unknownPath _ => unknownPath []
  | cause => cause

def Failure.unquoted : Failure → Failure
  | refused cause => refused cause.unquoted
  | failure => failure

/-- Failures that differ in path texts are refusals. -/
theorem Failure.eq_or_refused {one other : Failure} (same : one.unquoted = other.unquoted) :
    one = other ∨ ∃ cause reason : Cause, one = refused cause ∧ other = refused reason ∧
      cause.unquoted = reason.unquoted := by
  cases one with
  | refused cause =>
    cases other with
    | refused reason => exact .inr ⟨cause, reason, rfl, rfl, Failure.refused.inj same⟩
    | defect _ | tooManyPages | tooDeep => cases same
  | defect _ | tooManyPages | tooDeep =>
    cases other with
    | refused reason => cases same
    | defect _ | tooManyPages | tooDeep => exact .inl same

/-- The notice without the texts of the paths that it quotes; the keys stay. -/
def Notice.unquoted : Notice → Notice
  | unlistable _ stem cause => unlistable [] stem cause.unquoted
  | directoryNotMade _ cause => directoryNotMade [] cause.unquoted
  | directoryNotDeleted _ cause => directoryNotDeleted [] cause.unquoted
  | directoryNotRenamed _ _ cause => directoryNotRenamed [] [] cause.unquoted
  | fileNotRenamed _ _ cause => fileNotRenamed [] [] cause.unquoted
  | statusMissing _ => statusMissing []
  | notice => notice

/-- The run without the texts of the paths that its messages quote. -/
def Run.unquoted {I : Interface} {σ α : Type} (run : Run I σ α) : Run I σ α where
  result := run.result.mapError Failure.unquoted
  notices := run.notices.map Notice.unquoted
  exchanges := run.exchanges
  state := run.state

namespace Program
variable {I : Interface} {σ α β γ δ : Type}

/-- Two ends of a program: values in the relation, or failures that differ in path texts. -/
inductive Echoed (related : α → β → Prop) : Except Failure α → Except Failure β → Prop where
  | value {one : α} {other : β} (holds : related one other) : Echoed related (.ok one) (.ok other)
  | failure {one other : Failure} (same : one.unquoted = other.unquoted) :
    Echoed related (.error one) (.error other)

inductive Echoes (related : α → β → Prop) : Program I α → Program I β → Prop where
  | done {one : α} {other : β} (holds : related one other) :
    Echoes related (.done one) (.done other)
  | fail {one other : Failure} (same : one.unquoted = other.unquoted) :
    Echoes related (.fail one) (.fail other)
  | report {one other : Notice} (same : one.unquoted = other.unquoted) {first : Program I α}
      {second : Program I β} (rest : Echoes related first second) :
    Echoes related (.report one first) (.report other second)
  | ask (query : I.Request) {next : Except Failure (I.Answer query) → Program I α}
      {follow : Except Failure (I.Answer query) → Program I β}
      (rest : ∀ answer, Echoes related (next answer) (follow answer)) :
    Echoes related (.ask query next) (.ask query follow)

namespace Echoes
variable {related : α → β → Prop} {first : Program I α} {second : Program I β}

theorem refl (program : Program I α) : Echoes Eq program program := by
  induction program with
  | done value => exact .done rfl
  | fail failure => exact .fail rfl
  | report notice rest ih => exact .report rfl ih
  | ask query next ih => exact .ask query ih

theorem notify {one other : Notice} (same : one.unquoted = other.unquoted) :
    Echoes (I := I) Eq (notify one) (notify other) :=
  .report same (.done rfl)

theorem refuse {one other : Cause} (same : one.unquoted = other.unquoted) :
    Echoes related (refuse one : Program I α) (refuse other : Program I β) :=
  .fail (congrArg Failure.refused same)

theorem bind {next : α → Program I γ} {follow : β → Program I δ} {final : γ → δ → Prop}
    (echoes : Echoes related first second)
    (rest : ∀ one other, related one other → Echoes final (next one) (follow other)) :
    Echoes final (first.bind next) (second.bind follow) := by
  induction echoes with
  | done holds => exact rest _ _ holds
  | fail same => exact .fail same
  | report same _ ih => exact .report same ih
  | ask query _ ih => exact .ask query ih

/-- After the same request the rest goes on from the same answer. -/
theorem bind_refl {program : Program I γ} {next : γ → Program I α} {follow : γ → Program I β}
    (rest : ∀ value, Echoes related (next value) (follow value)) :
    Echoes related (program.bind next) (program.bind follow) := by
  apply (refl program).bind
  intro one other same
  exact same ▸ rest one

/-- Two programs with the same values go on from the same value. -/
theorem bind_eq {next : α → Program I γ} {follow : α → Program I δ} {final : γ → δ → Prop}
    {third : Program I α} (echoes : Echoes Eq first third)
    (rest : ∀ value, Echoes final (next value) (follow value)) :
    Echoes final (first.bind next) (third.bind follow) := by
  apply echoes.bind
  intro one other same
  exact same ▸ rest one

theorem ite {condition : Prop} [Decidable condition] {third : Program I α} {fourth : Program I β}
    (yes : condition → Echoes related first second)
    (no : ¬ condition → Echoes related third fourth) :
    Echoes related (if condition then first else third)
      (if condition then second else fourth) := by
  by_cases holds : condition
  · simpa only [if_pos holds] using yes holds
  · simpa only [if_neg holds] using no holds

theorem forM₂ {items : List γ} {others : List δ} {like : γ → δ → Prop}
    {next : γ → Program I Unit} {follow : δ → Program I Unit}
    (each : ∀ item other, like item other → Echoes Eq (next item) (follow other))
    (lists : List.Forall₂ like items others) : Echoes Eq (items.forM next) (others.forM follow) := by
  induction lists with
  | nil => exact .done rfl
  | cons holds _ ih => exact (each _ _ holds).bind_eq fun _ => ih

theorem forM {next follow : γ → Program I Unit} (each : ∀ item, Echoes Eq (next item) (follow item))
    (items : List γ) : Echoes Eq (items.forM next) (items.forM follow) := by
  induction items with
  | nil => exact .done rfl
  | cons item later ih => exact (each item).bind_eq fun _ => ih

theorem outcome (echoes : Echoes related first second) :
    Echoes (Echoed related) first.outcome second.outcome := by
  induction echoes with
  | done holds => exact .done (.value holds)
  | fail same => exact .done (.failure same)
  | report same _ ih => exact .report same ih
  | ask query _ ih => exact .ask query ih

/-- Whether one succeeds is whether the other does, and what they report of a refusal differs
in path texts only. -/
theorem succeeds {first second : Program I Unit} {notice other : Cause → Notice}
    (echoes : Echoes Eq first second)
    (alike : ∀ one another : Cause, one.unquoted = another.unquoted →
      (notice one).unquoted = (other another).unquoted) :
    Echoes Eq (first.succeeds notice) (second.succeeds other) := by
  rw [Program.succeeds, Program.succeeds, attempt, attempt, bind_assoc, bind_assoc]
  apply echoes.outcome.bind
  intro result answer ends
  cases ends with
  | value holds => exact .done rfl
  | failure same =>
    obtain rfl | ⟨cause, reason, rfl, rfl, texts⟩ := Failure.eq_or_refused same
    · rename_i failure
      cases failure with
      | refused cause => exact .report (alike cause cause rfl) (.done rfl)
      | defect _ | tooManyPages | tooDeep => exact .fail rfl
    · exact .report (alike cause reason texts) (.done rfl)

/-- What two runs leave when one program echoes the other: everything but path texts. -/
theorem run {first second : Program I α} (echoes : Echoes Eq first second) (handler : Handler I σ)
    (state : σ) :
    (first.run handler state).unquoted = (second.run handler state).unquoted := by
  induction echoes generalizing state with
  | done holds => rw [holds]
  | fail same => simp [Run.unquoted, Except.mapError, same]
  | report same _ ih =>
    have rest := ih state
    simp only [Run.unquoted, Run.mk.injEq] at rest
    simp [Run.unquoted, same, rest]
  | ask query _ ih =>
    have rest := ih (handler query state).1 (handler query state).2
    simp only [Run.unquoted, Run.mk.injEq] at rest
    simp [Run.unquoted, Program.run, rest]

end Echoes
end Program
end KeyTree
