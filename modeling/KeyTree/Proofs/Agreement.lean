import KeyTree.Proofs.Backend

/-!
Two programs beside each other, each over a backend of its own. They agree if from the same
contents they end with the same contents and with results that match, whatever else the
backends keep. A program that mirrors another sees of the objects only which there are and
what they hold, and does the same with them.
-/
namespace KeyTree

/-- Both results are values in the relation, or both are refusals where these are allowed. -/
inductive Matches {α β : Type} (refusable : Prop) (related : α → β → Prop) :
    Except Failure α → Except Failure β → Prop where
  | value {one : α} {other : β} (holds : related one other) :
    Matches refusable related (.ok one) (.ok other)
  | refusal (allowed : refusable) (one other : Cause) :
    Matches refusable related (.error (.refused one)) (.error (.refused other))

namespace Program
variable {I : Interface} {σ α β γ δ : Type}

theorem run_succeeds_ok {handler : Handler I σ} {program : Program I Unit} {state : σ}
    (notice : Cause → Notice) (done : (program.run handler state).result = .ok ()) :
    ((program.succeeds notice).run handler state).result = .ok true ∧
      ((program.succeeds notice).run handler state).state = (program.run handler state).state := by
  rw [succeeds, attempt, run_bind, run_bind, run_outcome]
  generalize program.run handler state = inner at done
  obtain ⟨result, notices, exchanges, later⟩ := inner
  cases done
  exact ⟨rfl, rfl⟩

theorem run_succeeds_refused {handler : Handler I σ} {program : Program I Unit} {state : σ}
    (notice : Cause → Notice) {cause : Cause}
    (refused : (program.run handler state).result = .error (.refused cause)) :
    ((program.succeeds notice).run handler state).result = .ok false ∧
      ((program.succeeds notice).run handler state).state = (program.run handler state).state := by
  rw [succeeds, attempt, run_bind, run_bind, run_outcome]
  generalize program.run handler state = inner at refused
  obtain ⟨result, notices, exchanges, later⟩ := inner
  cases refused
  exact ⟨rfl, rfl⟩

/-- From these contents both programs end with the same contents and results that match. -/
def Agrees (one other : Backend) (refusable : Prop) (first : Store.Action one.Cursor α)
    (second : Store.Action other.Cursor β) (contents : Contents)
    (post : Contents → α → β → Prop) : Prop :=
  ∀ left right, one.contents left = contents → other.contents right = contents →
    ∃ later : Contents, one.contents (first.run one.serve left).state = later ∧
      other.contents (second.run other.serve right).state = later ∧
      Matches refusable (post later) (first.run one.serve left).result
        (second.run other.serve right).result

variable {left right : Backend}

namespace Agrees
variable {refusable : Prop} {first : Store.Action left.Cursor α}
  {second : Store.Action right.Cursor β} {contents : Contents}
  {post wider : Contents → α → β → Prop}

theorem mono (agrees : Agrees left right refusable first second contents post)
    (widens : ∀ later one other, post later one other → wider later one other) :
    Agrees left right refusable first second contents wider := by
  intro here there starts begins
  obtain ⟨later, reached, met, ends⟩ := agrees here there starts begins
  refine ⟨later, reached, met, ?_⟩
  generalize (first.run left.serve here).result = result at ends ⊢
  generalize (second.run right.serve there).result = answer at ends ⊢
  cases ends with
  | value holds => exact .value (widens later _ _ holds)
  | refusal allowed one other => exact .refusal allowed one other

theorem done {one : α} {other : β} (holds : post contents one other) :
    Agrees left right refusable (done one) (done other) contents post :=
  fun _ _ starts begins => ⟨contents, starts, begins, .value holds⟩

theorem refuse (allowed : refusable) (one other : Cause) :
    Agrees left right refusable (refuse one) (refuse other) contents post :=
  fun _ _ starts begins => ⟨contents, starts, begins, .refusal allowed one other⟩

theorem notify (one other : Notice) :
    Agrees left right refusable (notify one) (notify other) contents
      fun later _ _ => later = contents :=
  fun _ _ starts begins => ⟨contents, starts, begins, .value rfl⟩

theorem ite {condition : Prop} [Decidable condition] {third : Store.Action left.Cursor α}
    {fourth : Store.Action right.Cursor β}
    (yes : condition → Agrees left right refusable first second contents post)
    (no : ¬ condition → Agrees left right refusable third fourth contents post) :
    Agrees left right refusable (if condition then first else third)
      (if condition then second else fourth) contents post := by
  split
  · rename_i holds
    exact yes holds
  · rename_i fails
    exact no fails

theorem bind {next : α → Store.Action left.Cursor γ} {follow : β → Store.Action right.Cursor δ}
    {final : Contents → γ → δ → Prop}
    (agrees : Agrees left right refusable first second contents post)
    (rest : ∀ later one other, post later one other →
      Agrees left right refusable (next one) (follow other) later final) :
    Agrees left right refusable (first.bind next) (second.bind follow) contents final := by
  intro here there starts begins
  obtain ⟨middle, reached, met, ends⟩ := agrees here there starts begins
  rw [run_bind, run_bind]
  generalize first.run left.serve here = one at reached ends
  generalize second.run right.serve there = other at met ends
  obtain ⟨result, notices, exchanges, state⟩ := one
  obtain ⟨answer, others, asked, place⟩ := other
  cases ends with
  | value holds => exact rest middle _ _ holds state place reached met
  | refusal allowed one other => exact ⟨middle, reached, met, .refusal allowed one other⟩

/-- Along a list, each item takes up what the items before it have left. -/
theorem forM {ι : Type} {next : ι → Store.Action left.Cursor Unit}
    {follow : ι → Store.Action right.Cursor Unit} {inv : List ι → Contents → Prop}
    (step : ∀ item rest contents, inv (item :: rest) contents →
      Agrees left right refusable (next item) (follow item) contents
        fun later _ _ => inv rest later) (items : List ι) (holds : inv items contents) :
    Agrees left right refusable (items.forM next) (items.forM follow) contents
      fun later _ _ => inv [] later := by
  induction items generalizing contents with
  | nil => exact done holds
  | cons item rest ih => exact bind (step item rest contents holds) fun later _ _ kept => ih kept

/-- What each program ends with alone may be enough. -/
theorem of_ends {one : Except Failure α → Contents → Prop} {other : Except Failure β → Contents → Prop}
    (here : left.Ends first contents one) (there : right.Ends second contents other)
    (join : ∀ result reached answer met, one result reached → other answer met →
      reached = met ∧ Matches refusable (post met) result answer) :
    Agrees left right refusable first second contents post := by
  intro state place starts begins
  obtain ⟨same, ends⟩ := join _ _ _ _ (here state starts) (there place begins)
  exact ⟨_, same, rfl, ends⟩

/-- What the first program ends with holds of both. -/
theorem and_ends {more : α → Contents → Prop}
    (agrees : Agrees left right refusable first second contents post)
    (ends : left.Ends first contents fun result later => ∀ value, result = .ok value →
      more value later) :
    Agrees left right refusable first second contents
      fun later one other => post later one other ∧ more one later := by
  intro state place starts begins
  obtain ⟨later, reached, met, results⟩ := agrees state place starts begins
  have also := ends state starts
  refine ⟨later, reached, met, ?_⟩
  rw [reached] at also
  generalize (first.run left.serve state).result = result at results also ⊢
  generalize (second.run right.serve place).result = answer at results ⊢
  cases results with
  | value holds => exact .value ⟨holds, also _ rfl⟩
  | refusal allowed one other => exact .refusal allowed one other

/-- A program that always ends the same way may stand for another that ends so. -/
theorem instead {another : Store.Action left.Cursor α} {ended : Except Failure α → Contents → Prop}
    (agrees : Agrees left right refusable another second contents post)
    (here : left.Ends first contents ended) (there : left.Ends another contents ended)
    (single : ∀ result reached answer met, ended result reached → ended answer met →
      reached = met ∧ result = answer) :
    Agrees left right refusable first second contents post := by
  intro state place starts begins
  obtain ⟨later, reached, met, results⟩ := agrees state place starts begins
  obtain ⟨same, equal⟩ := single _ _ _ _ (here state starts) (there state starts)
  exact ⟨later, same.trans reached, met, equal ▸ results⟩

/-- What a program returns on a memory, one that agrees with it returns elsewhere. -/
theorem returns {first : Store.Action Memory.Cursor α} {second : Store.Action right.Cursor α}
    {post : α → Contents → Prop}
    (agrees : Agrees Memory.backend right refusable first second contents fun _ => Eq)
    (returned : first.Returns (Memory.may fun _ => False) ⟨contents, ∅⟩ fun value later =>
      post value later.contents) :
    right.Ends second contents fun result later =>
      ∃ value, result = .ok value ∧ post value later := by
  intro state holds
  obtain ⟨later, reached, met, results⟩ := agrees ⟨contents, ∅⟩ state rfl holds
  obtain ⟨value, done, held⟩ := Memory.run_of_ensures returned
  have same : (first.run Memory.serve ⟨contents, ∅⟩).state.contents =
      right.contents (second.run right.serve state).state := reached.trans met.symm
  rw [done] at results
  rw [same] at held
  generalize (second.run right.serve state).result = answer at results ⊢
  cases results with
  | value equal => exact ⟨value, equal ▸ rfl, held⟩

/-- Where neither is refused, nothing has to be caught. -/
theorem outcome (agrees : Agrees left right False first second contents post) :
    Agrees left right refusable first.outcome second.outcome contents fun later one other =>
      ∃ value answer, one = .ok value ∧ other = .ok answer ∧ post later value answer := by
  intro state place starts begins
  obtain ⟨later, reached, met, ends⟩ := agrees state place starts begins
  simp only [run_outcome]
  generalize (first.run left.serve state).result = result at ends ⊢
  generalize (second.run right.serve place).result = answer at ends ⊢
  cases ends with
  | value holds => exact ⟨later, reached, met, .value ⟨_, _, rfl, rfl, holds⟩⟩
  | refusal never _ _ => exact never.elim

theorem attempt (agrees : Agrees left right False first second contents post) :
    Agrees left right refusable first.attempt second.attempt contents fun later one other =>
      ∃ value answer, one = .ok value ∧ other = .ok answer ∧ post later value answer := by
  apply bind agrees.outcome
  rintro later _ _ ⟨value, answer, rfl, rfl, holds⟩
  exact done ⟨value, answer, rfl, rfl, holds⟩

/-- Whether one succeeds is whether the other does. -/
theorem succeeds {first : Store.Action left.Cursor Unit} {second : Store.Action right.Cursor Unit}
    {post : Contents → Unit → Unit → Prop} (agrees : Agrees left right True first second contents post)
    (notice other : Cause → Notice) :
    Agrees left right refusable (first.succeeds notice) (second.succeeds other) contents
      fun _ => Eq := by
  intro state place starts begins
  obtain ⟨later, reached, met, ends⟩ := agrees state place starts begins
  generalize done : (first.run left.serve state).result = result at ends
  generalize met_done : (second.run right.serve place).result = answer at ends
  cases ends with
  | value holds =>
    obtain ⟨answered, same⟩ := run_succeeds_ok notice done
    obtain ⟨told, also⟩ := run_succeeds_ok other met_done
    rw [answered, told, same, also]
    exact ⟨later, reached, met, .value rfl⟩
  | refusal _ one cause =>
    obtain ⟨answered, same⟩ := run_succeeds_refused notice done
    obtain ⟨told, also⟩ := run_succeeds_refused other met_done
    rw [answered, told, same, also]
    exact ⟨later, reached, met, .value rfl⟩

end Agrees

/-- From whatever contents, both programs end with the same contents and the same value. -/
def Mirrors (one other : Backend) (refusable : Prop) (first : Store.Action one.Cursor α)
    (second : Store.Action other.Cursor α) : Prop :=
  ∀ contents, Agrees one other refusable first second contents fun _ => Eq

namespace Mirrors
variable {refusable : Prop} {first : Store.Action left.Cursor α} {second : Store.Action right.Cursor α}

theorem done (value : α) : Mirrors left right refusable (.done value) (.done value) :=
  fun _ => .done rfl

theorem refuse (allowed : refusable) (cause : Cause) :
    Mirrors left right refusable (refuse cause : Store.Action left.Cursor α) (refuse cause) :=
  fun _ => .refuse allowed cause cause

theorem notify (notice : Notice) :
    Mirrors left right refusable (notify notice) (notify notice) :=
  fun _ => (Agrees.notify notice notice).mono fun _ _ _ _ => rfl

theorem ite {condition : Prop} [Decidable condition] {third : Store.Action left.Cursor α}
    {fourth : Store.Action right.Cursor α} (yes : Mirrors left right refusable first second)
    (no : Mirrors left right refusable third fourth) :
    Mirrors left right refusable (if condition then first else third)
      (if condition then second else fourth) :=
  fun contents => .ite (fun _ => yes contents) fun _ => no contents

theorem bind {next : α → Store.Action left.Cursor β} {follow : α → Store.Action right.Cursor β}
    (mirrors : Mirrors left right refusable first second)
    (rest : ∀ value, Mirrors left right refusable (next value) (follow value)) :
    Mirrors left right refusable (first.bind next) (second.bind follow) := by
  intro contents
  apply Agrees.bind (mirrors contents)
  rintro later value _ rfl
  exact rest value later

theorem forM {next : β → Store.Action left.Cursor Unit} {follow : β → Store.Action right.Cursor Unit}
    (each : ∀ item, Mirrors left right refusable (next item) (follow item)) (items : List β) :
    Mirrors left right refusable (items.forM next) (items.forM follow) := by
  induction items with
  | nil => exact done ()
  | cons item later ih => exact bind (each item) fun _ => ih

theorem succeeds {first : Store.Action left.Cursor Unit} {second : Store.Action right.Cursor Unit}
    (mirrors : Mirrors left right True first second) (notice : Cause → Notice) :
    Mirrors left right refusable (first.succeeds notice) (second.succeeds notice) :=
  fun contents => (mirrors contents).succeeds notice notice

/-- A request with one answer and one outcome. -/
theorem of_ends {value : α} {after : Contents → Contents}
    (here : ∀ contents, left.Ends first contents fun result later =>
      result = .ok value ∧ later = after contents)
    (there : ∀ contents, right.Ends second contents fun result later =>
      result = .ok value ∧ later = after contents) :
    Mirrors left right refusable first second := by
  intro contents
  apply Agrees.of_ends (here contents) (there contents)
  rintro result reached answer met ⟨rfl, rfl⟩ ⟨rfl, rfl⟩
  exact ⟨rfl, .value rfl⟩

section faithful
variable (faithful : left.Faithful) (also : right.Faithful)
include faithful also

theorem createEmpty (key : Key) :
    Mirrors left right refusable (Store.createEmpty key) (Store.createEmpty key) :=
  of_ends (fun contents => faithful.createEmpty contents key) fun contents => also.createEmpty contents key

theorem delete (key : Key) :
    Mirrors left right refusable (Store.delete key) (Store.delete key) :=
  of_ends (fun contents => faithful.delete contents key) fun contents => also.delete contents key

theorem openUpload (key : Key) :
    Mirrors left right refusable (Store.openUpload key) (Store.openUpload key) :=
  of_ends (fun contents => faithful.openUpload contents key) fun contents => also.openUpload contents key

theorem store (key : Key) (content : Content) :
    Mirrors left right refusable (Store.store key content) (Store.store key content) :=
  of_ends (fun contents => faithful.store contents key content)
    fun contents => also.store contents key content

theorem copy (source destination : Key) :
    Mirrors left right refusable (Store.copy source destination) (Store.copy source destination) := by
  intro contents
  apply Agrees.of_ends (faithful.copy contents source destination)
    (also.copy contents source destination)
  intro result reached answer met one other
  cases found : contents[source]? with
  | none =>
    rw [found] at one other
    refine ⟨one.2.trans other.2.symm, ?_⟩
    rw [one.1, other.1]
    exact .value rfl
  | some content =>
    rw [found] at one other
    refine ⟨one.2.trans other.2.symm, ?_⟩
    rw [one.1, other.1]
    exact .value rfl

end faithful
end Mirrors

section faithful
variable {refusable : Prop} {contents : Contents} (faithful : left.Faithful) (also : right.Faithful)
include faithful also

namespace Agrees
variable {post : Contents → α → β → Prop}

theorem status (key : Key) :
    Agrees left right refusable (Store.status key) (Store.status key) contents
      fun later one other => later = contents ∧ one.isSome = other.isSome := by
  apply Agrees.of_ends (faithful.status contents key) (also.status contents key)
  rintro result reached answer met ⟨rfl, one, rfl, here⟩ ⟨rfl, other, rfl, there⟩
  exact ⟨rfl, .value ⟨rfl, Bool.eq_iff_iff.mpr (here.trans there.symm)⟩⟩

/-- A look at an object that only tells whether it is there. -/
theorem look {key : Key} {next : Option Store.Status → Store.Action left.Cursor α}
    {follow : Option Store.Status → Store.Action right.Cursor β}
    (absent : Agrees left right refusable (next none) (follow none) contents post)
    (there : ∀ one other,
      Agrees left right refusable (next (some one)) (follow (some other)) contents post) :
    Agrees left right refusable ((Store.status key).bind next) ((Store.status key).bind follow)
      contents post := by
  apply bind (status faithful also key)
  rintro later one other ⟨rfl, same⟩
  cases one with
  | none =>
    cases other with
    | none => exact absent
    | some other => cases same
  | some one =>
    cases other with
    | none => cases same
    | some other => exact there one other

end Agrees

theorem Mirrors.look {key : Key} {next : Option Store.Status → Store.Action left.Cursor α}
    {follow : Option Store.Status → Store.Action right.Cursor α}
    (absent : Mirrors left right refusable (next none) (follow none))
    (there : ∀ one other, Mirrors left right refusable (next (some one)) (follow (some other))) :
    Mirrors left right refusable ((Store.status key).bind next) ((Store.status key).bind follow) :=
  fun contents => .look faithful also (absent contents) fun one other => there one other contents

end faithful
end Program
end KeyTree
