import KeyTree.Proofs.Tree
import KeyTree.S3.Faults
import KeyTree.Upload
import Mathlib.Data.List.Induction
import Mathlib.Data.List.TakeWhile

/-!
Streams beside each other. Streams are opened, written and closed in any order, and more than one of
them may be on the same key. A stream is told by what was done to it since it was opened: it puts all
that was written to it with its first close, and is closed from then on, whether or not the put
succeeds (`uploads_settle`). Nothing else reaches the store, so a key holds what the last put on it
that succeeded has brought. A stream whose name is used again while it is open is dropped, and what
becomes of a dropped stream is left out.
-/
namespace KeyTree

namespace Uploads
variable {Cursor : Type}

/-- Takes one step after the other, and keeps the replies. -/
def stepAll (uploads : Uploads) (steps : List (String × Step)) :
    Store.Action Cursor (List (Except Failure Reply) × Uploads) :=
  steps.foldlM (fun before next => do
    let (reply, uploads) ← before.2.step next.1 next.2
    pure (before.1 ++ [reply], uploads)) ([], uploads)

/-- The bytes that a step has for a stream. -/
def Step.written : Step → Content
  | write content => content
  | _ => []

/-- A stream: the key that it was opened on, and what was done to it since. -/
structure Life where
  key : Key
  taken : List Step := []

namespace Life

/-- The stream was closed at some time. -/
def closed (life : Life) : Bool := .close ∈ life.taken

/-- All that was written before the first close. -/
def body (life : Life) : Content :=
  (life.taken.takeWhile (· ≠ .close)).flatMap Step.written

def upload (life : Life) : Upload := ⟨life.key, life.body, life.closed⟩

/-- The stream of a name after one more step. -/
def after (life : Option Life) : Step → Option Life
  | .start key => some ⟨key, []⟩
  | step => life.map fun life => { life with taken := life.taken ++ [step] }

theorem after_of_ne {step : Step} (other : ∀ key, step ≠ .start key) (life : Option Life) :
    after life step = life.map fun life => { life with taken := life.taken ++ [step] } := by
  cases step with
  | start key => exact absurd rfl (other key)
  | _ => rfl

/-- What is done after the first close adds nothing to the body. -/
theorem body_of_close {before after : List Step} (first : .close ∉ before) (key : Key) :
    body ⟨key, before ++ .close :: after⟩ = before.flatMap Step.written := by
  have goesOn : ∀ step ∈ before, decide (step ≠ .close) = true := fun step member =>
    decide_eq_true fun same => first (same ▸ member)
  rw [body, List.takeWhile_append_of_pos goesOn, List.takeWhile_cons_of_neg (by simp),
    List.append_nil]

theorem body_of_open {taken : List Step} (isOpen : .close ∉ taken) (key : Key) :
    body ⟨key, taken⟩ = taken.flatMap Step.written := by
  have goesOn : ∀ step ∈ taken, decide (step ≠ .close) = true := fun step member =>
    decide_eq_true fun same => isOpen (same ▸ member)
  rw [body, List.takeWhile_eq_self_iff.mpr goesOn]

section after
variable {life : Life}

theorem upload_of_open (isOpen : life.closed = false) {step : Step} (other : step ≠ .close) :
    upload { life with taken := life.taken ++ [step] } =
      { life.upload with content := life.body ++ step.written } := by
  obtain ⟨key, taken⟩ := life
  have before : .close ∉ taken := of_decide_eq_false isOpen
  have still : .close ∉ taken ++ [step] := by
    rw [List.mem_append, List.mem_singleton]
    exact fun member => member.elim before (other ·.symm)
  simp only [upload, closed, before, still, body_of_open before, body_of_open still,
    List.flatMap_append, List.flatMap_singleton]

theorem upload_of_close (isOpen : life.closed = false) :
    upload { life with taken := life.taken ++ [.close] } = { life.upload with closed := true } := by
  obtain ⟨key, taken⟩ := life
  have before : .close ∉ taken := of_decide_eq_false isOpen
  simp only [upload, closed, body_of_open before, body_of_close before]
  simp

theorem upload_of_closed (isClosed : life.closed = true) (step : Step) :
    upload { life with taken := life.taken ++ [step] } = life.upload := by
  obtain ⟨key, taken⟩ := life
  obtain ⟨before, behind, rfl, first⟩ := List.eq_append_cons_of_mem (of_decide_eq_true isClosed)
  simp only [upload, closed, List.append_assoc, List.cons_append, body_of_close first]
  simp

end after
end Life

/-- The stream that has a name after these steps. -/
def lifeOf (name : String) (steps : List (String × Step)) : Option Life :=
  ((steps.filter (·.1 = name)).map Prod.snd).foldl Life.after none

theorem lifeOf_concat (name other : String) (step : Step) (steps : List (String × Step)) :
    lifeOf name (steps ++ [(other, step)]) =
      if other = name then Life.after (lifeOf name steps) step else lifeOf name steps := by
  rw [lifeOf, List.filter_append, List.map_append, List.foldl_append]
  by_cases same : other = name
  · rw [if_pos same, List.filter_cons_of_pos (by simpa using same)]
    rfl
  · rw [if_neg same, List.filter_cons_of_neg (by simpa using same)]
    rfl

/-- Once closed, a stream stays closed for as long as its name is given to no other. -/
theorem closed_of_close {name : String} {before between : List (String × Step)}
    (kept : ∀ key, (name, .start key) ∉ between) {life : Life}
    (told : lifeOf name (before ++ (name, .close) :: between) = some life) : life.closed = true := by
  induction between using List.reverseRecOn generalizing life with
  | nil =>
    rw [lifeOf_concat, if_pos rfl] at told
    obtain ⟨earlier, _, rfl⟩ := Option.map_eq_some_iff.mp told
    simp [Life.closed]
  | append_singleton between last ih =>
    obtain ⟨other, step⟩ := last
    have earlier : ∀ first, lifeOf name (before ++ (name, .close) :: between) = some first →
        first.closed = true :=
      fun _ => ih fun key member => kept key (List.mem_append_left _ member)
    rw [← List.cons_append, ← List.append_assoc, lifeOf_concat] at told
    split at told
    · rename_i here
      rw [Life.after_of_ne fun key same => kept key (by simp [here, same])] at told
      obtain ⟨first, known, rfl⟩ := Option.map_eq_some_iff.mp told
      have isClosed := of_decide_eq_true (earlier first known)
      exact decide_eq_true (List.mem_append_left _ isClosed)
    · exact earlier life told

theorem lookup_put (uploads : Uploads) (name other : String) (upload : Upload) :
    (uploads.put name upload).lookup other =
      if name = other then some upload else uploads.lookup other := by
  rw [put, List.lookup_cons]
  by_cases same : name = other
  · simp [same]
  · have kept : (uploads.filter fun entry => entry.1 ≠ name).lookup other = uploads.lookup other := by
      induction uploads with
      | nil => rfl
      | cons entry later ih =>
        obtain ⟨first, known⟩ := entry
        by_cases replaced : first = name
        · have skipped : other ≠ first := fun here => same (replaced.symm.trans here.symm)
          rw [List.filter_cons_of_neg (by simpa using replaced), ih, List.lookup_cons,
            beq_eq_false_iff_ne.mpr skipped]
        · rw [List.filter_cons_of_pos (by simpa using replaced), List.lookup_cons,
            List.lookup_cons, ih]
    rw [kept, if_neg same, beq_eq_false_iff_ne.mpr (Ne.symm same)]

/-- Each name has the stream that the steps tell of. -/
def Follows (uploads : Uploads) (steps : List (String × Step)) : Prop :=
  ∀ name, uploads.lookup name = (lifeOf name steps).map Life.upload

namespace Follows
variable {uploads : Uploads} {steps : List (String × Step)} {name : String} {step : Step}
  (follows : uploads.Follows steps)
include follows

theorem find_none (none : lifeOf name steps = none) :
    uploads.find name = .error (.defect (.unknownUpload name)) := by
  rw [find, follows, none]
  rfl

theorem find_some {life : Life} (told : lifeOf name steps = some life) :
    uploads.find name = .ok life.upload := by
  rw [find, follows, told]
  rfl

/-- The first close of a stream stores its body, and closes it whatever comes of that. -/
theorem step_close {life : Life} (told : lifeOf name steps = some life)
    (isOpen : life.closed = false) :
    (uploads.step name .close : Store.Action Cursor _) =
      (Store.store life.key life.body).outcome.bind fun answer =>
        .done (answer.map fun _ => .stored, uploads.put name { life.upload with closed := true }) := by
  simp only [step, follows.find_some told, Upload.close, Life.upload, isOpen]
  exact Program.bind_assoc _ _ _

theorem put {upload : Upload}
    (own : (Life.after (lifeOf name steps) step).map Life.upload = some upload) :
    (uploads.put name upload).Follows (steps ++ [(name, step)]) := by
  intro other
  rw [lookup_put, lifeOf_concat]
  split
  · rename_i here
    rw [← here, own]
  · exact follows other

/-- A step that leaves its stream as it is. -/
theorem stay (own : (Life.after (lifeOf name steps) step).map Life.upload =
    (lifeOf name steps).map Life.upload) : uploads.Follows (steps ++ [(name, step)]) := by
  intro other
  rw [lifeOf_concat]
  split
  · rename_i here
    rw [← here, own]
    exact follows name
  · exact follows other

end Follows
end Uploads

namespace S3
open Uploads (Step Reply Life lifeOf)

/-- The body of a put on the key that succeeded. -/
def bodyFor (key : Key) : Exchange client → Option Content
  | ⟨.put _ other content _, .ok (.ok _)⟩ => if other = key then some content else none
  | _ => none

namespace Bucket
variable {σ : Type} {client : Handler S3.client σ} {held : σ → Contents} (bucket : Bucket)

/-- A put of the client stores its body in this bucket, or it fails in some way and stores nothing. -/
def StoredBy (client : Handler S3.client σ) (held : σ → Contents) : Prop :=
  ∀ (key : Key) (content : Content) (state : σ),
    let answered := client (.put bucket.name key content none) state
    answered.1 = .ok (.ok ()) ∧ held answered.2 = (held state).insert key content ∨
      answered.1 ≠ .ok (.ok ()) ∧ held answered.2 = held state

/-- What a put leaves of a key. -/
theorem StoredBy.lookup {bucket : Bucket} (stores : bucket.StoredBy client held) (key : Key)
    (content : Content) (state : σ) (other : Key) :
    let answered := client (.put bucket.name key content none) state
    (held answered.2)[other]? =
      (bodyFor other ⟨.put bucket.name key content none, answered.1⟩).or (held state)[other]? := by
  have after := stores key content state
  dsimp only at after ⊢
  generalize client (.put bucket.name key content none) state = answered at after ⊢
  obtain ⟨failure | error | ⟨⟩, later⟩ := answered
  · obtain ⟨⟨⟩, _⟩ | ⟨_, after⟩ := after
    rw [after]
    rfl
  · obtain ⟨⟨⟩, _⟩ | ⟨_, after⟩ := after
    rw [after]
    rfl
  · obtain ⟨_, after⟩ | ⟨failed, _⟩ := after
    · rw [after, Contents.lookup_insert, bodyFor]
      split <;> rfl
    · exact absurd rfl failed

/-- A dictionary that fails now and then stores what it does not fail to put. -/
theorem storedBy_faulty (bucket : Bucket) (faults : Faults) :
    bucket.StoredBy (Dictionary.serveFaulty faults) Dictionary.Faulty.contents := by
  intro key content state
  simp only [Dictionary.serveFaulty]
  split
  · exact .inr ⟨nofun, rfl⟩
  · exact .inl ⟨rfl, rfl⟩

/-- Runs the steps with no stream open at first. -/
def runSteps (client : Handler S3.client σ) (state : σ) (steps : List (String × Step)) :
    Run S3.client σ (List (Except Failure Reply) × Uploads) :=
  ((Uploads.stepAll [] steps).servedBy bucket.serve).run client state

/-- The put that a step makes after those before it: the first close of a stream puts its body. -/
def putOf (before : List (String × Step)) : String × Step → Option Request
  | (name, .close) =>
    match lifeOf name before with
    | some life =>
      if life.closed then none else some (.put bucket.name life.key life.body none)
    | none => none
  | _ => none

/-- A stream puts once. -/
theorem putOf_again {bucket : Bucket} {name : String} {before between : List (String × Step)}
    (kept : ∀ key, (name, .start key) ∉ between) :
    bucket.putOf (before ++ (name, .close) :: between) (name, .close) = none := by
  rw [putOf]
  split
  · rename_i told
    rw [if_pos (Uploads.closed_of_close kept told)]
  · rfl

/-- The puts of all steps, one after the other. -/
def putsOf (before : List (String × Step)) : List (String × Step) → List Request
  | [] => []
  | next :: later => (bucket.putOf before next).toList ++ putsOf (before ++ [next]) later

theorem putsOf_concat (before steps : List (String × Step)) (last : String × Step) :
    bucket.putsOf before (steps ++ [last]) =
      bucket.putsOf before steps ++ (bucket.putOf (before ++ steps) last).toList := by
  induction steps generalizing before with
  | nil => simp [putsOf]
  | cons next later ih => simp [putsOf, ih]

/-- How the close of a stream ends whose put is answered so. -/
def uploaded (key : Key) : Except Failure (Except ClientError Unit) → Except Failure Unit
  | .ok (.ok _) => .ok ()
  | .ok (.error error) => .error (.refused (.uploadFailed key error.message))
  | .error failure => .error failure

theorem run_upload (key : Key) (content : Content) (state : σ) :
    let answered := client (.put bucket.name key content none) state
    (bucket.upload key content).run client state =
      ⟨uploaded key answered.1, [], [⟨.put bucket.name key content none, answered.1⟩],
        answered.2⟩ := by
  have puts : bucket.upload key content = (put bucket.name key content).bind _ := rfl
  rw [puts, Program.run_bind, put, Program.run_request]
  generalize client (.put bucket.name key content none) state = answered
  obtain ⟨failure | error | _, later⟩ := answered
  · rfl
  · rfl
  · rfl

theorem run_store (key : Key) (content : Content) (state : σ) :
    let answered := client (.put bucket.name key content none) state
    ((Store.store key content).servedBy bucket.serve).run client state =
      ⟨uploaded key answered.1, [], [⟨.put bucket.name key content none, answered.1⟩],
        answered.2⟩ :=
  (Program.run_servedBy_request client state _).trans (bucket.run_upload key content state)

/-- What the steps leave behind those before them: the streams that they tell of, their puts, and of
each key the body that was put last. -/
structure Settled (held : σ → Contents) (before steps : List (String × Step)) (initial : Contents)
    (uploads : Uploads) (exchanges : List (Exchange S3.client)) (later : σ) : Prop where
  follows : uploads.Follows (before ++ steps)
  puts : exchanges.map Exchange.query = bucket.putsOf before steps
  contents : ∀ key : Key, (held later)[key]? =
    (exchanges.filterMap (bodyFor key)).getLast?.or initial[key]?

variable {bucket} {uploads : Uploads} {before : List (String × Step)} {name : String} {step : Step}
  {state : σ}

/-- A step without a put. -/
theorem Settled.quiet (follows : uploads.Follows (before ++ [(name, step)]))
    (none : bucket.putOf before (name, step) = none) :
    bucket.Settled held before [(name, step)] (held state) uploads [] state where
  follows := follows
  puts := by rw [putsOf, none]; rfl
  contents _ := rfl

/-- The steps and one more. -/
theorem Settled.concat {steps : List (String × Step)} {initial : Contents} {next : Uploads}
    {exchanges also : List (Exchange S3.client)} {final : σ}
    (first : bucket.Settled held before steps initial uploads exchanges state)
    (last : bucket.Settled held (before ++ steps) [(name, step)] (held state) next also final) :
    bucket.Settled held before (steps ++ [(name, step)]) initial next (exchanges ++ also) final where
  follows := by
    rw [← List.append_assoc]
    exact last.follows
  puts := by
    rw [List.map_append, first.puts, last.puts, putsOf_concat, putsOf, putsOf, List.append_nil]
  contents key := by
    rw [last.contents, first.contents, List.filterMap_append, List.getLast?_append, Option.or_assoc]

section step
variable (follows : uploads.Follows before)
include follows

/-- A write to a stream that was closed is refused, and nothing comes of it. -/
theorem run_write_closed {life : Life} (told : lifeOf name before = some life)
    (isClosed : life.closed = true) (content : Content) (state : σ) :
    ((uploads.step name (.write content)).servedBy bucket.serve).run client state =
      ⟨.ok (.error (.defect .closedUpload), uploads), [], [], state⟩ := by
  simp only [Uploads.step, follows.find_some told, Upload.write, Life.upload, isClosed, if_true]
  rfl

/-- The first close of a stream is one put. The stream is closed then, also if the put fails. -/
theorem run_first_close {life : Life} (told : lifeOf name before = some life)
    (isOpen : life.closed = false) (state : σ) :
    let answered := client (.put bucket.name life.key life.body none) state
    ((uploads.step name .close).servedBy bucket.serve).run client state =
      ⟨.ok ((uploaded life.key answered.1).map fun _ => .stored,
          uploads.put name { life.upload with closed := true }), [],
        [⟨.put bucket.name life.key life.body none, answered.1⟩], answered.2⟩ := by
  rw [follows.step_close told isOpen, Program.servedBy_bind, Program.run_bind,
    Program.run_servedBy_outcome, run_store]
  rfl

theorem run_write (content : Content) (state : σ) : ∃ reply next,
    ((uploads.step name (.write content)).servedBy bucket.serve).run client state =
        ⟨.ok (reply, next), [], [], state⟩ ∧
      bucket.Settled held before [(name, .write content)] (held state) next [] state := by
  cases told : lifeOf name before with
  | none =>
    refine ⟨.error (.defect (.unknownUpload name)), uploads, ?_,
      .quiet (follows.stay (by rw [told]; rfl)) rfl⟩
    rw [Uploads.step, follows.find_none told]
    rfl
  | some life =>
    cases isClosed : life.closed with
    | true =>
      refine ⟨_, uploads, run_write_closed follows told isClosed content state,
        .quiet (follows.stay ?_) rfl⟩
      rw [told]
      exact congrArg some (Life.upload_of_closed isClosed _)
    | false =>
      refine ⟨.ok (.written content.length),
        uploads.put name { life.upload with content := life.body ++ content }, ?_,
        .quiet (follows.put ?_) rfl⟩
      · simp only [Uploads.step, follows.find_some told, Upload.write, Life.upload, isClosed,
          Bool.false_eq_true, if_false]
        rfl
      · rw [told]
        have other : Step.write content ≠ .close := nofun
        exact congrArg some (Life.upload_of_open isClosed other)

theorem run_close (stores : bucket.StoredBy client held) (state : σ) :
    ∃ reply next exchanges later,
      ((uploads.step name .close).servedBy bucket.serve).run client state =
        ⟨.ok (reply, next), [], exchanges, later⟩ ∧
      bucket.Settled held before [(name, .close)] (held state) next exchanges later := by
  cases told : lifeOf name before with
  | none =>
    refine ⟨.error (.defect (.unknownUpload name)), uploads, [], state, ?_,
      .quiet (follows.stay (by rw [told]; rfl)) ?_⟩
    · rw [Uploads.step, follows.find_none told]
      rfl
    · rw [putOf, told]
  | some life =>
    cases isClosed : life.closed with
    | true =>
      refine ⟨.ok .stored, uploads.put name life.upload, [], state, ?_,
        .quiet (follows.put ?_) ?_⟩
      · simp only [Uploads.step, follows.find_some told, Upload.close, Life.upload, isClosed,
          if_true]
        rfl
      · rw [told]
        exact congrArg some (Life.upload_of_closed isClosed _)
      · rw [putOf, told]
        simp only [isClosed, if_true]
    | false =>
      refine ⟨_, _, _, _, run_first_close follows told isClosed state, follows.put ?_, ?_,
        fun key => ?_⟩
      · rw [told]
        exact congrArg some (Life.upload_of_close isClosed)
      · rw [putsOf, putOf, told]
        simp only [isClosed]
        rfl
      · rw [stores.lookup, List.filterMap_cons]
        split
        · rename_i none_stored
          rw [none_stored]
          rfl
        · rename_i stored
          rw [stored]
          rfl

theorem run_askClosed (state : σ) : ∃ reply,
    ((uploads.step name .askClosed).servedBy bucket.serve).run client state =
        ⟨.ok (reply, uploads), [], [], state⟩ ∧
      bucket.Settled held before [(name, .askClosed)] (held state) uploads [] state := by
  cases told : lifeOf name before with
  | none =>
    refine ⟨.error (.defect (.unknownUpload name)), ?_,
      .quiet (follows.stay (by rw [told]; rfl)) rfl⟩
    rw [Uploads.step, follows.find_none told]
    rfl
  | some life =>
    refine ⟨.ok (.closed life.closed), ?_, .quiet (follows.stay ?_) rfl⟩
    · rw [Uploads.step, follows.find_some told]
      rfl
    · rw [told]
      cases isClosed : life.closed with
      | true => exact congrArg some (Life.upload_of_closed isClosed _)
      | false =>
        have other : Step.askClosed ≠ .close := nofun
        refine congrArg some ((Life.upload_of_open isClosed other).trans ?_)
        simp only [Step.written, List.append_nil]
        rfl

/-- A step answers, whatever its stream is. -/
theorem run_step (stores : bucket.StoredBy client held) (name : String) (step : Step) (state : σ) :
    ∃ reply next exchanges later,
      ((uploads.step name step).servedBy bucket.serve).run client state =
        ⟨.ok (reply, next), [], exchanges, later⟩ ∧
      bucket.Settled held before [(name, step)] (held state) next exchanges later := by
  cases step with
  | start key => exact ⟨.ok .started, _, [], state, rfl, .quiet (follows.put rfl) rfl⟩
  | write content =>
    obtain ⟨reply, next, ran, settled⟩ := run_write follows content state
    exact ⟨reply, next, [], state, ran, settled⟩
  | close => exact run_close follows stores state
  | askClosed =>
    obtain ⟨reply, ran, settled⟩ := run_askClosed follows state
    exact ⟨reply, uploads, [], state, ran, settled⟩

end step

/-- Steps are run one after the other. -/
theorem runSteps_concat (bucket : Bucket) (client : Handler S3.client σ) (state : σ)
    (steps : List (String × Step)) (name : String) (step : Step) :
    bucket.runSteps client state (steps ++ [(name, step)]) =
      (bucket.runSteps client state steps).andThen fun before later =>
        (((before.2.step name step).servedBy bucket.serve).run client later).andThen fun next last =>
          ⟨.ok (before.1 ++ [next.1], next.2), [], [], last⟩ := by
  simp only [runSteps, Uploads.stepAll, List.foldlM_append, List.foldlM_cons, List.foldlM_nil,
    bind_pure]
  simp only [Program.bind_eq_bind, Program.servedBy_bind, Program.run_bind]
  rfl

/-- A run of steps answers each of them. -/
theorem runSteps_settled (stores : bucket.StoredBy client held) (state : σ)
    (steps : List (String × Step)) :
    ∃ replies uploads exchanges later, bucket.runSteps client state steps =
        ⟨.ok (replies, uploads), [], exchanges, later⟩ ∧ replies.length = steps.length ∧
      bucket.Settled held [] steps (held state) uploads exchanges later := by
  -- Steps join at the end: what a step does is told by all the steps before it.
  induction steps using List.reverseRecOn with
  | nil =>
    refine ⟨[], [], [], state, rfl, rfl, ?_, rfl, fun _ => rfl⟩
    exact fun _ => rfl
  | append_singleton steps next ih =>
    obtain ⟨name, step⟩ := next
    obtain ⟨replies, uploads, exchanges, middle, ran, counted, settled⟩ := ih
    obtain ⟨reply, last, also, later, stepped, settles⟩ :=
      run_step settled.follows stores name step middle
    refine ⟨replies ++ [reply], last, exchanges ++ also, later, ?_, ?_, settled.concat settles⟩
    · rw [runSteps_concat, ran, Run.andThen_ok, stepped, Run.andThen_ok]
      simp only [Run.after, List.append_nil]
    · rw [List.length_append, List.length_append, counted]
      rfl

/-- Streams are opened, written and closed in any order, and their puts may fail. Every step answers.
Each name then has the stream that was opened on it last, with all that was written to it up to its
first close, and closed if there was one. The puts are the first closes, each with the body of its
stream, which puts no more than that once. A key holds the body of the last put on it that succeeded,
or what it held at first. A write to a stream that was closed is refused and changes nothing. -/
theorem uploads_settle (stores : bucket.StoredBy client held) (state : σ)
    (steps : List (String × Step)) :
    let ended := bucket.runSteps client state steps
    ∃ replies uploads, ended.result = .ok (replies, uploads) ∧ replies.length = steps.length ∧
      (∀ name, uploads.lookup name = (lifeOf name steps).map Life.upload) ∧
      ended.exchanges.map Exchange.query = bucket.putsOf [] steps ∧
      (∀ key : Key, (held ended.state)[key]? =
        (ended.exchanges.filterMap (bodyFor key)).getLast?.or (held state)[key]?) ∧
      (∀ name before between, (∀ key, (name, .start key) ∉ between) →
        bucket.putOf (before ++ (name, .close) :: between) (name, .close) = none) ∧
      ∀ name life content, lifeOf name steps = some life → life.closed = true →
        bucket.runSteps client state (steps ++ [(name, .write content)]) =
          ⟨.ok (replies ++ [.error (.defect .closedUpload)], uploads), ended.notices,
            ended.exchanges, ended.state⟩ := by
  intro ended
  obtain ⟨replies, uploads, exchanges, later, ran, counted, settled⟩ :=
    runSteps_settled stores state steps
  simp only [ended, ran]
  refine ⟨replies, uploads, rfl, counted, settled.follows, settled.puts, settled.contents,
    fun _ _ _ => putOf_again, ?_⟩
  intro name life content told isClosed
  rw [runSteps_concat, ran, Run.andThen_ok, run_write_closed settled.follows told isClosed,
    Run.andThen_ok]
  simp only [Run.after, List.append_nil]

/-- Two streams on one key. The first put fails, and the stream is closed for all that. -/
theorem uploads_settle_failing :
    let bucket : Bucket := ⟨"bucket".toList, "_$folder$".toList, by decide⟩
    let client := Dictionary.serveFaulty fun turn _ => if turn = 0 then some .noCredentials else none
    let state : Dictionary.Faulty := ⟨(Memory.holding [("k".toList, [9])]).contents, 0⟩
    let steps : List (String × Step) := [("a", .start "k".toList), ("b", .start "k".toList),
      ("b", .write [2]), ("a", .write [1]), ("b", .write [3]), ("a", .close), ("b", .close),
      ("a", .close)]
    let ended := bucket.runSteps client state steps
    let written := bucket.runSteps client state (steps ++ [("a", .write [4])])
    bucket.StoredBy client Dictionary.Faulty.contents ∧
    ended.exchanges.length = 2 ∧ ended.state.contents["k".toList]? = some [2, 3] ∧
    (∃ replies uploads, written.result =
      .ok (replies ++ [.error (.defect .closedUpload)], uploads)) ∧
    written.exchanges.length = 2 := by
  intro bucket client state steps ended written
  have stores : bucket.StoredBy client Dictionary.Faulty.contents := storedBy_faulty bucket _
  obtain ⟨replies, uploads, _, _, _, puts, _, _, refused⟩ := uploads_settle stores state steps
  have two : ended.exchanges.length = 2 := by
    rw [← List.length_map, puts]
    decide +kernel
  have same := refused "a" ⟨"k".toList, [.write [1], .close, .close]⟩ [4] rfl rfl
  refine ⟨stores, two, by decide +kernel, ⟨replies, uploads, ?_⟩, ?_⟩
  · exact congrArg Run.result same
  · exact (congrArg (fun run => run.exchanges.length) same).trans two

end Bucket
end S3
end KeyTree
