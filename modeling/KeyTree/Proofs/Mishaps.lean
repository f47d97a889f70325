import KeyTree.Proofs.Live
import KeyTree.S3.Faults

/-!
What a bucket may answer while calls of its client may fail. A change is made or answered no,
a look finds something or not, and a page of a listing is the one at its offset or refused as
a failure of the store. Every plan of failing calls stays within this behaviour
(`served_within`), so no error of the client reaches the file system in any other way.
-/
namespace KeyTree.S3

open Program (handlerOf)

/-- A refusal in the name of the store. -/
def StoreFails {α : Type} (answer : Except Failure α) : Prop :=
  ∃ cause : Cause, answer = .error (.refused cause) ∧ cause.kind = .storeFailure

namespace Bucket

/-- A page of a listing at an offset, or a failure of the store; both leave the contents. -/
def Fetched (stem : Key) (recursive : Bool) (size offset : Nat) (contents : Contents)
    (answer : Except Failure (Option (Store.Page Cursor))) (later : Contents) : Prop :=
  later = contents ∧
    (answer = .ok (some (pageAt (contents.entries stem !recursive) stem recursive size offset)) ∨
      StoreFails answer)

/-- The answers of a bucket from its contents, with the contents that they leave. -/
def may : Behaviour (Store.interface Cursor) Contents
  | .status _, contents, answer, later => later = contents ∧ ∃ status, answer = .ok status
  | .createEmpty key, contents, answer, later =>
    answer = .ok true ∧ later = contents.insert key [] ∨ answer = .ok false ∧ later = contents
  | .copy _ destination, contents, answer, later =>
    (∃ content, answer = .ok true ∧ later = contents.insert destination content) ∨
      answer = .ok false ∧ later = contents
  | .delete key, contents, answer, later =>
    answer = .ok true ∧ later = contents.erase key ∨ answer = .ok false ∧ later = contents
  | .list stem recursive pageSize, contents, answer, later =>
    ∀ size : Nat, pageSize = size → Fetched stem recursive size 0 contents answer later
  | .more cursor, contents, answer, later =>
    ∀ stem recursive, ∀ size offset : Nat,
      cursor = ⟨stem, recursive, size, Dictionary.tokenAt offset⟩ →
        Fetched stem recursive size offset contents answer later
  | .openUpload _, contents, answer, later => answer = .ok () ∧ later = contents
  | .store key content, contents, answer, later =>
    answer = .ok () ∧ later = contents.insert key content ∨ StoreFails answer ∧ later = contents

variable {bucket : Bucket} {faults : Faults} {faulty : Dictionary.Faulty} {α : Type}

/-- A program that makes one call ends as what follows the call, whether it fails or not. -/
theorem called {call : Request} {answer : call.Answer} {next : call.Answer → Action α}
    {after : Contents} (post : Except Failure α → Contents → Prop)
    (answered : Dictionary.serve call faulty.contents = (.ok answer, after))
    (failing : ∀ error, ∀ later : Dictionary.Faulty, later.contents = faulty.contents →
      post ((next (call.failed error)).run (Dictionary.serveFaulty faults) later).result
        ((next (call.failed error)).run (Dictionary.serveFaulty faults) later).state.contents)
    (serving : ∀ later : Dictionary.Faulty, later.contents = after →
      post ((next answer).run (Dictionary.serveFaulty faults) later).result
        ((next answer).run (Dictionary.serveFaulty faults) later).state.contents) :
    let ended := ((Program.request (I := client) call).bind next).run
      (Dictionary.serveFaulty faults) faulty
    post ended.result ended.state.contents := by
  intro ended
  have split : ended = (Run.andThen ((Program.request (I := client) call).run
      (Dictionary.serveFaulty faults) faulty) fun value later =>
        (next value).run (Dictionary.serveFaulty faults) later) := Program.run_bind ..
  rw [split, Program.run_request]
  cases failed : faults faulty.turn call with
  | some error =>
    simp only [Dictionary.serveFaulty, failed, Run.andThen_ok, Run.after_result, Run.after_state]
    exact failing error _ rfl
  | none =>
    simp only [Dictionary.serveFaulty, failed, answered, Run.andThen_ok, Run.after_result,
      Run.after_state]
    exact serving _ rfl

/-- A page is fetched as it is at its offset, or the store fails. -/
theorem fetched (stem : Key) (recursive : Bool) {size offset : Nat} {token : Option Token}
    (read : Dictionary.offset token = .ok (offset : Int)) :
    let ended := (bucket.fetch stem recursive size token).run (Dictionary.serveFaulty faults) faulty
    Fetched stem recursive size offset faulty.contents ended.result ended.state.contents := by
  have answered := @answerList_fetch stem recursive size offset faulty.contents bucket.name token
    read
  apply called (Fetched stem recursive size offset faulty.contents)
  · rw [Dictionary.serve, answered]
  · intro error later same
    exact ⟨same, .inr ⟨_, rfl, rfl⟩⟩
  · intro later same
    dsimp only
    rw [pageOf_listing]
    exact ⟨same, .inl rfl⟩

/-- A look finds something or nothing; a call that fails is read as nothing. -/
theorem looked (key : Key) :
    let ended := (bucket.serve (.status key)).run (Dictionary.serveFaulty faults) faulty
    may (.status key) faulty.contents ended.result ended.state.contents := by
  have failing : ∀ error : ClientError, ∀ later : Dictionary.Faulty,
      later.contents = faulty.contents →
      let ended := ((if error.saysAbsent then pure none else do
          Program.notify (.statusNotFetched key error.message)
          pure none : Action (Option Store.Status)).run (Dictionary.serveFaulty faults) later)
      may (.status key) faulty.contents ended.result ended.state.contents := by
    intro error later same
    split
    · exact ⟨same, none, rfl⟩
    · exact ⟨same, none, rfl⟩
  cases found : faulty.contents[key]? with
  | none =>
    have answered : Dictionary.serve (.head bucket.name key) faulty.contents =
        (.ok (.error (Dictionary.absent .head "404" "Not Found")), faulty.contents) := by
      rw [Dictionary.serve, found]
    exact called (may (.status key) faulty.contents) answered failing (failing _)
  | some content =>
    have answered : Dictionary.serve (.head bucket.name key) faulty.contents =
        (.ok (.ok ⟨some (.integer content.length), some Dictionary.writeTime⟩),
          faulty.contents) := by
      rw [Dictionary.serve, found]
    apply called (may (.status key) faulty.contents) answered failing
    intro later same
    dsimp only
    rw [statusOf_stored]
    exact ⟨same, _, rfl⟩

/-- A copy is made, or it is answered no, also if there is nothing to copy. -/
theorem copied (source destination : Key) :
    let ended := (bucket.serve (.copy source destination)).run (Dictionary.serveFaulty faults)
      faulty
    may (.copy source destination) faulty.contents ended.result ended.state.contents := by
  cases found : faulty.contents[source]? with
  | none =>
    have answered : Dictionary.serve (.copy bucket.name destination bucket.name source)
        faulty.contents =
          (.ok (.error (Dictionary.absent .copy "NoSuchKey" "NoSuchKey")), faulty.contents) := by
      rw [Dictionary.serve, found]
    exact called (may (.copy source destination) faulty.contents) answered
      (fun _ _ same => .inr ⟨rfl, same⟩) fun _ same => .inr ⟨rfl, same⟩
  | some content =>
    have answered : Dictionary.serve (.copy bucket.name destination bucket.name source)
        faulty.contents = (.ok (.ok ()), faulty.contents.insert destination content) := by
      rw [Dictionary.serve, found]
    exact called (may (.copy source destination) faulty.contents) answered
      (fun _ _ same => .inr ⟨rfl, same⟩) fun _ same => .inl ⟨content, rfl, same⟩

/-- However the calls of the client fail, the bucket stays within this behaviour. -/
theorem served_within (bucket : Bucket) (faults : Faults) :
    Handler.Within (handlerOf bucket.serve (Dictionary.serveFaulty faults))
      Dictionary.Faulty.contents may := by
  intro query faulty
  cases query with
  | status key => exact looked key
  | createEmpty key =>
    exact called (may (.createEmpty key) faulty.contents) rfl
      (fun _ _ same => .inr ⟨rfl, same⟩) fun _ same => .inl ⟨rfl, same⟩
  | copy source destination => exact copied source destination
  | delete key =>
    exact called (may (.delete key) faulty.contents) rfl
      (fun _ _ same => .inr ⟨rfl, same⟩) fun _ same => .inl ⟨rfl, same⟩
  | list stem recursive pageSize =>
    rintro size rfl
    exact fetched stem recursive rfl
  | more cursor =>
    rintro stem recursive size offset rfl
    exact fetched stem recursive (Dictionary.offset_tokenAt offset)
  | openUpload key => exact ⟨rfl, rfl⟩
  | store key content =>
    exact called (may (.store key content) faulty.contents) rfl
      (fun error _ same => .inr ⟨⟨_, rfl, rfl⟩, same⟩) fun _ same => .inl ⟨rfl, same⟩

/-- What holds however the bucket may answer holds of every run with failing calls. -/
theorem run_of_ensures {program : Store.Action Cursor α} {contents : Contents}
    {post : Except Failure α → Contents → Prop} (bucket : Bucket) (faults : Faults) (turn : Nat)
    (ensured : program.Ensures may contents post) :
    post (bucket.runFaulty faults program contents turn).result
      (bucket.runFaulty faults program contents turn).state.contents := by
  obtain ⟨result, state⟩ := Program.run_servedBy bucket.serve (Dictionary.serveFaulty faults)
    program ⟨contents, turn⟩
  rw [runFaulty, result, state]
  exact Program.Ensures.run (bucket.served_within faults) ensured

end Bucket
end KeyTree.S3
