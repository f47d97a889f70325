import KeyTree.Proofs.Ensures
import KeyTree.Store.Faults

/-!
What a memory may answer when some of the requests may fail. A request is served, or it
is one of those that may fail, and then the memory stays as it is. The memory without
faults and every plan of faults stay within this behaviour.
-/
namespace KeyTree

/-- The requests that a plan ever fails. -/
def Faults.Hits (faults : Faults) (query : Store.Request Memory.Cursor) : Prop :=
  ∃ turn message, faults turn query = some message

namespace Memory

open Program (Ensures Returns)

def may (fallible : Store.Request Cursor → Prop) :
    Behaviour (Store.interface Cursor) Memory := fun query memory answer later =>
  (answer = (serve query memory).1 ∧ later = (serve query memory).2) ∨
    fallible query ∧ (∃ message, answer = query.failed message) ∧ later = memory

theorem serve_within (fallible : Store.Request Cursor → Prop) :
    Handler.Within serve id (may fallible) :=
  fun _ _ => .inl ⟨rfl, rfl⟩

theorem serveFaulty_within (faults : Faults) :
    Handler.Within (serveFaulty faults) Faulty.memory (may faults.Hits) := by
  intro query faulty
  simp only [serveFaulty]
  split
  · rename_i message hit
    exact .inr ⟨⟨_, message, hit⟩, ⟨message, rfl⟩, rfl⟩
  · exact .inl ⟨rfl, rfl⟩

/-- A memory without faults answers in the one way that is left if no request may fail. -/
theorem run_of_ensures {α : Type} {program : Store.Action Cursor α} {memory : Memory}
    {post : Except Failure α → Memory → Prop}
    (ensured : program.Ensures (may fun _ => False) memory post) :
    post (program.run serve memory).result (program.run serve memory).state :=
  Ensures.run (serve_within _) ensured

theorem run_of_ensures_faulty {α : Type} {program : Store.Action Cursor α} {memory : Memory}
    {post : Except Failure α → Memory → Prop} {faults : Faults} (turn : Nat)
    (ensured : program.Ensures (may faults.Hits) memory post) :
    post (program.run (serveFaulty faults) ⟨memory, turn⟩).result
      (program.run (serveFaulty faults) ⟨memory, turn⟩).state.memory :=
  Ensures.run (serveFaulty_within faults) ensured

theorem run_of_succeeds {program : Store.Action Cursor Unit} {memory : Memory}
    {post : Except Failure Unit → Memory → Prop} {notice : Cause → Notice}
    (ensured : program.Ensures (may fun _ => False) memory post)
    (answered : ((program.succeeds notice).run serve memory).result = .ok true) :
    post (.ok ()) ((program.succeeds notice).run serve memory).state := by
  rcases run_of_ensures (ensured.succeeds notice) with
    ⟨_, holds⟩ | ⟨refused, _⟩ | ⟨failure, failed, _⟩
  · exact holds
  · rw [refused] at answered
    cases answered
  · rw [failed] at answered
    cases answered

section requests
variable (fallible : Store.Request Cursor → Prop) (memory : Memory)

theorem returns_status (key : Key) :
    (Store.status key).Returns (may fallible) memory fun status later =>
      later = memory ∧
        (status = memory.status key ∨ fallible (.status key) ∧ status = none) := by
  rintro answer later (⟨rfl, rfl⟩ | ⟨hit, ⟨message, rfl⟩, rfl⟩)
  · exact ⟨_, rfl, rfl, .inl rfl⟩
  · exact ⟨_, rfl, rfl, .inr ⟨hit, rfl⟩⟩

theorem returns_createEmpty (key : Key) :
    (Store.createEmpty key).Returns (may fallible) memory fun made later =>
      made = true ∧ later = memory.insert key [] ∨
        made = false ∧ later = memory ∧ fallible (.createEmpty key) := by
  rintro answer later (⟨rfl, rfl⟩ | ⟨hit, ⟨message, rfl⟩, rfl⟩)
  · exact ⟨_, rfl, .inl ⟨rfl, rfl⟩⟩
  · exact ⟨_, rfl, .inr ⟨rfl, rfl, hit⟩⟩

theorem returns_delete (key : Key) :
    (Store.delete key).Returns (may fallible) memory fun made later =>
      made = true ∧ later = memory.erase key ∨
        made = false ∧ later = memory ∧ fallible (.delete key) := by
  rintro answer later (⟨rfl, rfl⟩ | ⟨hit, ⟨message, rfl⟩, rfl⟩)
  · exact ⟨_, rfl, .inl ⟨rfl, rfl⟩⟩
  · exact ⟨_, rfl, .inr ⟨rfl, rfl, hit⟩⟩

theorem returns_copy (source destination : Key) :
    (Store.copy source destination).Returns (may fallible) memory fun made later =>
      (∃ content, memory.contents[source]? = some content ∧ made = true ∧
        later = memory.insert destination content) ∨
      made = false ∧ later = memory ∧
        (memory.contents[source]? = none ∨ fallible (.copy source destination)) := by
  rintro answer later (⟨rfl, rfl⟩ | ⟨hit, ⟨message, rfl⟩, rfl⟩)
  · cases found : memory.contents[source]? with
    | none =>
      simp only [serve, found]
      exact ⟨_, rfl, .inr ⟨rfl, rfl, .inl trivial⟩⟩
    | some content =>
      simp only [serve, found]
      exact ⟨_, rfl, .inl ⟨content, rfl, rfl, rfl⟩⟩
  · exact ⟨_, rfl, .inr ⟨rfl, rfl, .inr hit⟩⟩

/-- A listing is a snapshot, or it is refused as a failure of the store. -/
theorem ensures_list (stem : Key) (recursive : Bool) (pageSize : Int) :
    (Store.list stem recursive pageSize).Ensures (may fallible) memory fun result later =>
      later = memory ∧
        (result = .ok (some (firstPage (memory.contents.entries stem !recursive) pageSize)) ∨
          fallible (.list stem recursive pageSize) ∧
            ∃ message, result = .error (.refused (.stated .storeFailure message))) := by
  rintro answer later (⟨rfl, rfl⟩ | ⟨hit, ⟨message, rfl⟩, rfl⟩)
  · exact ⟨rfl, .inl rfl⟩
  · exact ⟨rfl, .inr ⟨hit, message, rfl⟩⟩

theorem returns_attempt_list (stem : Key) (recursive : Bool) (pageSize : Int) :
    (Store.list stem recursive pageSize).attempt.Returns (may fallible) memory
      fun answer later => later = memory ∧
        (answer = .ok (some (firstPage (memory.contents.entries stem !recursive) pageSize)) ∨
          fallible (.list stem recursive pageSize) ∧
            ∃ message, answer = .error (.stated .storeFailure message)) := by
  refine Ensures.mono (ensures_list fallible memory stem recursive pageSize).attempt ?_
  rintro result later (⟨first, rfl, rfl, ⟨⟨⟩⟩ | ⟨_, _, ⟨⟩⟩⟩ | ⟨cause, rfl, rfl, ⟨⟨⟩⟩ |
    ⟨hit, message, ⟨⟩⟩⟩ | ⟨failure, unrefused, rfl, rfl, ⟨⟨⟩⟩ | ⟨_, _, ⟨⟩⟩⟩)
  · exact ⟨_, rfl, rfl, .inl rfl⟩
  · exact ⟨_, rfl, rfl, .inr ⟨hit, message, rfl⟩⟩
  · exact absurd rfl (unrefused _)

theorem ensures_more (cursor : Cursor) :
    (Store.more cursor).Ensures (may fallible) memory fun result later =>
      later = memory ∧
        (result = .ok (some (page cursor.entries cursor.pageSize)) ∨
          fallible (.more cursor) ∧
            ∃ message, result = .error (.refused (.stated .storeFailure message))) := by
  rintro answer later (⟨rfl, rfl⟩ | ⟨hit, ⟨message, rfl⟩, rfl⟩)
  · exact ⟨rfl, .inl rfl⟩
  · exact ⟨rfl, .inr ⟨hit, message, rfl⟩⟩

end requests
end Memory
end KeyTree
