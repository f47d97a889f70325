import KeyTree.Proofs.Answers
import KeyTree.Proofs.Listing

/-!
Backends. A backend serves the requests of a store from contents that it holds, and may keep
what it likes beside them. It is faithful if single objects are answered for as the contents
say, and if a listing of one entry tells whether there is any. How a longer listing is cut
into pages, and what it shows of changes in between, is left open here.
-/
namespace KeyTree

open Program (Ensures Returns)

structure Backend where
  Cursor : Type
  State : Type
  serve : Handler (Store.interface Cursor) State
  contents : State → Contents

namespace Backend
variable {backend : Backend} {α : Type}

/-- How a program ends wherever the backend holds these contents. -/
def Ends (backend : Backend) (program : Store.Action backend.Cursor α) (contents : Contents)
    (post : Except Failure α → Contents → Prop) : Prop :=
  ∀ state, backend.contents state = contents →
    post (program.run backend.serve state).result
      (backend.contents (program.run backend.serve state).state)

theorem Ends.mono {program : Store.Action backend.Cursor α} {contents : Contents}
    {post wider : Except Failure α → Contents → Prop} (ends : backend.Ends program contents post)
    (widens : ∀ result later, post result later → wider result later) :
    backend.Ends program contents wider :=
  fun state holds => widens _ _ (ends state holds)

theorem Ends.done {value : α} {contents : Contents} {post : Except Failure α → Contents → Prop}
    (holds : post (.ok value) contents) : backend.Ends (.done value) contents post := by
  rintro state rfl
  exact holds

/-- A sequence ends as its second part does from every end of the first, if the first does not
fail. -/
theorem Ends.bind {β : Type} {program : Store.Action backend.Cursor α} {contents : Contents}
    {next : α → Store.Action backend.Cursor β} {post : α → Contents → Prop}
    {final : Except Failure β → Contents → Prop}
    (first : backend.Ends program contents fun result later =>
      ∃ value, result = .ok value ∧ post value later)
    (second : ∀ value later, post value later → backend.Ends (next value) later final) :
    backend.Ends (program.bind next) contents final := by
  intro state holds
  obtain ⟨value, ended, reached⟩ := first state holds
  rw [Program.run_bind]
  generalize program.run backend.serve state = run at ended reached
  obtain ⟨result, notices, exchanges, left⟩ := run
  cases ended
  exact second value _ reached left rfl

/-- A sequence whose first part can end in one way only. -/
theorem Ends.bind_ok {β : Type} {program : Store.Action backend.Cursor β} {value : β}
    {contents reached : Contents} {next : β → Store.Action backend.Cursor α}
    {post : Except Failure α → Contents → Prop}
    (first : backend.Ends program contents fun result later =>
      result = .ok value ∧ later = reached)
    (second : backend.Ends (next value) reached post) :
    backend.Ends (program.bind next) contents post := by
  have only : backend.Ends program contents fun result later =>
      ∃ answer, result = .ok answer ∧ answer = value ∧ later = reached :=
    first.mono fun _ _ both => ⟨value, both.1, rfl, both.2⟩
  refine Ends.bind only ?_
  rintro _ _ ⟨rfl, rfl⟩
  exact second

theorem Ends.bind_done {β : Type} {value : β} {contents : Contents}
    {next : β → Store.Action backend.Cursor α} {post : Except Failure α → Contents → Prop}
    (rest : backend.Ends (next value) contents post) :
    backend.Ends ((Program.done value).bind next) contents post :=
  rest

/-- The backend answers for single objects as its contents say. -/
structure Faithful (backend : Backend) : Prop where
  status : ∀ contents key, backend.Ends (Store.status key) contents fun result later =>
    later = contents ∧ ∃ status, result = .ok status ∧ (status.isSome = true ↔ key ∈ contents)
  createEmpty : ∀ contents key, backend.Ends (Store.createEmpty key) contents
    fun result later => result = .ok true ∧ later = contents.insert key []
  copy : ∀ contents source destination, backend.Ends (Store.copy source destination) contents
    fun result later => match contents[source]? with
      | some content => result = .ok true ∧ later = contents.insert destination content
      | none => result = .ok false ∧ later = contents
  delete : ∀ contents key, backend.Ends (Store.delete key) contents
    fun result later => result = .ok true ∧ later = contents.erase key
  openUpload : ∀ contents key, backend.Ends (Store.openUpload key) contents
    fun result later => result = .ok () ∧ later = contents
  store : ∀ contents key content, backend.Ends (Store.store key content) contents
    fun result later => result = .ok () ∧ later = contents.insert key content
  peek : ∀ contents stem, backend.Ends (Store.list stem true 1) contents fun result later =>
    later = contents ∧ ∃ page, result = .ok (some page) ∧
      (page.objects = [] ↔ ∀ key ∈ contents, ¬ stem <+: key)

end Backend

namespace Memory

/-- A memory without faults. -/
abbrev backend : Backend where
  Cursor := Cursor
  State := Memory
  serve := serve
  contents := contents

theorem ends_of_ensures {α : Type} {program : Store.Action Cursor α} {contents : Contents}
    {post : Except Failure α → Contents → Prop}
    (ensured : ∀ memory : Memory, memory.contents = contents →
      program.Ensures (may fun _ => False) memory fun result later => post result later.contents) :
    backend.Ends program contents post :=
  fun memory holds => run_of_ensures (ensured memory holds)

theorem backend_faithful : backend.Faithful where
  status contents key := by
    rintro memory rfl
    refine ⟨rfl, _, rfl, ?_⟩
    rw [status, Option.isSome_map, Std.ExtTreeMap.isSome_getElem?_iff_mem]
  createEmpty contents key := by
    rintro memory rfl
    exact ⟨rfl, rfl⟩
  copy contents source destination := by
    rintro memory rfl
    cases found : memory.contents[source]? with
    | none =>
      rw [run_copy_absent _ destination found]
      exact ⟨rfl, rfl⟩
    | some content =>
      rw [run_copy_present _ destination found]
      exact ⟨rfl, rfl⟩
  delete contents key := by
    rintro memory rfl
    exact ⟨rfl, rfl⟩
  openUpload contents key := by
    rintro memory rfl
    exact ⟨rfl, rfl⟩
  store contents key content := by
    rintro memory rfl
    exact ⟨rfl, rfl⟩
  peek contents stem := by
    rintro memory rfl
    exact ⟨rfl, _, rfl, Contents.objects_firstPage_eq_nil⟩

end Memory
end KeyTree
