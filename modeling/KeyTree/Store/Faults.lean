import KeyTree.Store.Memory

/-!
A store that fails now and then. A failed look-up finds nothing, a failed change is not
made, and a failed listing is refused in the words of the fault; none of them touches
what the store holds.
-/
namespace KeyTree

/-- The answer to a request that fails. -/
def Store.Request.failed {Cursor : Type} (message : String) :
    (query : Store.Request Cursor) → Except Failure query.Answer
  | .status _ => .ok none
  | .createEmpty _ | .copy _ _ | .delete _ => .ok false
  | .list _ _ _ | .more _ | .openUpload _ | .store _ _ =>
    .error (.refused (.stated .storeFailure message))

/-- Which requests fail, and in which words: by their turn in the run and by what they
ask. -/
abbrev Faults := Nat → Store.Request Memory.Cursor → Option String

/-- No look-up fails. -/
def Faults.Truthful (faults : Faults) : Prop := ∀ turn key, faults turn (.status key) = none

/-- A memory with the number of requests that it was asked. -/
structure Memory.Faulty where
  memory : Memory
  turn : Nat := 0

namespace Memory

def serveFaulty (faults : Faults) : Handler (Store.interface Cursor) Faulty :=
  fun query faulty =>
    match faults faulty.turn query with
    | some message => (query.failed message, { faulty with turn := faulty.turn + 1 })
    | none =>
      let served := serve query faulty.memory
      (served.1, ⟨served.2, faulty.turn + 1⟩)

end Memory
end KeyTree
