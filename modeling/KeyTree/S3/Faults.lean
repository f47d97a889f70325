import KeyTree.S3.Bucket
import KeyTree.S3.Dictionary

/-!
A dictionary client that fails now and then. A call that fails is answered by an error, with
or without a code, and leaves the objects as they are.
-/
namespace KeyTree.S3

/-- The answer to a call that fails. -/
def Request.failed (error : ClientError) : (call : Request) → call.Answer
  | .head _ _ | .put _ _ _ _ | .copy _ _ _ _ | .delete _ _ | .list _ => .error error

/-- Which calls fail, and with which error: by their turn in the run and by what they ask. -/
abbrev Faults := Nat → Request → Option ClientError

namespace Dictionary

/-- The objects of a dictionary, with the number of calls that its client was asked. -/
structure Faulty where
  contents : Contents
  turn : Nat := 0

def serveFaulty (faults : Faults) : Handler client Faulty := fun call faulty =>
  match faults faulty.turn call with
  | some error => (.ok (call.failed error), { faulty with turn := faulty.turn + 1 })
  | none =>
    let served := serve call faulty.contents
    (served.1, ⟨served.2, faulty.turn + 1⟩)

end Dictionary

/-- Runs a program over a bucket with a client that fails now and then. -/
def Bucket.runFaulty {α : Type} (bucket : Bucket) (faults : Faults)
    (program : Store.Action Cursor α) (contents : Contents) (turn : Nat) :
    Run client Dictionary.Faulty α :=
  (program.servedBy bucket.serve).run (Dictionary.serveFaulty faults) ⟨contents, turn⟩

end KeyTree.S3
