import KeyTree.Proofs.Concert

/-!
The page size makes no difference. Two file systems over one root that differ in nothing but
their settings and limits, and whose limits are wide enough, answer the same and leave the
same contents, operation by operation: listings tell the same entries and complete the same
markers, removals take away what the entries stand for in whatever order, and a rename
either moves everything or is refused before it has moved anything.
-/
namespace KeyTree.FileSystem

variable {fs : FileSystem}

/-- The operation answers the same, and leaves the same contents. -/
def Alike (fs : FileSystem) (one other : Tuning) (operation : Operation) (left right : Memory) :
    Prop :=
  let first := ((fs.tuned one).perform operation).run Memory.serve left
  let second := ((fs.tuned other).perform operation).run Memory.serve right
  (∃ answer told, first.result = .ok answer ∧ second.result = .ok told ∧ answer.Same told) ∧
    first.state.contents = second.state.contents

/-- What is not measured is answered for. -/
theorem Matched.alike {one other : Tuning} {operation : Operation} {left right : Memory}
    (unmeasured : operation.measures = false)
    (matched : fs.Matched Memory.backend one other operation left right) :
    fs.Alike one other operation left right := by
  obtain ⟨same, ends⟩ := matched
  refine ⟨?_, same⟩
  generalize (((fs.tuned one).perform operation).run Memory.serve left).result = result at ends ⊢
  generalize (((fs.tuned other).perform operation).run Memory.serve right).result = answer
    at ends ⊢
  cases ends with
  | value related => exact ⟨_, _, rfl, rfl, (related unmeasured).1⟩
  | refusal measured _ _ => cases unmeasured.symm.trans measured

/-- Whatever the page sizes are: from tidy contents with empty markers and placeholders, two
runs of the same operations on plain paths and on the root answer the same and leave the same
contents at every step. The limits only say how far a run is followed. -/
theorem performAll_alike (proper : fs.Proper) {memory : Memory} {operations : List Operation}
    (tidy : memory.contents.Tidy fs.suffix) (hollow : memory.contents.Hollow fs.suffix)
    (placed : ∀ operation ∈ operations, operation.measures = false ∧
      ∀ path ∈ operation.paths, fs.Place path) :
    ∃ room, ∀ one other : Tuning, one.Ample room → other.Ample room →
      ∀ before operation, before ++ [operation] <+: operations →
        fs.Alike one other operation ((fs.tuned one).reached before memory)
          ((fs.tuned other).reached before memory) := by
  obtain ⟨room, matched⟩ := exists_room_matched proper Memory.backend_faithful
    (complete_memory proper) ⟨tidy.neat, hollow⟩ operations fun operation member =>
      (placed operation member).2
  refine ⟨room, fun one other ample also before operation within => ?_⟩
  have member : operation ∈ operations := within.subset (by simp)
  exact (matched one other ample also memory memory rfl rfl before operation within).alike
    (placed operation member).1

/-- Pages of one entry and pages of a thousand. -/
theorem performAll_alike_single :
    let memory := Memory.holding
      [("a/d".toList, [120]), ("a/d/y".toList, [121]), ("a/e_$folder$".toList, [])]
    let operations : List Operation := [.children "mem://bucket".toList true,
      .children "a".toList false, .deleteDirectory "a/d".toList true,
      .renameDirectory "a".toList "b".toList]
    memory.contents.Tidy usual.suffix ∧ memory.contents.Hollow usual.suffix ∧
    (∀ operation ∈ operations, operation.measures = false ∧
      ∀ path ∈ operation.paths, usual.Place path) ∧
    ∃ limits : Limits, ∀ before operation, before ++ [operation] <+: operations →
      usual.Alike ⟨⟨.integer 1, 0⟩, limits⟩ ⟨{}, limits⟩ operation
        ((usual.tuned ⟨⟨.integer 1, 0⟩, limits⟩).reached before memory)
        ((usual.tuned ⟨{}, limits⟩).reached before memory) := by
  intro memory operations
  have tidy : memory.contents.Tidy usual.suffix := by decide +kernel
  have hollow : memory.contents.Hollow usual.suffix := by decide +kernel
  have placed : ∀ operation ∈ operations, operation.measures = false ∧
      ∀ path ∈ operation.paths, usual.Place path := by
    unfold Place
    decide +kernel
  obtain ⟨room, alike⟩ := performAll_alike usual_proper tidy hollow placed
  refine ⟨tidy, hollow, placed, ⟨room, room⟩, alike _ _ ?_ ?_⟩
  · exact ⟨⟨_, Settings.pageSize_integer rfl⟩, Nat.le_of_eq (Nat.min_self room).symm⟩
  · exact ⟨⟨_, Settings.pageSize_integer rfl⟩, Nat.le_of_eq (Nat.min_self room).symm⟩

end KeyTree.FileSystem
