import KeyTree.Proofs.Upkeep

/-!
Sequences of operations. Each starts where the one before it ended, whether or not that one
failed. What every operation keeps up, a sequence of them keeps up.
-/
namespace KeyTree

open Program (Ensures Returns Keeps)

/-- The paths that an operation is given. -/
def Operation.paths : Operation → List Path
  | .isDirectory path | .isFile path | .parentExists path | .makeDirectories path _
  | .writeFile path _ | .deleteFile path | .deleteDirectory path _ | .children path _
  | .size path | .modificationTime path => [path]
  | .renameFile source destination | .renameDirectory source destination =>
    [source, destination]

def Operation.renames : Operation → Bool
  | .renameFile _ _ | .renameDirectory _ _ => true
  | _ => false

def Operation.writes : Operation → Bool
  | .writeFile _ _ => true
  | _ => false

namespace FileSystem
variable {fs : FileSystem} {inv : Contents → Prop}

/-- A sequence leads where its rest leads from the end of its first operation. -/
theorem run_performAll_cons {Cursor σ : Type} (handler : Handler (Store.interface Cursor) σ)
    (operation : Operation) (later : List Operation) (state : σ) :
    ((fs.performAll (operation :: later)).run handler state).state =
      ((fs.performAll later).run handler ((fs.perform operation).run handler state).state).state := by
  simp only [performAll, Bind.bind, Pure.pure, Program.run_bind, Program.run_outcome,
    Run.andThen_ok, Run.after_state]
  generalize (fs.performAll later).run handler _ = rest
  obtain ⟨result, notices, exchanges, state⟩ := rest
  cases result with
  | ok answers => rfl
  | error failure => rfl

/-- Where a sequence of operations leads. -/
def reached (fs : FileSystem) (operations : List Operation) (memory : Memory) : Memory :=
  ((fs.performAll operations).run Memory.serve memory).state

theorem reached_cons (operation : Operation) (later : List Operation) (memory : Memory) :
    fs.reached (operation :: later) memory =
      fs.reached later ((fs.perform operation).run Memory.serve memory).state :=
  run_performAll_cons Memory.serve operation later memory

theorem reached_append (first later : List Operation) (memory : Memory) :
    fs.reached (first ++ later) memory = fs.reached later (fs.reached first memory) := by
  induction first generalizing memory with
  | nil => rfl
  | cons operation others ih => rw [List.cons_append, reached_cons, reached_cons, ih]

theorem reached_concat (first : List Operation) (operation : Operation) (memory : Memory) :
    fs.reached (first ++ [operation]) memory =
      ((fs.perform operation).run Memory.serve (fs.reached first memory)).state := by
  rw [reached_append, reached_cons]
  rfl

/-- What every operation of a sequence keeps up holds where the sequence leads. -/
theorem reached_keeps {operations : List Operation} {memory : Memory}
    (keeps : ∀ operation ∈ operations, Keeps inv (fs.perform operation))
    (holds : inv memory.contents) : inv (fs.reached operations memory).contents := by
  induction operations generalizing memory with
  | nil => exact holds
  | cons operation later ih =>
    rw [reached_cons]
    apply ih fun other member => keeps other (List.mem_cons_of_mem _ member)
    exact Memory.run_of_ensures (keeps operation List.mem_cons_self memory holds)

variable (proper : fs.Proper)

theorem keeps_requireStatus (path : Path) : Keeps inv (fs.requireStatus path) := by
  apply Keeps.bind (.status _)
  intro status
  cases status with
  | some status => exact .done status
  | none => exact .bind (.notify _) fun _ => .fail _

include proper

theorem keeps_parentExists (markable : Markable fs.suffix inv) {path : Path}
    (place : fs.Place path) : Keeps inv (fs.parentExists path) := by
  cases place with
  | inl plain =>
    rcases plain.cut_last with single | ⟨parent, name, first, above, rfl⟩
    · rw [parentExists, parent?_name proper plain single]
      exact .done true
    · rw [parentExists, parent?_below proper plain first]
      exact keeps_isDirectory proper markable (.inl above)
  | inr root =>
    rw [parentExists, Root.parent?, if_pos root]
    exact .done true

/-- Every operation but writing a file and renaming keeps a stable invariant up. -/
theorem keeps_perform (stable : Stable fs.suffix inv) {operation : Operation}
    (unwritten : operation.writes = false)
    (unmoved : operation.renames = false) (placed : ∀ path ∈ operation.paths, fs.Place path) :
    Keeps inv (fs.perform operation) := by
  cases operation with
  | isDirectory path =>
    exact .bind (keeps_isDirectory proper stable.toMarkable (placed path (.head _))) fun _ => .done _
  | isFile path => exact .bind (keeps_isFile path) fun _ => .done _
  | parentExists path =>
    exact .bind (keeps_parentExists proper stable.toMarkable (placed path (.head _))) fun _ => .done _
  | makeDirectories path createParents =>
    exact .bind (keeps_makeDirectories proper stable.toMarkable (placed path (.head _)) createParents)
      fun _ => .done _
  | writeFile path contents => cases unwritten
  | deleteFile path => exact .bind (keeps_deleteFile stable path) fun _ => .done _
  | deleteDirectory path recursive =>
    exact .bind (keeps_deleteDirectory proper stable (placed path (.head _)) recursive)
      fun _ => .done _
  | renameFile source destination => cases unmoved
  | renameDirectory source destination => cases unmoved
  | children path recursive =>
    exact .bind (keeps_children proper stable.toMarkable (placed path (.head _)) recursive) fun _ => .done _
  | size path => exact .bind (.bind (keeps_requireStatus path) fun _ => .done _) fun _ => .done _
  | modificationTime path =>
    exact .bind (.bind (keeps_requireStatus path) fun _ => .done _) fun _ => .done _

end FileSystem
end KeyTree
