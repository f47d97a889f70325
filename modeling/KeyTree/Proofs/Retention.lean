import KeyTree.Proofs.Carriage
import KeyTree.Proofs.Sequence

/-!
Operations take away only what they are given. A file goes where it is deleted or renamed, and
what a directory holds where the directory is; every other key stays, whatever else the
operation does and however it ends.
-/
namespace KeyTree

open KeyTree.Path (separator)
open Program (Ensures Keeps)

/-- Neat contents with the key in them. -/
structure Contents.Retains (suffix : Key) (key : Key) (contents : Contents) : Prop where
  neat : contents.Neat suffix
  present : key ∈ contents

namespace Contents.Retains
variable {suffix : Key} {key other : Key} {contents : Contents}

theorem insert (retains : Retains suffix key contents) {content : Content}
    (named : other ≠ [] → ∃ path, Path.Plain suffix path ∧
      (other = path ∨ other = path ++ suffix ∨ other = path ++ [separator])) :
    Retains suffix key (contents.insert other content) where
  neat := retains.neat.insert named
  present := Std.ExtTreeMap.mem_insert.mpr (.inr retains.present)

theorem erase (retains : Retains suffix key contents) (differs : other ≠ key) :
    Retains suffix key (contents.erase other) where
  neat := by
    apply retains.neat.loses
    intro lost
    rw [not_mem_iff_lookup, lookup_erase]
    by_cases same : other = lost
    · exact .inr (if_pos same)
    · exact .inl (if_neg same)
  present := by
    have same := (lookup_erase contents other key).trans (if_neg differs)
    exact (mem_of_lookup_eq same).mpr retains.present

end Contents.Retains

theorem Markable.retains (suffix key : Key) : Markable suffix (Contents.Retains suffix key) where
  neat retains := retains.neat
  marks retains marks := ⟨marks.neat retains.neat, marks.mem retains.present⟩

/-- A move takes away only what its source holds. -/
theorem Carries.retains {suffix : Key} {source : Path} {key : Key}
    (free : ¬ source.Holds suffix key) (destination : Path) :
    Carries suffix source destination (Contents.Retains suffix key) where
  toMarkable := .retains suffix key
  erases retains held := retains.erase fun same => free (same ▸ held)
  files retains plain _ := retains.insert fun _ => ⟨_, plain, .inl rfl⟩
  markers retains _ new _ _ := retains.insert fun _ => ⟨_, new, .inr (.inl rfl)⟩

/-- The keys that an operation is told to take away. -/
def Operation.Takes (suffix : Key) (key : Key) : Operation → Prop
  | .deleteFile path | .renameFile path _ => key = path
  | .deleteDirectory path _ | .renameDirectory path _ => path.Holds suffix key
  | _ => False

namespace FileSystem
variable {fs : FileSystem} {key : Key} {path source destination : Path} (proper : fs.Proper)
include proper

theorem retains_writeFile (plain : Path.Plain fs.suffix path) (contents : List Content) :
    Keeps (Contents.Retains fs.suffix key) (fs.writeFile path contents) := by
  intro memory retains
  apply Ensures.mono (ensures_writeFile proper plain contents)
  intro result later ⟨made, marks, ends⟩
  have kept := (Markable.retains fs.suffix key).marks retains marks
  cases ends with
  | inl refused => exact refused.2.2 ▸ kept
  | inr stored => exact stored.2.2 ▸ kept.insert fun _ => ⟨path, plain, .inl rfl⟩

theorem retains_deleteFile (plain : Path.Plain fs.suffix path) (free : key ≠ path) :
    Keeps (Contents.Retains fs.suffix key) (fs.deleteFile path) := by
  rw [deleteFile, proper.relative_plain plain]
  exact .delete fun _ retains => retains.erase (Ne.symm free)

theorem retains_moveFile (old : Path.Plain fs.suffix source)
    (new : Path.Plain fs.suffix destination) (free : key ≠ source) :
    Keeps (Contents.Retains fs.suffix key) (fs.moveFile source destination) := by
  apply keeps_moveTo proper (.retains _ _) (.inl new)
  · intro contents content retains
    rw [proper.relative_plain new]
    exact retains.insert fun _ => ⟨destination, new, .inl rfl⟩
  · intro contents retains
    rw [proper.relative_plain old]
    exact retains.erase (Ne.symm free)

theorem retains_removeDirectory (plain : Path.Plain fs.suffix path)
    (free : ¬ path.Holds fs.suffix key) (recursive : Bool) :
    Keeps (Contents.Retains fs.suffix key) (fs.removeDirectory path recursive) :=
  keeps_removeHeld proper (.retains _ _) plain (Carries.retains free path).erases recursive

/-- An operation takes away only what it is given. -/
theorem keeps_perform_retains {operation : Operation}
    (plain : ∀ path ∈ operation.paths, Path.Plain fs.suffix path)
    (free : ¬ operation.Takes fs.suffix key) :
    Keeps (Contents.Retains fs.suffix key) (fs.perform operation) := by
  have markable := Markable.retains fs.suffix key
  cases operation with
  | isDirectory path =>
    exact .bind (keeps_isDirectory proper markable (.inl (plain path (.head _)))) fun _ => .done _
  | isFile path => exact .bind (keeps_isFile path) fun _ => .done _
  | parentExists path =>
    exact .bind (keeps_parentExists proper markable (.inl (plain path (.head _)))) fun _ => .done _
  | makeDirectories path createParents =>
    exact .bind (keeps_makeDirectories proper markable (.inl (plain path (.head _))) createParents)
      fun _ => .done _
  | writeFile path contents =>
    exact .bind (retains_writeFile proper (plain path (.head _)) contents) fun _ => .done _
  | deleteFile path =>
    exact .bind (retains_deleteFile proper (plain path (.head _)) free) fun _ => .done _
  | deleteDirectory path recursive =>
    have removes := retains_removeDirectory proper (plain path (.head _)) free recursive
    exact .bind (.succeeds removes _) fun _ => .done _
  | renameFile source destination =>
    have moves := retains_moveFile proper (plain source (.head _))
      (plain destination (.tail _ (.head _))) free
    exact .bind (.succeeds moves _) fun _ => .done _
  | renameDirectory source destination =>
    have moves := keeps_moveDirectory proper (plain source (.head _))
      (plain destination (.tail _ (.head _))) fs.limits.depth (.retains free destination)
    exact .bind (.succeeds moves _) fun _ => .done _
  | children path recursive =>
    exact .bind (keeps_children proper markable (.inl (plain path (.head _))) recursive)
      fun _ => .done _
  | size path => exact .bind (.bind (keeps_requireStatus path) fun _ => .done _) fun _ => .done _
  | modificationTime path =>
    exact .bind (.bind (keeps_requireStatus path) fun _ => .done _) fun _ => .done _

end FileSystem
end KeyTree
