import KeyTree.Proofs.Concert
import KeyTree.Proofs.Rewalk

/-!
A file system on a bucket refines one on a memory. The dictionary behind the bucket cuts each
page from the entries as they are, the memory from those that it found when the listing
started. Operation by operation both answer the same and hold the same objects, whatever the
page sizes are; no listing goes on for ever, and each tells what the keys tell, each name once.
-/
namespace KeyTree.S3.Bucket

open KeyTree.Path (separator)

variable {bucket : Bucket}

/-- What a sequence of operations leaves in the dictionary behind a bucket. -/
def left (bucket : Bucket) (tuning : Tuning) (operations : List Operation) (contents : Contents) :
    Contents :=
  ((((bucket.fileSystem.tuned tuning).performAll operations).servedBy bucket.serve).run
    Dictionary.serve contents).state

/-- The operation leaves the same objects in the memory and behind the bucket and, unless it
measures an object, is answered for by both alike. What lists children answers on both sides with
the entries that the keys tell, each name once, and leaves the markers of the directories that it
infers. -/
def Refines (bucket : Bucket) (one other : Tuning) (operation : Operation) (memory : Memory)
    (contents : Contents) : Prop :=
  let first := ((bucket.fileSystem.tuned one).perform operation).run Memory.serve memory
  let second := (((bucket.fileSystem.tuned other).perform operation).servedBy bucket.serve).run
    Dictionary.serve contents
  first.state.contents = second.state ∧
    Matches (operation.measures = true)
      (fun answer told => operation.measures = false → answer.Same told ∧
        bucket.fileSystem.Reports operation memory.contents answer first.state.contents ∧
        bucket.fileSystem.Reports operation contents told second.state)
      first.result second.result

theorem fileSystem_proper (given : bucket.suffix ≠ []) (whole : separator ∉ bucket.suffix) :
    bucket.fileSystem.Proper :=
  ⟨⟨['s', '3'], bucket.name, rfl⟩, given, whole⟩

/-- Serving the requests by calls of the client makes no difference. -/
theorem refines_of_matched {one other : Tuning} {operation : Operation} {memory : Memory}
    {contents : Contents}
    (matched : bucket.fileSystem.Matched bucket.live one other operation memory contents) :
    bucket.Refines one other operation memory contents := by
  obtain ⟨result, state⟩ := Program.run_servedBy bucket.serve Dictionary.serve
    ((bucket.fileSystem.tuned other).perform operation) contents
  obtain ⟨same, ends⟩ := matched
  refine ⟨same.trans state.symm, ?_⟩
  rw [result, state]
  exact ends

/-- Whatever the page sizes are: from tidy contents with empty markers and placeholders, the
same operations on plain paths and on the root answer the same on a memory and on a bucket,
and leave the same objects at every step. Every listing ends, with each child once. The limits
only say how far a run is followed. -/
theorem performAll_refines (given : bucket.suffix ≠ []) (whole : separator ∉ bucket.suffix)
    {memory : Memory} {operations : List Operation} (tidy : memory.contents.Tidy bucket.suffix)
    (hollow : memory.contents.Hollow bucket.suffix)
    (placed : ∀ operation ∈ operations, ∀ path ∈ operation.paths, bucket.fileSystem.Place path) :
    ∃ room, ∀ one other : Tuning, one.Ample room → other.Ample room →
      ∀ before operation, before ++ [operation] <+: operations →
        bucket.Refines one other operation
          ((bucket.fileSystem.tuned one).reached before memory)
          (bucket.left other before memory.contents) := by
  have proper := fileSystem_proper given whole
  obtain ⟨room, matched⟩ := FileSystem.exists_room_matched proper bucket.live_faithful
    (FileSystem.complete_live bucket proper) ⟨tidy.neat, hollow⟩ operations placed
  refine ⟨room, fun one other ample also before operation within => refines_of_matched ?_⟩
  obtain ⟨_, reached⟩ := Program.run_servedBy bucket.serve Dictionary.serve
    ((bucket.fileSystem.tuned other).performAll before) memory.contents
  rw [left, reached]
  exact matched one other ample also memory memory.contents rfl rfl before operation within

/-- A bucket with pages of one entry beside a memory with pages of a thousand. The listings of
the root and of a find groups without markers, so that the markers which they put in shift the
entries that are still to come. -/
theorem performAll_refines_shifted :
    let bucket : Bucket := ⟨"bucket".toList, "_$folder$".toList, by decide⟩
    let memory := Memory.holding
      [("a/d/x".toList, [120]), ("a/e/y".toList, [121]), ("a/f".toList, []), ("b/".toList, [])]
    let operations : List Operation := [.children "s3://bucket".toList false,
      .children "a".toList false, .size "a/f".toList, .renameDirectory "a".toList "b/c".toList,
      .deleteDirectory "b".toList true]
    bucket.suffix ≠ [] ∧ separator ∉ bucket.suffix ∧ memory.contents.Tidy bucket.suffix ∧
    memory.contents.Hollow bucket.suffix ∧
    (∀ operation ∈ operations, ∀ path ∈ operation.paths, bucket.fileSystem.Place path) ∧
    ∃ limits : Limits, ∀ before operation, before ++ [operation] <+: operations →
      bucket.Refines ⟨{}, limits⟩ ⟨⟨.integer 1, 0⟩, limits⟩ operation
        ((bucket.fileSystem.tuned ⟨{}, limits⟩).reached before memory)
        (bucket.left ⟨⟨.integer 1, 0⟩, limits⟩ before memory.contents) := by
  intro bucket memory operations
  have given : bucket.suffix ≠ [] := by decide
  have whole : separator ∉ bucket.suffix := by decide
  have tidy : memory.contents.Tidy bucket.suffix := by decide +kernel
  have hollow : memory.contents.Hollow bucket.suffix := by decide +kernel
  have placed : ∀ operation ∈ operations, ∀ path ∈ operation.paths,
      bucket.fileSystem.Place path := by
    unfold FileSystem.Place
    decide +kernel
  obtain ⟨room, refines⟩ := performAll_refines given whole tidy hollow placed
  refine ⟨given, whole, tidy, hollow, placed, ⟨room, room⟩, refines _ _ ?_ ?_⟩
  · exact Tuning.wide_ample room
  · exact ⟨⟨_, Settings.pageSize_integer rfl⟩, Nat.le_of_eq (Nat.min_self room).symm⟩

end KeyTree.S3.Bucket
