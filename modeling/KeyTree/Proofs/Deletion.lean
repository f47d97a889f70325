import KeyTree.Proofs.Removal

/-!
What a recursive deletion leaves that answers yes. Nothing of the directory is left but
the files whose name has a marker or a placeholder too: such a name is taken for a
directory, and only its marker and its placeholder are deleted. Where there is one, the
deleted directory is still there.
-/
namespace KeyTree

open KeyTree.Path (separator)

/-- Nothing of the directory is left. -/
def Contents.Cleared (suffix : Key) (path : Path) (contents : Contents) : Prop :=
  (∀ key ∈ contents, ¬ path ++ [separator] <+: key) ∧ path ++ suffix ∉ contents

namespace FileSystem
variable {fs : FileSystem} {path : Path} {memory : Memory}

theorem emptied_of_deleteDirectory (proper : fs.Proper) (plain : Path.Plain fs.suffix path)
    (tidy : memory.contents.Tidy fs.suffix)
    (deleted : ((fs.deleteDirectory path true).run Memory.serve memory).result = .ok true) :
    Emptied fs (fun _ => False) path memory (.ok ())
      ((fs.deleteDirectory path true).run Memory.serve memory).state :=
  Memory.run_of_succeeds (ensures_removeDirectory proper plain tidy.neat) deleted

/-- Of the keys below a deleted directory those stay that are files whose name has a
marker or a placeholder, and the directory is gone exactly if there was none. -/
theorem deleteDirectory_leaves (proper : fs.Proper) (plain : Path.Plain fs.suffix path)
    (tidy : memory.contents.Tidy fs.suffix)
    (deleted : ((fs.deleteDirectory path true).run Memory.serve memory).result = .ok true) :
    let final := ((fs.deleteDirectory path true).run Memory.serve memory).state
    (∀ key, path ++ [separator] <+: key → (key ∈ final.contents ↔
      key ∈ memory.contents ∧ Path.Plain fs.suffix key ∧
        memory.contents.Obscured fs.suffix key)) ∧
    (final.contents.Cleared fs.suffix path ∧
        ((fs.isDirectory path).run Memory.serve final).result = .ok false ↔
      ∀ key ∈ memory.contents, path ++ [separator] <+: key → Path.Plain fs.suffix key →
        ¬ memory.contents.Obscured fs.suffix key) := by
  intro final
  have emptied : Emptied fs (fun _ => False) path memory (.ok ()) final :=
    emptied_of_deleteDirectory proper plain tidy deleted
  have gone := emptied.gone rfl fun _ => False.elim
  have unmarked : path ++ fs.suffix ∉ final.contents :=
    gone _ (.inl rfl) fun spared => marker_ne proper.suffix_whole spared.1 path rfl
  have left : ∀ key, path ++ [separator] <+: key → (key ∈ final.contents ↔
      key ∈ memory.contents ∧ Path.Plain fs.suffix key ∧
        memory.contents.Obscured fs.suffix key) := by
    intro key below
    constructor
    · intro present
      have spared := Classical.byContradiction fun free => gone key (.inr below) free present
      have same := emptied.spares key spared.1 spared.2
      exact ⟨(Contents.mem_of_lookup_eq same).mp present, spared⟩
    · rintro ⟨present, file, obscured⟩
      exact (Contents.mem_of_lookup_eq (emptied.spares key file obscured)).mpr present
  refine ⟨left, ?_⟩
  obtain ⟨found, answered, exact_iff⟩ := run_isDirectory final proper plain
  constructor
  · rintro ⟨⟨bare, _⟩, _⟩ key present below file obscured
    exact bare key ((left key below).mpr ⟨present, file, obscured⟩) below
  · intro clear
    have bare : ∀ key ∈ final.contents, ¬ path ++ [separator] <+: key := by
      intro key present below
      obtain ⟨stored, file, obscured⟩ := (left key below).mp present
      exact clear key stored below file obscured
    refine ⟨⟨bare, unmarked⟩, ?_⟩
    cases found with
    | false => exact answered
    | true =>
      rcases exact_iff.mp rfl with marked | ⟨key, present, below⟩
      · exact absurd marked unmarked
      · exact absurd below (bare key present)

theorem deleteDirectory_leaves_sibling :
    let memory := Memory.holding [("a/x".toList, [120]), ("ab".toList, [121])]
    let final := ((usual.deleteDirectory "a".toList true).run Memory.serve memory).state
    memory.contents.Tidy usual.suffix ∧
    ((usual.deleteDirectory "a".toList true).run Memory.serve memory).result = .ok true ∧
      ∀ key, "a/".toList <+: key → (key ∈ final.contents ↔ key ∈ memory.contents ∧
        Path.Plain usual.suffix key ∧ memory.contents.Obscured usual.suffix key) := by
  intro memory final
  have tidy : memory.contents.Tidy usual.suffix := by decide +kernel
  have deleted : ((usual.deleteDirectory "a".toList true).run Memory.serve memory).result =
      .ok true := by decide +kernel
  have plain : Path.Plain usual.suffix "a".toList := by decide
  exact ⟨tidy, deleted, (deleteDirectory_leaves usual_proper plain tidy deleted).1⟩

/-- A file with a placeholder under the same name survives, and with it the directory. -/
theorem not_deleteDirectory_clears : ¬ ∀ (fs : FileSystem) (path : Path) (memory : Memory),
    fs.Proper → Path.Plain fs.suffix path → memory.contents.Tidy fs.suffix →
    ((fs.deleteDirectory path true).run Memory.serve memory).result = .ok true →
    let final := ((fs.deleteDirectory path true).run Memory.serve memory).state
    final.contents.Cleared fs.suffix path ∧
      ((fs.isDirectory path).run Memory.serve final).result = .ok false := by
  intro clears
  have cleared := clears usual "a".toList
    (.holding [("a/x".toList, [120]), ("a/x/".toList, [])]) usual_proper (by decide)
    (by decide +kernel) (by decide +kernel)
  have present : "a/x".toList ∈ ((usual.deleteDirectory "a".toList true).run Memory.serve
      (.holding [("a/x".toList, [120]), ("a/x/".toList, [])])).state.contents := by
    decide +kernel
  exact cleared.1.1 _ present (by decide)

end FileSystem
end KeyTree
