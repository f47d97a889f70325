import KeyTree.Proofs.Relocation

/-!
What renaming a directory leaves without faults. In a tree a rename is exactly a move. Where
a name is a file and a directory at once, the rename follows the directory: the file is
not moved with it, and is lost with what is left of the source.
-/
namespace KeyTree

open KeyTree.Path (separator)

/-- A file arrives under its new path unless its name is a directory too. -/
theorem Moved.file_iff {suffix : Key} {source destination rest : Path} {before after : Contents}
    {content : Content} (whole : separator ∉ suffix) (new : Path.Plain suffix destination)
    (moved : Moved suffix source destination before after) (named : Path.Plain suffix rest) :
    after[destination ++ separator :: rest]? = some content ↔
      before[source ++ separator :: rest]? = some content ∧
        ¬ before.HasDirectory suffix (source ++ separator :: rest) := by
  have plain : Path.Plain suffix (destination ++ separator :: rest) :=
    Path.Plain.append_iff.mpr ⟨new, named⟩
  rw [moved.lookup_iff]
  constructor
  · rintro (⟨outside, _⟩ | arrives)
    · exact absurd (.inr (.below stem_prefix_append)) outside
    · generalize shape : destination ++ separator :: rest = key at arrives
      cases arrives with
      | marker => exact absurd shape.symm (marker_ne whole plain destination)
      | file _ stored single =>
        rw [List.append_cancel_left_eq, List.cons.injEq] at shape
        rw [shape.2]
        exact ⟨stored, single⟩
      | directory _ _ => exact absurd shape.symm (marker_ne whole plain _)
  · rintro ⟨stored, single⟩
    exact .inr (.file named stored single)

/-- What a move leaves of a tree: nothing of the source, a marker for each of its directories
and each of its files at the destination, and everything else as it was. -/
theorem Moved.lookup_tree {suffix : Key} {source destination : Path} {before after : Contents}
    {key : Key} {content : Content} (old : Path.Plain suffix source)
    (moved : Moved suffix source destination before after) (tree : before.IsTree suffix)
    (movable : Movable suffix source destination before) :
    after[key]? = some content ↔
      (key ≠ source ++ suffix ∧ ¬ source ++ [separator] <+: key ∧ before[key]? = some content) ∨
      (key = destination ++ suffix ∧ content = []) ∨
      (∃ rest, Path.Plain suffix rest ∧ key = destination ++ separator :: rest ∧
        before[source ++ separator :: rest]? = some content) ∨
      (∃ rest, Path.Plain suffix rest ∧ key = destination ++ separator :: rest ++ suffix ∧
        before.HasDirectory suffix (source ++ separator :: rest) ∧ content = []) := by
  rw [moved.lookup_iff]
  refine or_congr ?_ ?_
  · constructor
    · rintro ⟨free, stored⟩
      exact ⟨fun same => free (.inl (.inl same)), fun below => free (.inl (.inr below)), stored⟩
    · rintro ⟨unmarked, apart, stored⟩
      refine ⟨?_, stored⟩
      rintro ((marker | below) | held)
      · exact unmarked marker
      · exact apart below
      · exact movable.free
          (Contents.hasDirectory_of_holds (Contents.mem_iff_lookup.mpr ⟨content, stored⟩) held)
  · constructor
    · intro arrives
      cases arrives with
      | marker => exact .inl ⟨rfl, rfl⟩
      | file named stored _ => exact .inr (.inl ⟨_, named, rfl, stored⟩)
      | directory named inner => exact .inr (.inr ⟨_, named, rfl, inner, rfl⟩)
    · rintro (⟨rfl, rfl⟩ | ⟨rest, named, rfl, stored⟩ | ⟨rest, named, rfl, inner, rfl⟩)
      · exact .marker
      · refine .file named stored ?_
        exact tree.apart _ (Path.Plain.append_iff.mpr ⟨old, named⟩)
          (Contents.mem_iff_lookup.mpr ⟨content, stored⟩)
      · exact .directory named inner

namespace FileSystem
variable {fs : FileSystem} {source destination : Path} {memory : Memory}

theorem moved_of_renameDirectory (proper : fs.Proper) (old : Path.Plain fs.suffix source)
    (new : Path.Plain fs.suffix destination) (tidy : memory.contents.Tidy fs.suffix)
    (hollow : memory.contents.Hollow fs.suffix)
    (renamed :
      ((fs.renameDirectory source destination).run Memory.serve memory).result = .ok true) :
    Movable fs.suffix source destination memory.contents ∧
      Moved fs.suffix source destination memory.contents
        ((fs.renameDirectory source destination).run Memory.serve memory).state.contents :=
  (Memory.run_of_succeeds
    (ensures_moveDirectory proper fs.limits.depth old new tidy.neat hollow) renamed).moved rfl

/-- A rename that answers yes has moved each file below the source exactly if its name is
no directory, has kept every file elsewhere, and has left nothing of the source. -/
theorem renameDirectory_moves_iff (proper : fs.Proper) (old : Path.Plain fs.suffix source)
    (new : Path.Plain fs.suffix destination) (tidy : memory.contents.Tidy fs.suffix)
    (hollow : memory.contents.Hollow fs.suffix)
    (renamed :
      ((fs.renameDirectory source destination).run Memory.serve memory).result = .ok true) :
    let final := ((fs.renameDirectory source destination).run Memory.serve memory).state.contents
    (∀ rest content, Path.Plain fs.suffix rest →
      memory.contents[source ++ separator :: rest]? = some content →
      (final[destination ++ separator :: rest]? = some content ↔
        ¬ memory.contents.HasDirectory fs.suffix (source ++ separator :: rest))) ∧
    (∀ key content, Path.Plain fs.suffix key → ¬ source ++ [separator] <+: key →
      memory.contents[key]? = some content → final[key]? = some content) ∧
    ∀ key, source.Holds fs.suffix key → key ∉ final := by
  intro final
  have whole := proper.suffix_whole
  obtain ⟨movable, moved⟩ := moved_of_renameDirectory proper old new tidy hollow renamed
  refine ⟨?_, ?_, fun key held present => ?_⟩
  · intro rest content named stored
    exact (moved.file_iff whole new named).trans (and_iff_right stored)
  · intro key content plain outside stored
    refine (moved.same ?_).trans stored
    rintro ((marker | below) | held)
    · exact marker_ne whole plain source marker.symm
    · exact outside below
    · exact movable.free
        (Contents.hasDirectory_of_holds (Contents.mem_iff_lookup.mpr ⟨content, stored⟩) held)
  · rcases moved.mem present with ⟨free, _⟩ | ⟨content, arrives⟩
    · exact free (.inl held)
    · exact movable.apart whole held arrives.holds

theorem renameDirectory_moves_file :
    let memory := Memory.holding [("a/x".toList, [120]), ("ab".toList, [121])]
    let ended := (usual.renameDirectory "a".toList "b".toList).run Memory.serve memory
    memory.contents.IsTree usual.suffix ∧ ended.result = .ok true ∧
      ended.state.contents["b/x".toList]? = some [120] ∧
      ended.state.contents["ab".toList]? = some [121] := by
  intro memory ended
  have tree : memory.contents.IsTree usual.suffix := by decide +kernel
  have renamed : ended.result = .ok true := by decide +kernel
  have moves := renameDirectory_moves_iff usual_proper (by decide) (by decide) tree.tidy
    tree.hollow renamed
  refine ⟨tree, renamed, ?_, ?_⟩
  · exact (moves.1 "x".toList [120] (by decide) (by decide +kernel)).mpr (by decide +kernel)
  · exact moves.2.1 "ab".toList [121] (by decide) (by decide) (by decide +kernel)

/-- A file whose name has something below it is lost. -/
theorem not_renameDirectory_keeps : ¬ ∀ (fs : FileSystem) (source destination : Path)
    (memory : Memory), fs.Proper → Path.Plain fs.suffix source →
    Path.Plain fs.suffix destination → memory.contents.Tidy fs.suffix →
    memory.contents.Hollow fs.suffix →
    ((fs.renameDirectory source destination).run Memory.serve memory).result = .ok true →
    ∀ rest content, Path.Plain fs.suffix rest →
      memory.contents[source ++ separator :: rest]? = some content →
      ((fs.renameDirectory source destination).run Memory.serve memory).state.contents[
        destination ++ separator :: rest]? = some content := by
  intro keeps
  have kept := keeps usual "a".toList "b".toList
    (.holding [("a/x".toList, [120]), ("a/x/y".toList, [121])]) usual_proper (by decide)
    (by decide) (by decide +kernel) (by decide +kernel) (by decide +kernel) "x".toList [120]
    (by decide) (by decide +kernel)
  have lost : ((usual.renameDirectory "a".toList "b".toList).run Memory.serve (.holding
      [("a/x".toList, [120]), ("a/x/y".toList, [121])])).state.contents[
        "b".toList ++ separator :: "x".toList]? = none := by
    decide +kernel
  rw [lost] at kept
  cases kept

/-- In a tree, renaming a directory to a free place moves it there, and does nothing
else. Any limits will do that reach over the keys: they only say how far a run is
followed. -/
theorem renameDirectory_moves_tree {pageSize : Nat} (proper : fs.Proper)
    (old : Path.Plain fs.suffix source) (new : Path.Plain fs.suffix destination)
    (tree : memory.contents.IsTree fs.suffix)
    (there : memory.contents.HasDirectory fs.suffix source)
    (absent : destination ∉ memory.contents)
    (free : ¬ memory.contents.HasDirectory fs.suffix destination)
    (outside : destination ≠ source ∧ ¬ source ++ [separator] <+: destination)
    (read : fs.settings.pageSize = .ok pageSize)
    (room : memory.contents.reach ≤ min fs.limits.pages fs.limits.depth) :
    let ended := (fs.renameDirectory source destination).run Memory.serve memory
    ended.result = .ok true ∧ ∀ key content, ended.state.contents[key]? = some content ↔
      (key ≠ source ++ fs.suffix ∧ ¬ source ++ [separator] <+: key ∧
        memory.contents[key]? = some content) ∨
      (key = destination ++ fs.suffix ∧ content = []) ∨
      (∃ rest, Path.Plain fs.suffix rest ∧ key = destination ++ separator :: rest ∧
        memory.contents[source ++ separator :: rest]? = some content) ∨
      (∃ rest, Path.Plain fs.suffix rest ∧ key = destination ++ separator :: rest ++ fs.suffix ∧
        memory.contents.HasDirectory fs.suffix (source ++ separator :: rest) ∧ content = []) := by
  intro ended
  have movable : Movable fs.suffix source destination memory.contents := by
    refine ⟨there, absent, free, fun inside => ?_⟩
    exact (stem_prefix_stem.mp inside).elim (fun same => outside.1 same.symm) outside.2
  have roomy : fs.Roomy fs.limits.depth source memory.contents :=
    .of_reach read (Nat.le_trans room (Nat.min_le_left _ _))
      (Nat.le_trans room (Nat.min_le_right _ _))
  have ends : ended.result = .ok true ∧
      Moved fs.suffix source destination memory.contents ended.state.contents := by
    rcases Memory.run_of_ensures ((ensures_moveDirectory proper fs.limits.depth old new
      tree.tidy.neat tree.hollow).succeeds (.directoryNotRenamed source destination)) with
      ⟨answered, relocated⟩ | ⟨_, cause, relocated⟩ | ⟨failure, _, relocated⟩
    · exact ⟨answered, (relocated.moved rfl).2⟩
    · exact absurd roomy (relocated.stopped _ rfl movable)
    · exact absurd roomy (relocated.stopped _ rfl movable)
  exact ⟨ends.1, fun key content => ends.2.lookup_tree old tree movable⟩

theorem renameDirectory_moves_nested :
    let memory := Memory.holding
      [("a/d/y".toList, [121]), ("a/e/".toList, []), ("a/x".toList, [120]), ("ab".toList, [122])]
    let ended := (usual.renameDirectory "a".toList "b".toList).run Memory.serve memory
    memory.contents.IsTree usual.suffix ∧ memory.contents.HasDirectory usual.suffix "a".toList ∧
      "b".toList ∉ memory.contents ∧ ¬ memory.contents.HasDirectory usual.suffix "b".toList ∧
      ended.result = .ok true ∧ ended.state.contents["b/d/y".toList]? = some [121] ∧
      ended.state.contents["b/e_$folder$".toList]? = some [] := by
  intro memory ended
  have tree : memory.contents.IsTree usual.suffix := by decide +kernel
  have there : memory.contents.HasDirectory usual.suffix "a".toList := by decide +kernel
  have absent : "b".toList ∉ memory.contents := by decide +kernel
  have free : ¬ memory.contents.HasDirectory usual.suffix "b".toList := by decide +kernel
  obtain ⟨renamed, exactly⟩ := renameDirectory_moves_tree usual_proper (by decide) (by decide)
    tree there absent free (by decide) (Settings.pageSize_integer rfl) (by decide +kernel)
  refine ⟨tree, there, absent, free, renamed, ?_, ?_⟩
  · exact (exactly _ _).mpr
      (.inr (.inr (.inl ⟨"d/y".toList, by decide, rfl, by decide +kernel⟩)))
  · exact (exactly _ _).mpr
      (.inr (.inr (.inr ⟨"e".toList, by decide, rfl, by decide +kernel, rfl⟩)))

end FileSystem
end KeyTree
