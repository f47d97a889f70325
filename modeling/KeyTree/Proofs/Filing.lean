import KeyTree.Proofs.Anywhere
import KeyTree.Proofs.Trailing

/-!
Renaming a file. A rename that answers yes has put the object of the source under the key of the
destination, which was free, and one that answers no has changed no file. But it never asks
whether its source is a directory, nor whether the new key makes a directory of either path: of a
destination with a separator behind it, or of a source that the destination is below.
-/
namespace KeyTree

open KeyTree.Path (separator)
open Program (Ensures Returns)

namespace FileSystem
variable {fs : FileSystem} {memory : Memory} {source destination path begun place : Path}

/-- Nothing is at the path, neither a file nor a directory. -/
def FreeAt (fs : FileSystem) (contents : Contents) (path : Path) : Prop :=
  ¬ fs.FileAt contents path ∧ ¬ fs.DirectoryAt contents path

/-- At most the marker of the path is new, of a directory with keys below it. -/
def MarkedAt (fs : FileSystem) (path : Path) (before after : Contents) : Prop :=
  ∀ key : Key, after[key]? = before[key]? ∨ after[key]? = some [] ∧ key = fs.markerKey path ∧
    ∃ inner ∈ before, fs.root.stem path <+: inner

theorem MarkedAt.refl (fs : FileSystem) (path : Path) (contents : Contents) :
    fs.MarkedAt path contents contents :=
  fun _ => .inl rfl

theorem ensures_requireAbsent_at (path : Path) :
    (fs.requireAbsent path).Ensures (Memory.may fun _ => False) memory fun result later =>
      (result = .ok () ∧ fs.FreeAt memory.contents path ∧ later = memory) ∨
      (∃ cause, result = .error (.refused cause)) ∧ ¬ fs.FreeAt memory.contents path ∧
        fs.MarkedAt path memory.contents later.contents := by
  refine Returns.bind (returns_isFile_at onlyDeletes_false path) ?_
  rintro file later ⟨present, rfl⟩
  cases file with
  | true =>
    exact .inr ⟨⟨_, rfl⟩, fun free => free.1 (present.mp rfl), .refl _ _ _⟩
  | false =>
    refine Returns.bind (returns_isDirectory_at onlyDeletes_false path) ?_
    intro found probed sought
    cases found with
    | true =>
      refine .inr ⟨⟨_, rfl⟩, fun free => free.2 (sought.there.mp rfl), fun key => ?_⟩
      exact (sought.bound key).imp_right fun fresh => ⟨fresh.1, fresh.2.2⟩
    | false =>
      exact .inl ⟨rfl, ⟨by simp [← present], by simp [← sought.there]⟩, sought.missed rfl⟩

/-- The object of one key is moved to another. -/
def ObjectMoved (old new : Key) (before after : Contents) : Prop :=
  ∃ content, before[old]? = some content ∧ after = (before.insert new content).erase old

/-- A file is moved exactly if it is there and its destination is free. -/
theorem ensures_moveFile_at (source destination : Path) :
    (fs.moveFile source destination).Ensures (Memory.may fun _ => False) memory
      fun result later =>
        (result = .ok () ∧ fs.FileAt memory.contents source ∧ fs.FreeAt memory.contents destination ∧
          ObjectMoved (fs.root.relative source) (fs.root.relative destination) memory.contents
            later.contents) ∨
        (∃ cause, result = .error (.refused cause)) ∧
          ¬ (fs.FileAt memory.contents source ∧ fs.FreeAt memory.contents destination) ∧
          fs.MarkedAt destination memory.contents later.contents := by
  refine Returns.bind (returns_isFile_at onlyDeletes_false source) ?_
  rintro file later ⟨present, rfl⟩
  cases file with
  | false =>
    exact .inr ⟨⟨_, rfl⟩, fun both => Bool.false_ne_true (present.mpr both.1), .refl _ _ _⟩
  | true =>
    have there := present.mp rfl
    refine Ensures.bind (ensures_requireAbsent_at destination) ?_ ?_
    · rintro _ reached (⟨_, free, rfl⟩ | ⟨⟨_, ⟨⟩⟩, _⟩)
      refine Ensures.mono (ensures_moveObject _ _) ?_
      intro result final carried
      cases result with
      | error failure => exact (carried.stopped failure rfl there).elim fun _ => False.elim
      | ok _ =>
        obtain ⟨content, stored, rfl⟩ := carried.done rfl
        exact .inl ⟨rfl, there, free, content, stored, rfl⟩
    · rintro failure reached (⟨⟨⟩, _⟩ | ⟨refused, taken, marked⟩)
      exact .inr ⟨refused, fun both => taken both.2, marked⟩

/-- So a rename of a file is always answered, and answers whether the file was moved. -/
theorem returns_renameFile (source destination : Path) :
    (fs.renameFile source destination).Returns (Memory.may fun _ => False) memory
      fun answer later =>
        (answer = true ∧ fs.FileAt memory.contents source ∧ fs.FreeAt memory.contents destination ∧
          ObjectMoved (fs.root.relative source) (fs.root.relative destination) memory.contents
            later.contents) ∨
        (answer = false ∧ fs.MarkedAt destination memory.contents later.contents) := by
  refine Returns.mono (Returns.succeeds (ensures_moveFile_at source destination) _ ?_) ?_
  · rintro failure later (⟨⟨⟩, _⟩ | ⟨⟨cause, refused⟩, _⟩)
    exact ⟨cause, Except.error.inj refused⟩
  · rintro answer later (⟨yes, ⟨_, moved⟩ | ⟨⟨_, ⟨⟩⟩, _⟩⟩ | ⟨no, cause, ⟨⟨⟩, _⟩ | ⟨_, _, marked⟩⟩)
    · exact .inl ⟨yes, moved⟩
    · exact .inr ⟨no, marked⟩

/-- What a rename of a file should be: of a file that is no directory, to a free place, where it
is a file and no directory afterwards, with nothing left at the source and every other file as
it was. -/
structure FileMoved (fs : FileSystem) (source destination : Path) (before after : Contents) :
    Prop where
  file : fs.FileAt before source
  single : ¬ fs.DirectoryAt before source
  free : fs.FreeAt before destination
  arrived : fs.FileAt after destination
  bytes : after[fs.root.relative destination]? = before[fs.root.relative source]?
  whole : ¬ fs.DirectoryAt after destination
  left : fs.FreeAt after source
  others : ∀ key, Path.Plain fs.suffix key → key ≠ fs.root.relative source →
    key ≠ fs.root.relative destination → after[key]? = before[key]?

theorem ObjectMoved.lookup {old new : Key} {before after : Contents}
    (moved : ObjectMoved old new before after) (key : Key) :
    after[key]? = if key = old then none else if key = new then before[old]? else before[key]? := by
  obtain ⟨content, stored, rfl⟩ := moved
  rw [Contents.lookup_erase, Contents.lookup_insert, stored]
  simp only [eq_comm]

theorem ObjectMoved.mem_iff {old new : Key} {before after : Contents}
    (moved : ObjectMoved old new before after) (apart : old ≠ new) (key : Key) :
    key ∈ after ↔ key ≠ old ∧ (key = new ∨ key ∈ before) := by
  have stored : ∃ content, before[old]? = some content := moved.imp fun _ => And.left
  rw [Contents.mem_iff_lookup, moved.lookup]
  by_cases first : key = old
  · simp [first]
  · by_cases second : key = new
    · simp [second, apart.symm, stored]
    · simp [first, second, Contents.mem_iff_lookup]

/-- A moved object makes a directory of no path that does not hold its new key. -/
theorem ObjectMoved.not_hasDirectory {suffix old new : Key} {before after : Contents}
    (moved : ObjectMoved old new before after) (apart : old ≠ new)
    (unheld : ¬ path.Holds suffix new) (bare : ¬ before.HasDirectory suffix path) :
    ¬ after.HasDirectory suffix path := by
  intro there
  obtain ⟨key, present, held⟩ := there.exists_held
  rcases ((moved.mem_iff apart key).mp present).2 with rfl | stored
  · exact unheld held
  · exact bare (Contents.hasDirectory_of_holds stored held)

section trailed
variable (proper : fs.Proper)
include proper

theorem directoryAt_trailed (plain : Path.Plain fs.suffix path) (trailed : path.Trailed place)
    (contents : Contents) :
    fs.DirectoryAt contents place ↔ contents.HasDirectory fs.suffix path := by
  have same := sameDirectory_trailed proper plain trailed
  simp only [DirectoryAt, same.isRoot, same.markerKey, same.stem, proper.isRoot_plain plain,
    proper.markerKey_plain plain, proper.stem_plain plain, Bool.false_eq_true, false_or,
    Contents.HasDirectory, Contents.Under]

/-- A path, with or without a separator behind it, is held by another exactly if it stands below
it, or is its placeholder. -/
theorem holds_trailed_iff {other : Path} (plain : Path.Plain fs.suffix path)
    (trailed : path.Trailed place) :
    other.Holds fs.suffix place ↔ other ++ [separator] <+: place :=
  or_iff_right (trailed_ne_marker proper plain trailed other)

variable (old : Path.Plain fs.suffix source) (new : Path.Plain fs.suffix destination)
  (begins : source.Trailed begun) (goes : destination.Trailed place)
include old new begins goes

/-- A moved object makes a rename as it should be exactly if the source was no directory and
neither path is one by the new key. -/
theorem ObjectMoved.fileMoved_iff {before after : Contents} (file : fs.FileAt before begun)
    (free : fs.FreeAt before place)
    (moved : ObjectMoved (fs.root.relative begun) (fs.root.relative place) before after) :
    fs.FileMoved begun place before after ↔ ¬ before.HasDirectory fs.suffix source ∧
      place = destination ∧ ¬ source ++ [separator] <+: destination := by
  have from_key : fs.root.relative begun = begun := relative_trailed proper old begins
  have to_key : fs.root.relative place = place := relative_trailed proper new goes
  have apart : begun ≠ place := by
    rintro rfl
    exact free.1 file
  have source_at := directoryAt_trailed proper old begins
  have place_at := directoryAt_trailed proper new goes
  have vacant : ¬ before.HasDirectory fs.suffix destination := (place_at before).not.mp free.2
  rw [from_key, to_key] at moved
  have mem := moved.mem_iff apart
  have lookup := moved.lookup
  constructor
  · intro should
    have single := (source_at before).not.mp should.single
    have bare : place = destination := by
      cases goes with
      | inl same => exact same
      | inr behind =>
        have arrived : place ∈ after := to_key ▸ should.arrived
        have under : after.Under destination := ⟨place, arrived, behind ▸ List.prefix_refl _⟩
        exact absurd ((place_at after).mpr (.inr under)) should.whole
    refine ⟨single, bare, fun below => should.left.2 ((source_at after).mpr (.inr ?_))⟩
    exact ⟨place, to_key ▸ should.arrived, bare ▸ below⟩
  · rintro ⟨single, rfl, outside⟩
    have landed : place ∈ after := (mem place).mpr ⟨apart.symm, .inl rfl⟩
    constructor
    · exact file
    · exact (source_at before).not.mpr single
    · exact free
    · rwa [FileAt, to_key]
    · rw [to_key, from_key, lookup, if_neg apart.symm, if_pos rfl]
    · refine (place_at after).not.mpr (moved.not_hasDirectory apart ?_ vacant)
      rw [holds_trailed_iff proper new goes]
      exact not_stem_prefix_self
    · refine ⟨?_, (source_at after).not.mpr (moved.not_hasDirectory apart ?_ single)⟩
      · rw [FileAt, from_key, mem]
        exact fun gone => gone.1 rfl
      · rwa [holds_trailed_iff proper new goes]
    · intro key _ other elsewhere
      rw [from_key] at other
      rw [to_key] at elsewhere
      rw [lookup, if_neg other, if_neg elsewhere]

end trailed

/-- A rename of a file answers yes or no. If no, every file is as it was. If yes, it is what a
rename should be exactly if the source was no directory, no separator is behind the
destination, and the destination is not below the source. -/
theorem renameFile_moves_file_iff (proper : fs.Proper) (old : Path.Plain fs.suffix source)
    (new : Path.Plain fs.suffix destination) (begins : source.Trailed begun)
    (goes : destination.Trailed place) :
    let ended := (fs.renameFile begun place).run Memory.serve memory
    (ended.result = .ok true ∨ ended.result = .ok false) ∧
    (ended.result = .ok false → ∀ key, Path.Plain fs.suffix key →
      ended.state.contents[key]? = memory.contents[key]?) ∧
    (ended.result = .ok true →
      (fs.FileMoved begun place memory.contents ended.state.contents ↔
        ¬ memory.contents.HasDirectory fs.suffix source ∧ place = destination ∧
          ¬ source ++ [separator] <+: destination)) := by
  intro ended
  have left : ∃ answer, ended.result = .ok answer ∧ _ :=
    Memory.run_of_ensures (returns_renameFile begun place)
  obtain ⟨answer, answered, ⟨rfl, file, free, moved⟩ | ⟨rfl, marked⟩⟩ := left
  · refine ⟨.inl answered, fun no => ?_, fun _ => ?_⟩
    · cases answered.symm.trans no
    · exact moved.fileMoved_iff proper old new begins goes file free
  · refine ⟨.inr answered, fun _ key plain => (marked key).resolve_right ?_, fun yes => ?_⟩
    · rintro ⟨_, rfl, _⟩
      rw [(sameDirectory_trailed proper new goes).markerKey, proper.markerKey_plain new] at plain
      exact marker_ne proper.suffix_whole plain destination rfl
    · cases answered.symm.trans yes

theorem renameFile_moves_file_sibling :
    let memory := Memory.holding
      [("a/x".toList, [120]), ("a/y/z".toList, [122]), ("b_$folder$".toList, [])]
    let ended := (usual.renameFile "a/x".toList "b/x".toList).run Memory.serve memory
    ended.result = .ok true ∧ ¬ memory.contents.HasDirectory usual.suffix "a/x".toList ∧
      usual.FileMoved "a/x".toList "b/x".toList memory.contents ended.state.contents := by
  intro memory ended
  have answered : ended.result = .ok true := by decide +kernel
  have single : ¬ memory.contents.HasDirectory usual.suffix "a/x".toList := by decide +kernel
  have old : Path.Plain usual.suffix "a/x".toList := by decide
  have new : Path.Plain usual.suffix "b/x".toList := by decide
  have exactly := (renameFile_moves_file_iff usual_proper old new (.inl rfl) (.inl rfl)).2.2 answered
  exact ⟨answered, single, exactly.mpr ⟨single, rfl, by decide⟩⟩

/-- A file is moved although its name is a directory too. -/
theorem not_renameFile_moves_file : ¬ ∀ (fs : FileSystem) (source destination begun place : Path)
    (memory : Memory), fs.Proper → Path.Plain fs.suffix source →
    Path.Plain fs.suffix destination → source.Trailed begun → destination.Trailed place →
    memory.contents.Tidy fs.suffix → memory.contents.Hollow fs.suffix →
    ((fs.renameFile begun place).run Memory.serve memory).result = .ok true →
    fs.FileMoved begun place memory.contents
      ((fs.renameFile begun place).run Memory.serve memory).state.contents := by
  intro moves
  have moved := moves usual "a".toList "b".toList "a".toList "b".toList
    (.holding [("a".toList, [120]), ("a/y".toList, [121])]) usual_proper (by decide) (by decide)
    (.inl rfl) (.inl rfl) (by decide +kernel) (by decide +kernel) (by decide +kernel)
  have there : (Memory.holding [("a".toList, [120]), ("a/y".toList, [121])]).contents.HasDirectory
      usual.suffix "a".toList := by decide +kernel
  exact moved.single ((directoryAt_trailed usual_proper (by decide) (.inl rfl) _).mpr there)

end FileSystem
end KeyTree
