import KeyTree.Proofs.Apartness
import KeyTree.Proofs.Commuting
import KeyTree.Proofs.Descent

/-!
Creating a file in a tree. A file can be created where no other file is above it; the directories
above it are made on the way, and what is written to it is stored once it is closed. Then the tree
has it in its place (`Deposited`): it can be read, asked for and listed, and nothing else has
changed.
-/
namespace KeyTree

open KeyTree.Path (separator)
open Program (Ensures Returns)

namespace Contents
variable {suffix : Key} {before made : Contents} {path : Path}

/-- In a tree a file that is above the path stands in its way. -/
theorem IsTree.not_clear_iff (tree : before.IsTree suffix) (plain : Path.Plain suffix path) :
    ¬ before.Clear suffix path.Above ↔ ∃ outer ∈ before, path.Above outer := by
  constructor
  · intro stuck
    by_contra unblocked
    exact stuck fun outer above present => absurd ⟨outer, present, above⟩ unblocked
  · rintro ⟨outer, present, above⟩ clear
    exact tree.apart outer (plain.upTo (.inr above)) present (clear outer above present)

section made
variable (marks : Marks suffix path.Above before made)
include marks

/-- Beside the file, only markers of what is above it are new. -/
theorem healed_insert (content : Content) :
    Healed suffix (before.insert path content) (made.insert path content) where
  kept key present := by
    rcases Std.ExtTreeMap.mem_insert.mp present with same | old
    · exact Std.ExtTreeMap.mem_insert.mpr (.inl same)
    · exact Std.ExtTreeMap.mem_insert.mpr (.inr (marks.mem old))
  bound key present := by
    rcases Std.ExtTreeMap.mem_insert.mp present with same | stored
    · exact .inl (Std.ExtTreeMap.mem_insert.mpr (.inl same))
    · rcases marks key with old | ⟨_, other, above, _, _, marker⟩
      · exact .inl (Std.ExtTreeMap.mem_insert.mpr (.inr ((mem_of_lookup_eq old).mp stored)))
      · exact .inr ⟨other, ⟨path, Std.ExtTreeMap.mem_insert_self, above⟩, marker⟩

theorem isTree_insert (whole : separator ∉ suffix) (plain : Path.Plain suffix path)
    (tree : before.IsTree suffix) (free : ¬ before.HasDirectory suffix path)
    (lodged : made.Lodged suffix path) (content : Content) :
    IsTree suffix (made.insert path content) :=
  (marks.isTree whole tree).insert_file whole plain (not_hasDirectory_of_marks whole marks free)
    lodged content

end made
end Contents

namespace FileSystem
variable {fs : FileSystem} {memory : Memory} {path : Path}

/-- The file is in its place in a tree: it holds the content and has its length, everything above
it is a directory, a listing of what is right above it shows it as a file if there are pages enough,
and all other files are as they were. -/
structure Deposited (fs : FileSystem) (path : Path) (content : Content) (before after : Memory) :
    Prop where
  stored : after.contents[path]? = some content
  size : ((fs.size path).run Memory.serve after).result = .ok content.length
  above : ∀ outer, path.Above outer →
    ((fs.isDirectory outer).run Memory.serve after).result = .ok true
  listed : ∀ (pageSize : Nat) (parent name : Path), fs.settings.pageSize = .ok pageSize →
    Contents.reach (before.contents.insert path content) ≤ fs.limits.pages →
    fs.Place parent → separator ∉ name → fs.root.stem parent ++ name = path →
    ∃ entries, ((fs.children parent false).run Memory.serve after).result = .ok (some entries) ∧
      ⟨name, false⟩ ∈ entries
  kept : ∀ key, Path.Plain fs.suffix key → key ≠ path →
    after.contents[key]? = before.contents[key]?
  tree : after.contents.IsTree fs.suffix

section proper
variable (proper : fs.Proper) (plain : Path.Plain fs.suffix path)
include proper plain

/-- A file is opened if no file is above it, and then everything above it is a directory; else no
directory is new. -/
theorem returns_create_told :
    (fs.create path).Returns (Memory.may fun _ => False) memory fun answer later =>
      (answer = none ↔ ¬ memory.contents.Clear fs.suffix path.Above) ∧
        (answer = none → ∀ other, later.contents.HasDirectory fs.suffix other ↔
          memory.contents.HasDirectory fs.suffix other) := by
  have opened : ∀ upload : Upload, some upload ≠ none := Option.some_ne_none
  rcases plain.cut_last with single | ⟨parent, name, first, above, rfl⟩
  · have clear : memory.contents.Clear fs.suffix path.Above :=
      fun outer above => absurd above (Path.not_above_name single)
    rw [create, parent?_name proper plain single]
    apply Returns.bind (returns_startUpload _)
    rintro upload later ⟨rfl, _⟩
    exact ⟨_, rfl, iff_of_false (opened _) fun stuck => stuck clear,
      fun closed => absurd closed (opened _)⟩
  · rw [create, parent?_below proper plain first, Path.above_child first]
    apply Returns.bind (returns_makeDirectories_told proper above)
    rintro made reached ⟨told, gains⟩
    cases made with
    | false =>
      have stuck : ¬ memory.contents.Clear fs.suffix parent.UpTo :=
        fun clear => Bool.false_ne_true (told.mpr clear)
      refine ⟨none, rfl, iff_of_true rfl stuck, fun _ other => ?_⟩
      rw [hasDirectory_made_iff proper.suffix_whole gains]
      exact or_iff_left fun fresh => stuck fresh.1
    | true =>
      apply Returns.bind (returns_startUpload _)
      rintro upload later ⟨rfl, _⟩
      have clear := told.mp rfl
      exact ⟨_, rfl, iff_of_false (opened _) fun stuck => stuck clear,
        fun closed => absurd closed (opened _)⟩

/-- What is opened and what it leaves. -/
theorem returns_create_opened :
    (fs.create path).Returns (Memory.may fun _ => False) memory fun answer later =>
      Marks fs.suffix path.Above memory.contents later.contents ∧
        (answer = none ∧ ¬ memory.contents.Clear fs.suffix path.Above ∧
            (∀ other, later.contents.HasDirectory fs.suffix other ↔
              memory.contents.HasDirectory fs.suffix other) ∨
          answer = some ⟨path, [], false⟩ ∧ memory.contents.Clear fs.suffix path.Above ∧
            later.contents.Lodged fs.suffix path) := by
  apply Ensures.mono (Ensures.and (returns_create_told proper plain) (ensures_create proper plain))
  rintro _ later ⟨⟨answer, rfl, told, same⟩, marks, ⟨⟨⟩, _⟩ | ⟨⟨⟩, lodged⟩⟩
  · exact ⟨none, rfl, marks, .inl ⟨rfl, told.mp rfl, same rfl⟩⟩
  · have clear : memory.contents.Clear fs.suffix path.Above := by
      by_contra stuck
      exact nomatch told.mpr stuck
    exact ⟨_, rfl, marks, .inr ⟨rfl, clear, lodged⟩⟩

theorem run_size {content : Content} (stored : memory.contents[path]? = some content) :
    ((fs.size path).run Memory.serve memory).result = .ok content.length := by
  rw [← proper.relative_plain plain] at stored
  obtain ⟨_, replied⟩ := Memory.run_of_ensures (@ensures_size fs memory path)
  cases ended : ((fs.size path).run Memory.serve memory).result with
  | ok bytes =>
    rw [ended] at replied
    cases replied with
    | size known =>
      rw [Option.some.inj (stored.symm.trans known)]
  | error failure =>
    rw [ended] at replied
    cases replied with
    | unknown absent => cases stored.symm.trans absent

omit plain in
/-- The name of a plain path below a place is plain. -/
theorem Place.child_plain {parent name : Path} (place : fs.Place parent)
    (plain : Path.Plain fs.suffix (fs.root.stem parent ++ name)) : Path.Plain fs.suffix name := by
  obtain named | root := place
  · rw [proper.stem_plain named, List.append_assoc] at plain
    exact (Path.Plain.append_iff.mp plain).2
  · rwa [stem_root root] at plain

omit plain in
/-- A place with a key behind its stem is there. -/
theorem Place.holds_of_child {parent name : Path} (place : fs.Place parent)
    (present : fs.root.stem parent ++ name ∈ memory.contents) : fs.Holds memory.contents parent := by
  obtain named | root := place
  · rw [proper.stem_plain named] at present
    exact .inr (.inr ⟨_, present, List.prefix_append _ _⟩)
  · exact .inl root

omit plain in
/-- A listing right above a file of a tree shows it. -/
theorem run_children_file {pageSize : Nat} {parent name : Path}
    (tree : memory.contents.IsTree fs.suffix) (read : fs.settings.pageSize = .ok pageSize)
    (room : memory.contents.size < fs.limits.pages) (place : fs.Place parent)
    (first : separator ∉ name) (plain : Path.Plain fs.suffix (fs.root.stem parent ++ name))
    (present : fs.root.stem parent ++ name ∈ memory.contents) :
    ∃ entries, ((fs.children parent false).run Memory.serve memory).result = .ok (some entries) ∧
      ⟨name, false⟩ ∈ entries := by
  have whole := proper.suffix_whole
  have rootless := proper.rootless tree.tidy.neat
  have named := place.child_plain proper plain
  obtain ⟨answer, shows, ⟨rfl, missing, _⟩ | ⟨entries, rfl, _, merged, _⟩⟩ :=
    Memory.run_of_ensures (returns_children_told whole proper.suffix_ne_nil rootless read room
      parent false)
  · exact absurd ((directoryAt_place proper place).mpr (place.holds_of_child proper present)) missing
  · refine ⟨entries, shows, merged.file_iff.mpr ⟨named.ne_nil, ?_, ?_⟩⟩
    · exact Contents.tells_file_iff.mpr
        ⟨present, .inr first, named.not_suffix whole, named.getLast?_ne⟩
    · intro told
      exact tree.apart _ plain present ((Contents.tells_directory_iff whole).mp told).2

/-- A file that is put below what was made for it has its place in the tree. -/
theorem deposited {made : Contents} {content : Content} {after : Memory}
    (tree : memory.contents.IsTree fs.suffix)
    (free : ¬ memory.contents.HasDirectory fs.suffix path)
    (marks : Marks fs.suffix path.Above memory.contents made)
    (lodged : made.Lodged fs.suffix path) (same : after.contents = made.insert path content) :
    fs.Deposited path content memory after := by
  have whole := proper.suffix_whole
  have stored : after.contents[path]? = some content := by
    rw [same, Contents.lookup_insert, if_pos rfl]
  have present := Contents.mem_iff_lookup.mpr ⟨content, stored⟩
  have grown : after.contents.IsTree fs.suffix :=
    same ▸ Contents.isTree_insert marks whole plain tree free lodged content
  refine ⟨stored, run_size proper plain stored, fun outer above => ?_, ?_, ?_, grown⟩
  · obtain ⟨found, looked, exact_iff⟩ := run_isDirectory after proper (plain.upTo (.inr above))
    obtain rfl := exact_iff.mpr (.inr ⟨path, present, above⟩)
    exact looked
  · rintro pageSize parent name read room place first rfl
    have short : after.contents.size < fs.limits.pages := by
      rw [same]
      exact (Contents.healed_insert marks content).size_lt_reach.trans_le room
    exact run_children_file proper grown read short place first plain present
  · intro key named other
    rw [same, Contents.lookup_insert, if_neg (Ne.symm other)]
    exact marks.file whole named

end proper

/-- Creating a file of a tree answers none exactly if a file is above it, and then changes no file
and no directory. Else what is written to it is in its place in the tree when it is closed. -/
theorem create_deposits (proper : fs.Proper) (plain : Path.Plain fs.suffix path)
    (tree : memory.contents.IsTree fs.suffix)
    (free : ¬ memory.contents.HasDirectory fs.suffix path) (written : List Content) :
    let created := (fs.create path).run Memory.serve memory
    ∃ answer, created.result = .ok answer ∧
      (answer = none ↔ ∃ outer ∈ memory.contents, path.Above outer) ∧
      (answer = none →
        (∀ key, Path.Plain fs.suffix key →
          created.state.contents[key]? = memory.contents[key]?) ∧
        ∀ other, created.state.contents.HasDirectory fs.suffix other ↔
          memory.contents.HasDirectory fs.suffix other) ∧
      ∀ upload, answer = some upload → ∃ full closed,
        upload.writeAll written = .ok (written.map List.length, full) ∧
        (full.close.run Memory.serve created.state).result = .ok (.ok (), closed) ∧
        fs.Deposited path written.flatten memory (full.close.run Memory.serve created.state).state := by
  intro created
  obtain ⟨answer, answered, marks, ⟨rfl, stuck, same⟩ | ⟨rfl, clear, lodged⟩⟩ :=
    Memory.run_of_ensures (@returns_create_opened fs memory path proper plain)
  · have blocked := (tree.not_clear_iff plain).mp stuck
    exact ⟨none, answered, iff_of_true rfl blocked,
      fun _ => ⟨fun key named => marks.file proper.suffix_whole named, same⟩, nofun⟩
  · have unblocked : ¬ ∃ outer ∈ memory.contents, path.Above outer :=
      fun found => (tree.not_clear_iff plain).mpr found clear
    refine ⟨_, answered, iff_of_false nofun unblocked, nofun, ?_⟩
    rintro upload ⟨⟩
    obtain ⟨⟨_, closed⟩, ended, rfl, stored⟩ :=
      Memory.run_of_ensures (@returns_closeUpload created.state path written.flatten)
    exact ⟨_, closed, Upload.writeAll_open path [] written, ended,
      deposited proper plain tree free marks lodged stored⟩

theorem create_deposits_below :
    let memory := Memory.holding [("a/x".toList, [120]), ("b".toList, [98])]
    let created := (usual.create "a/y/z".toList).run Memory.serve memory
    memory.contents.IsTree usual.suffix ∧
      ¬ memory.contents.HasDirectory usual.suffix "a/y/z".toList ∧
      created.result = .ok (some ⟨"a/y/z".toList, [], false⟩) ∧
      ∃ final entries, usual.Deposited "a/y/z".toList [1, 2, 3] memory final ∧
        ((usual.children "a/y".toList false).run Memory.serve final).result = .ok (some entries) ∧
        ⟨"z".toList, false⟩ ∈ entries := by
  intro memory created
  have plain : Path.Plain usual.suffix "a/y/z".toList := by decide
  have tree : memory.contents.IsTree usual.suffix := by decide +kernel
  have free : ¬ memory.contents.HasDirectory usual.suffix "a/y/z".toList := by decide +kernel
  obtain ⟨answer, answered, _, _, writes⟩ :=
    create_deposits usual_proper plain tree free [[1], [2, 3]]
  have taken : created.result = .ok (some ⟨"a/y/z".toList, [], false⟩) := by decide +kernel
  cases taken.symm.trans answered
  obtain ⟨_, _, _, _, deposited⟩ := writes _ rfl
  obtain ⟨entries, shows, listed⟩ :=
    deposited.listed _ "a/y".toList "z".toList (Settings.pageSize_integer rfl) (by decide +kernel)
      (.inl (by decide)) (by decide) (by decide +kernel)
  exact ⟨tree, free, taken, _, entries, deposited, shows, listed⟩

end FileSystem
end KeyTree
