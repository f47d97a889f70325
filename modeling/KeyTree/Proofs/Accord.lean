import KeyTree.Proofs.Healing

/-!
Listings and looks. A listing and the looks at the names that it shows go different ways: the one
cuts names from keys, the others put them back with `Path.join`. They agree on every name without a
separator, in whichever order they come and whatever else was asked before. A name that starts with
a separator loses it when it is joined, so what is looked at is then something else.
-/
namespace KeyTree

open KeyTree.Path (separator)
open Program (Ensures Returns)

namespace Path
variable {name stem : Path}

theorem head?_append_ne (front : stem.head? ≠ some separator) (first : name.head? ≠ some separator) :
    (stem ++ name).head? ≠ some separator := by
  cases stem with
  | nil => exact first
  | cons c rest => exact front

theorem trim_of_head?_ne (first : name.head? ≠ some separator) : trim name = trimEnd name := by
  cases name with
  | nil => rfl
  | cons c rest =>
    rw [trim, List.dropWhile_cons_of_neg]
    exact fun same => first (by rw [List.head?_cons, of_decide_eq_true same])

theorem trim_suffix_of_getLast?_ne (last : name.getLast? ≠ some separator) : trim name <:+ name := by
  have behind : name.dropWhile (· = separator) <:+ name := List.dropWhile_suffix _
  by_cases bare : name.dropWhile (· = separator) = []
  · rw [trim, bare]
    exact List.nil_suffix
  · have kept : (name.dropWhile (· = separator)).getLast? = name.getLast? := by
      rw [List.getLast?_eq_some_getLast bare, behind.getLast bare, List.getLast?_eq_some_getLast]
    rwa [trim, trimEnd_of_getLast?_ne (kept ▸ last)]

end Path

namespace Contents
variable {suffix : Key} {contents : Contents} {path : Path}

/-- Separators at the end of a directory's key only lead further down. -/
theorem HasDirectory.trimEnd (there : contents.HasDirectory suffix path) :
    contents.HasDirectory suffix (Path.trimEnd path) := by
  obtain ⟨count, cut⟩ := Path.exists_trimEnd path
  cases count with
  | zero =>
    rw [List.replicate_zero, List.append_nil] at cut
    exact cut ▸ there
  | succ count =>
    have above : Path.trimEnd path ++ [separator] <+: path :=
      ⟨List.replicate count separator, by
        rw [List.append_assoc, List.singleton_append]
        exact cut.symm⟩
    obtain marked | ⟨key, present, below⟩ := there
    · exact .inr ⟨_, marked, above.trans (List.prefix_append _ _)⟩
    · exact .inr ⟨key, present, above.trans ((List.prefix_append _ _).trans below)⟩

end Contents

namespace FileSystem
variable {fs : FileSystem} {memory : Memory} {contents before after : Contents} {path : Path}
  {name : Path} {entry : Entry}

/-- Whether the directory or the file that the entry names is there, below the path. -/
def look (fs : FileSystem) (path : Path) (entry : Entry) : Store.Action Memory.Cursor Bool :=
  if entry.isDirectory then fs.isDirectory (Path.join path entry.name)
  else fs.isFile (Path.join path entry.name)

section place
variable (proper : fs.Proper) (clean : fs.root.Clean)
  (place : fs.root.isRoot path = true ∨ path.Named)
include proper place

/-- The key of the root is empty, and that of any other place is its path. -/
theorem relative_place : fs.root.relative path = [] ∨ Path.Named (fs.root.relative path) := by
  obtain root | named := place
  · exact .inl (of_decide_eq_true root)
  · exact .inr (by rwa [proper.relative_named named])

theorem getLast?_relative_place : (fs.root.relative path).getLast? ≠ some separator := by
  obtain top | named := relative_place proper place
  · simp [top]
  · exact named.getLast?_ne

include clean

theorem directoryAt_join_named (named : name.Named) :
    fs.DirectoryAt contents (Path.join path name) ↔
      contents.HasDirectory fs.suffix (fs.root.stem path ++ name) := by
  have key := proper.relative_join_named clean (relative_place proper place) named
  have below : fs.root.isRoot (Path.join path name) = false := by
    rw [Root.isRoot_eq_false, key]
    exact fun bare => named.ne_nil (List.append_eq_nil_iff.mp bare).2
  have last : (fs.root.stem path ++ name).getLast? ≠ some separator := by
    rw [List.getLast?_append, List.getLast?_eq_some_getLast named.ne_nil, Option.some_or,
      ← List.getLast?_eq_some_getLast]
    exact named.getLast?_ne
  rw [directoryAt_iff, below, key, Path.dropSeparator, if_neg last]
  exact or_iff_right Bool.false_ne_true

end place

section agree
variable {pageSize : Nat} (proper : fs.Proper) (clean : fs.root.Clean)
  (rootless : ∀ key ∈ memory.contents, ¬ fs.root.start <+: key)
  (read : fs.settings.pageSize = .ok pageSize) (room : memory.contents.reach ≤ fs.limits.pages)
  (place : fs.root.isRoot path = true ∨ path.Named)
include proper clean rootless read room place

/-- A listing and the looks for a name agree, whatever was asked before each of them: the name is
shown as a directory if a look finds one, and as a file if a look finds a file and none finds a
directory. The looks find what the keys have there. -/
theorem children_agree (there : fs.DirectoryAt memory.contents path) (given : name ≠ [])
    (single : separator ∉ name) (unmarked : ¬ fs.suffix <:+ name) {first second third : List Operation}
    (asks : ∀ query ∈ first ++ second ++ third, query.asks = true) :
    let listing := (fs.children path false).run Memory.serve (fs.reached first memory)
    let directory := (fs.isDirectory (Path.join path name)).run Memory.serve
      (fs.reached second memory)
    let file := (fs.isFile (Path.join path name)).run Memory.serve (fs.reached third memory)
    ∃ children isDirectory isFile, listing.result = .ok (some children) ∧
      directory.result = .ok isDirectory ∧ file.result = .ok isFile ∧
      (⟨name, true⟩ ∈ children ↔ isDirectory = true) ∧
      (⟨name, false⟩ ∈ children ↔ isFile = true ∧ isDirectory = false) ∧
      (isDirectory = true ↔
        memory.contents.HasDirectory fs.suffix (fs.root.stem path ++ name)) ∧
      (isFile = true ↔ fs.root.stem path ++ name ∈ memory.contents) := by
  intro listing directory file
  have whole := proper.suffix_whole
  have named : name.Named := (Path.Named.iff_of_not_mem single).mpr given
  have key := proper.relative_join_named clean (relative_place proper place) named
  have healed : ∀ queries : List Operation, queries ⊆ first ++ second ++ third →
      memory.contents.Healed fs.suffix (fs.reached queries memory).contents :=
    fun queries among => reached_healed whole proper.suffix_ne_nil rootless read room (.refl _ _)
      fun query member => asks query (among member)
  obtain ⟨answer, shows, _, ⟨rfl, missing⟩ | ⟨children, rfl, _, merged⟩⟩ :=
    Memory.run_of_ensures (returns_children_healed whole proper.suffix_ne_nil rootless read room
      (healed first (by simp)) path)
  · exact absurd there missing
  obtain ⟨isDirectory, looked, found, _⟩ := Memory.run_of_ensures
    (returns_isDirectory_healed whole (healed second (by simp)) (Path.join path name))
  obtain ⟨isFile, sought, present, _⟩ := Memory.run_of_ensures
    (returns_isFile_exact fs (fs.reached third memory) (Path.join path name))
  have directory_iff : isDirectory = true ↔
      memory.contents.HasDirectory fs.suffix (fs.root.stem path ++ name) :=
    found.trans (directoryAt_join_named proper clean place named)
  have file_iff : isFile = true ↔ fs.root.stem path ++ name ∈ memory.contents := by
    rw [present, key]
    exact (healed third (by simp)).mem_iff fun ends =>
      unmarked (suffix_of_stem whole (fs.root.stem_shape path) ends)
  refine ⟨children, isDirectory, isFile, shows, looked, sought, ?_, ?_, directory_iff, file_iff⟩
  · rw [merged.directory_iff, Contents.tells_directory_iff whole, directory_iff]
    simp [given, single]
  · rw [merged.file_iff, Contents.tells_file_iff, Contents.tells_directory_iff whole, file_iff,
      ← Bool.not_eq_true, directory_iff]
    simp [given, single, unmarked, named.getLast?_ne]

end agree

theorem children_agree_healed :
    let memory := Memory.holding [("a//".toList, []), ("a/x".toList, [120]), ("a/x/y".toList, [121])]
    let first : List Operation := [.isDirectory "a/x".toList]
    let second : List Operation := [.children "/a/".toList false, .isFile "//".toList]
    let third : List Operation := [.parentExists "a/x/y".toList]
    (∀ key ∈ memory.contents, ¬ usual.root.start <+: key) ∧
      usual.DirectoryAt memory.contents "a".toList ∧
      (∀ query ∈ first ++ second ++ third, query.asks = true) ∧
      ∃ children,
        ((usual.children "a".toList false).run Memory.serve (usual.reached first memory)).result =
          .ok (some children) ∧
        ((usual.isDirectory "a/x".toList).run Memory.serve (usual.reached second memory)).result =
          .ok true ∧
        ((usual.isFile "a/x".toList).run Memory.serve (usual.reached third memory)).result =
          .ok true ∧
        ⟨"x".toList, true⟩ ∈ children ∧ ⟨"x".toList, false⟩ ∉ children := by
  intro memory first second third
  have apart : ∀ key ∈ memory.contents.keys, ¬ usual.root.start <+: key := by decide +kernel
  have rootless : ∀ key ∈ memory.contents, ¬ usual.root.start <+: key := fun key present =>
    apart key (Std.ExtTreeMap.mem_keys.mpr present)
  have stored : "a/x".toList ∈ memory.contents := by decide +kernel
  have below : "a/x/y".toList ∈ memory.contents := by decide +kernel
  have stem : usual.root.stem "a".toList = "a/".toList := by decide +kernel
  have there : usual.DirectoryAt memory.contents "a".toList :=
    .inr (.inr ⟨_, stored, by rw [stem]; decide⟩)
  have asks : ∀ query ∈ first ++ second ++ third, query.asks = true := by decide
  have given : "x".toList ≠ [] := by decide
  obtain ⟨children, _, _, shows, looked, sought, directory, file, found_iff, present_iff⟩ :=
    children_agree usual_proper usual_clean rootless (Settings.pageSize_integer rfl)
      (by decide +kernel) (.inr (by decide +kernel)) there given (by decide) (by decide) asks
  rw [stem] at found_iff present_iff
  obtain rfl := found_iff.mpr (.inr ⟨_, below, by decide⟩)
  obtain rfl := present_iff.mpr stored
  exact ⟨rootless, there, asks, children, shows, looked, sought, directory.mpr rfl,
    fun member => Bool.noConfusion (file.mp member).2⟩

/-- The directory or the file is there under the path. -/
def At (fs : FileSystem) (contents : Contents) (path : Path) (isDirectory : Bool) : Prop :=
  if isDirectory then fs.DirectoryAt contents path else fs.FileAt contents path

theorem at_congr {other : Path} (same : fs.root.relative other = fs.root.relative path)
    (isDirectory : Bool) :
    fs.At contents other isDirectory ↔ fs.At contents path isDirectory := by
  simp only [At, DirectoryAt, FileAt, Root.isRoot, markerKey, Root.stem, same]

theorem returns_look (fs : FileSystem) (memory : Memory) (path : Path) (entry : Entry) :
    (fs.look path entry).Returns (Memory.may fun _ => False) memory fun found _ =>
      (found = true ↔ fs.At memory.contents (Path.join path entry.name) entry.isDirectory) := by
  unfold look At
  split
  · exact Returns.mono (returns_isDirectory_at onlyDeletes_false _) fun _ _ sought => sought.there
  · exact Returns.mono (returns_isFile_exact fs memory _) fun _ _ => And.left

section listed
variable {recursive : Bool} (proper : fs.Proper) (clean : fs.root.Clean)
  (place : fs.root.isRoot path = true ∨ path.Named) (given : entry.name ≠ [])
  (tells : before.Tells fs.suffix (fs.root.stem path) recursive entry)
include proper clean place given tells

/-- No marker that was put in makes a difference to a look at a listed name. -/
theorem at_healed (healed : before.Healed fs.suffix after) :
    fs.At after (Path.join path entry.name) entry.isDirectory ↔
      fs.At before (Path.join path entry.name) entry.isDirectory := by
  have whole := proper.suffix_whole
  obtain ⟨name, isDirectory⟩ := entry
  cases isDirectory with
  | true => exact directoryAt_healed whole healed
  | false =>
    obtain ⟨_, _, unmarked, last⟩ := Contents.tells_file_iff.mp tells
    apply healed.mem_iff
    intro ends
    have solid : Path.Solid name := Path.solid_of_getLast?_ne given last
    rw [Root.relative_join_behind clean (getLast?_relative_place proper place) solid.trim_ne_nil]
      at ends
    have inner := suffix_of_stem whole (fs.root.stem_shape path)
      (ends.trans (fs.root.relative_suffix _))
    exact unmarked (inner.trans (Path.trim_suffix_of_getLast?_ne last))

/-- A directory whose name does not start with a separator is found where it was listed. -/
theorem at_directory (rootless : ∀ key ∈ before, ¬ fs.root.start <+: key)
    (first : entry.name.head? ≠ some separator) (directory : entry.isDirectory = true) :
    fs.DirectoryAt before (Path.join path entry.name) := by
  obtain ⟨name, isDirectory⟩ := entry
  obtain rfl : isDirectory = true := directory
  obtain ⟨c, rest, rfl⟩ := List.exists_cons_of_ne_nil given
  have solid : Path.Solid (c :: rest) :=
    ⟨c, List.mem_cons_self, fun same => first (by rw [same, List.head?_cons])⟩
  generalize c :: rest = name at *
  have there := (tells.hasDirectory proper.suffix_whole proper.suffix_ne_nil).trimEnd
  have lead : (Path.trimEnd (fs.root.stem path ++ name)).head? ≠ some separator := fun front =>
    Path.head?_append_ne (fs.root.head?_stem_ne path) first (Path.head?_of_trimEnd front)
  have last := Path.getLast?_trimEnd_ne (fs.root.stem path ++ name)
  have key : fs.root.relative (Path.join path name) =
      fs.root.relative (Path.trimEnd (fs.root.stem path ++ name)) := by
    rw [Path.trimEnd_append solid, ← Path.trim_of_head?_ne first]
    exact Root.relative_join_behind clean (getLast?_relative_place proper place) solid.trim_ne_nil
  generalize Path.trimEnd (fs.root.stem path ++ name) = trimmed at *
  rw [directoryAt_iff, Root.isRoot, key]
  by_cases spelled : Path.withSeparator trimmed = fs.root.start
  · rw [Root.relative.eq_def, if_pos spelled]
    exact .inl rfl
  · obtain ⟨inner, present, below⟩ := there.exists_behind
    rw [Root.relative_eq_self_of spelled (fun within => rootless inner present (within.trans below))
      lead, Path.dropSeparator, if_neg last]
    exact .inr there

/-- A file whose name does not start with a separator is, unless its key spells the root. -/
theorem at_file_iff (rootless : ∀ key ∈ before, ¬ fs.root.start <+: key) (bare : [] ∉ before)
    (first : entry.name.head? ≠ some separator) (file : entry.isDirectory = false) :
    fs.FileAt before (Path.join path entry.name) ↔
      Path.withSeparator (fs.root.stem path ++ entry.name) ≠ fs.root.start := by
  obtain ⟨name, isDirectory⟩ := entry
  obtain rfl : isDirectory = false := file
  obtain ⟨present, _, _, last⟩ := Contents.tells_file_iff.mp tells
  have kept : Path.trim name = name := Path.trim_eq_self first last
  rw [FileAt, Root.relative_join_behind clean (getLast?_relative_place proper place)
    (by rwa [kept]), kept]
  constructor
  · intro found spelled
    rw [Root.relative.eq_def, if_pos spelled] at found
    exact bare found
  · intro apart
    rwa [Root.relative_eq_self_of apart (rootless _ present)
      (Path.head?_append_ne (fs.root.head?_stem_ne path) first)]

/-- Any name is looked for without the separators at its ends, and one that has nothing else is the
path itself. -/
theorem at_trimmed_iff (there : fs.DirectoryAt before path) :
    fs.At before (Path.join path entry.name) entry.isDirectory ↔ Path.trim entry.name = [] ∨
      fs.At before (fs.root.stem path ++ Path.trim entry.name) entry.isDirectory := by
  have last := getLast?_relative_place proper place
  by_cases hollow : Path.trim entry.name = []
  · have key : fs.root.relative (Path.join path entry.name) = fs.root.relative path := by
      rw [Root.relative_join_trim clean, if_pos hollow, Path.trimEnd_of_getLast?_ne last]
    have directory : entry.isDirectory = true := by
      obtain ⟨name, isDirectory⟩ := entry
      cases isDirectory with
      | true => rfl
      | false =>
        obtain ⟨_, _, _, ends⟩ := Contents.tells_file_iff.mp tells
        exact absurd hollow (Path.solid_of_getLast?_ne given ends).trim_ne_nil
    rw [at_congr key, directory]
    exact iff_of_true there (.inl hollow)
  · rw [at_congr (Root.relative_join_behind clean last hollow)]
    exact (or_iff_right hollow).symm

end listed

section resolve
variable {pageSize : Nat} (proper : fs.Proper) (clean : fs.root.Clean)
  (rootless : ∀ key ∈ memory.contents, ¬ fs.root.start <+: key) (bare : [] ∉ memory.contents)
  (read : fs.settings.pageSize = .ok pageSize) (room : memory.contents.reach ≤ fs.limits.pages)
  (place : fs.root.isRoot path = true ∨ path.Named)
include proper clean rootless bare read room place

/-- Which entries of a listing are found when they are looked for by their joined names, at once or
after other questions. A name that does not start with a separator is found, unless it belongs to
an object whose key spells the root; any other name is found where something of the kind stands
under the name without its separators, or where nothing is left of the name. -/
theorem children_resolve_iff (recursive : Bool) {queries : List Operation}
    (asks : ∀ query ∈ queries, query.asks = true) :
    let listing := (fs.children path recursive).run Memory.serve memory
    let later := fs.reached queries listing.state
    ∃ answer, listing.result = .ok answer ∧ ∀ children, answer = some children →
      ∀ entry ∈ children, ∃ found, ((fs.look path entry).run Memory.serve later).result = .ok found ∧
        (entry.name.head? ≠ some separator → (found = true ↔ entry.isDirectory = true ∨
          Path.withSeparator (fs.root.stem path ++ entry.name) ≠ fs.root.start)) ∧
        (entry.name.head? = some separator → (found = true ↔ Path.trim entry.name = [] ∨
          fs.At memory.contents (fs.root.stem path ++ Path.trim entry.name) entry.isDirectory)) := by
  intro listing later
  have whole := proper.suffix_whole
  obtain ⟨answer, shows, told⟩ := Memory.run_of_ensures (returns_children_told whole
    proper.suffix_ne_nil rootless read
    ((Contents.Healed.refl fs.suffix memory.contents).size_lt_reach.trans_le room) path recursive)
  refine ⟨answer, shows, ?_⟩
  rintro children rfl entry member
  obtain ⟨⟨⟩, _⟩ | ⟨_, ⟨⟩, there, merged, leaves⟩ := told
  have healed : memory.contents.Healed fs.suffix later.contents :=
    reached_healed whole proper.suffix_ne_nil rootless read room (Leaves.healed there leaves) asks
  obtain ⟨given, tells⟩ := merged.shown_of_mem member
  obtain ⟨found, looked, truth⟩ := Memory.run_of_ensures
    (returns_look fs later path entry)
  rw [at_healed proper clean place given tells healed] at truth
  refine ⟨found, looked, fun first => truth.trans ?_, fun _ => truth.trans ?_⟩
  · cases kind : entry.isDirectory with
    | true => simpa [At] using at_directory proper clean place given tells rootless first kind
    | false => simpa [At] using at_file_iff proper clean place given tells rootless bare first kind
  · exact at_trimmed_iff proper clean place given tells there

end resolve

theorem children_resolve_iff_doubled :
    let memory := Memory.holding [("a//x".toList, [120]), ("a/x".toList, [121])]
    let listing := (usual.children "a".toList true).run Memory.serve memory
    (∀ key ∈ memory.contents, ¬ usual.root.start <+: key) ∧ [] ∉ memory.contents ∧
      ∃ children, listing.result = .ok (some children) ∧ ⟨"/x".toList, false⟩ ∈ children ∧
        ((usual.look "a".toList ⟨"/x".toList, false⟩).run Memory.serve listing.state).result =
          .ok true := by
  intro memory listing
  have apart : ∀ key ∈ memory.contents.keys, ¬ usual.root.start <+: key := by decide +kernel
  have rootless : ∀ key ∈ memory.contents, ¬ usual.root.start <+: key := fun key present =>
    apart key (Std.ExtTreeMap.mem_keys.mpr present)
  have bare : [] ∉ memory.contents := by decide +kernel
  have named : Path.Named "a".toList := by decide +kernel
  have asks : ∀ query ∈ ([] : List Operation), query.asks = true := nofun
  have listed : listing.result = .ok (some [⟨"/x".toList, false⟩, ⟨"x".toList, false⟩]) := by
    decide +kernel
  obtain ⟨answer, shows, resolves⟩ := children_resolve_iff usual_proper usual_clean rootless bare
    (Settings.pageSize_integer rfl) (by decide +kernel) (.inr named) true asks
  cases listed.symm.trans shows
  have member : (⟨"/x".toList, false⟩ : Entry) ∈
      [⟨"/x".toList, false⟩, ⟨"x".toList, false⟩] := List.mem_cons_self
  obtain ⟨found, looked, _, led⟩ := resolves _ rfl _ member
  have single : usual.root.relative (usual.root.stem "a".toList ++ Path.trim "/x".toList) ∈
      memory.contents := by decide +kernel
  obtain rfl : found = true := (led rfl).mpr (.inr single)
  exact ⟨rootless, bare, _, listed, member, looked⟩

/-- A file whose key has two separators in a row is listed, and not found under its joined name. -/
theorem not_children_resolve :
    ¬ ∀ (fs : FileSystem) (path : Path) (recursive : Bool) (memory : Memory) (children : List Entry),
      fs.Proper → fs.root.Clean → (∀ key ∈ memory.contents, ¬ fs.root.start <+: key) →
      [] ∉ memory.contents → fs.root.isRoot path = true ∨ path.Named →
      let listing := (fs.children path recursive).run Memory.serve memory
      listing.result = .ok (some children) →
      ∀ entry ∈ children, ((fs.look path entry).run Memory.serve listing.state).result = .ok true := by
  intro resolves
  have apart : ∀ key ∈ (Memory.holding [("a//x".toList, [120])]).contents.keys,
      ¬ usual.root.start <+: key := by decide +kernel
  have found := resolves usual "a".toList true (.holding [("a//x".toList, [120])])
    [⟨"/x".toList, false⟩] usual_proper usual_clean
    (fun key present => apart key (Std.ExtTreeMap.mem_keys.mpr present)) (by decide +kernel)
    (.inr (by decide +kernel)) (by decide +kernel) _ List.mem_cons_self
  revert found
  decide +kernel

end FileSystem
end KeyTree
