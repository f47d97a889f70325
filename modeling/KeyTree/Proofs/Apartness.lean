import KeyTree.Proofs.Sequence

/-!
Files and directories kept apart. Making a directory looks for a file first, but creating a
file never looks at its own path: it only makes the directory above it. So a sequence of
operations that starts with nothing and renames nothing keeps every name either a file or a
directory, unless it writes a file where a directory is.
-/
namespace KeyTree

open KeyTree.Path (separator)
open Program (Ensures Returns)

namespace Contents
variable {suffix : Key} {contents : Contents} {path : Path}

/-- Markers above a path do not make it a directory. -/
theorem not_hasDirectory_of_marks {after : Contents} (whole : separator ∉ suffix)
    (marks : Marks suffix path.Above contents after) (free : ¬ contents.HasDirectory suffix path) :
    ¬ after.HasDirectory suffix path := by
  rintro (marked | ⟨key, present, below⟩)
  · rcases marks (path ++ suffix) with same | ⟨_, other, above, _, _, same⟩
    · exact free (.inl ((mem_of_lookup_eq same).mp marked))
    · exact not_stem_prefix_self (List.append_cancel_right same ▸ above)
  · rcases marks key with same | ⟨_, other, above, _, _, rfl⟩
    · exact free (.inr ⟨key, (mem_of_lookup_eq same).mp present, below⟩)
    · exact not_stem_prefix_self (stem_prefix_trans above ((stem_prefix_marker whole).mp below))

/-- A file that is no directory and has only directories above it fits into a tree. -/
theorem IsTree.insert_file (tree : contents.IsTree suffix) (whole : separator ∉ suffix)
    (plain : Path.Plain suffix path) (free : ¬ contents.HasDirectory suffix path)
    (lodged : contents.Lodged suffix path) (content : Content) :
    IsTree suffix (contents.insert path content) := by
  have old : ∀ {key : Key}, key ≠ path → (contents.insert path content)[key]? = contents[key]? :=
    fun other => (lookup_insert ..).trans (if_neg (Ne.symm other))
  have mem : ∀ {key : Key}, key ∈ contents.insert path content → key = path ∨ key ∈ contents := by
    intro key present
    by_cases same : key = path
    · exact .inl same
    · exact .inr ((mem_of_lookup_eq (old same)).mp present)
  constructor
  · intro key present
    rcases mem present with rfl | stored
    · exact ⟨key, plain, .inl rfl⟩
    · exact tree.tidy key stored
  · intro other named key kind given stored
    refine tree.hollow other named key kind given ((old ?_).symm.trans stored)
    rintro rfl
    rcases kind with marker | placeholder
    · exact marker_ne whole plain other marker.symm
    · exact plain.concat_ne placeholder
  · intro file named present there
    have below : contents.HasDirectory suffix file ∨ file ++ [separator] <+: path := by
      rcases there with marked | ⟨key, stored, below⟩
      · exact .inl (.inl ((mem marked).resolve_left (marker_ne whole plain file)))
      · rcases mem stored with rfl | stored
        · exact .inr below
        · exact .inl (.inr ⟨key, stored, below⟩)
    rcases mem present with rfl | stored
    · exact below.elim free not_stem_prefix_self
    · rcases below with there | above
      · exact tree.apart file named stored there
      · exact tree.apart file named stored (lodged file named above)

theorem isTree_empty : (Memory.holding []).contents.IsTree suffix := by
  have bare : ∀ {key : Key}, key ∉ (Memory.holding []).contents := by
    intro key
    exact Std.ExtTreeMap.not_mem_empty
  exact ⟨fun _ present => absurd present bare,
    fun _ _ _ _ _ stored => absurd (mem_iff_lookup.mpr ⟨_, stored⟩) bare,
    fun _ _ present => absurd present bare⟩

end Contents

namespace FileSystem
variable {fs : FileSystem} {memory : Memory} {path : Path} {operations : List Operation}

/-- The path is said to be a file and a directory. -/
def Doubled (fs : FileSystem) (memory : Memory) (path : Path) : Prop :=
  ((fs.isFile path).run Memory.serve memory).result = .ok true ∧
    ((fs.isDirectory path).run Memory.serve memory).result = .ok true

theorem doubled_iff (proper : fs.Proper) (plain : Path.Plain fs.suffix path) :
    fs.Doubled memory path ↔
      path ∈ memory.contents ∧ memory.contents.HasDirectory fs.suffix path := by
  have looks : (fs.isFile path).Returns (Memory.may fun _ => False) memory
      (Looked (fun _ => False) path memory) := returns_isFile proper plain
  obtain ⟨file, answered, look⟩ := Memory.run_of_ensures looks
  obtain ⟨found, told, exact_iff⟩ := run_isDirectory memory proper plain
  rw [Doubled, answered, told, Except.ok.injEq, Except.ok.injEq, exact_iff]
  refine and_congr_left fun _ => ⟨look.present, fun present => ?_⟩
  cases file with
  | true => rfl
  | false => exact absurd present (look.absent rfl id)

/-- The sequence never writes a file where a directory is. -/
def WritesApart (fs : FileSystem) (operations : List Operation) (memory : Memory) : Prop :=
  ∀ before path contents, before ++ [.writeFile path contents] <+: operations →
    ((fs.isDirectory path).run Memory.serve (fs.reached before memory)).result = .ok false

theorem WritesApart.later {operation : Operation}
    (apart : fs.WritesApart (operation :: operations) memory) :
    fs.WritesApart operations ((fs.perform operation).run Memory.serve memory).state := by
  intro before path contents within
  rw [← reached_cons]
  exact apart (operation :: before) path contents ((List.prefix_cons_inj operation).mpr within)

variable (proper : fs.Proper)
include proper

/-- A file that is written where no directory is leaves a tree. -/
theorem ensures_writeFile_isTree (plain : Path.Plain fs.suffix path)
    (tree : memory.contents.IsTree fs.suffix)
    (free : ¬ memory.contents.HasDirectory fs.suffix path) (contents : List Content) :
    (fs.writeFile path contents).Ensures (Memory.may fun _ => False) memory
      fun _ later => later.contents.IsTree fs.suffix := by
  have whole := proper.suffix_whole
  apply Ensures.mono (ensures_writeFile proper plain contents)
  rintro result later ⟨made, marks, ⟨_, _, same⟩ | ⟨_, lodged, same⟩⟩
  · rw [same]
    exact marks.isTree whole tree
  · rw [same]
    exact (marks.isTree whole tree).insert_file whole plain
      (Contents.not_hasDirectory_of_marks whole marks free) lodged _

/-- A file that is written where a directory is becomes both. -/
theorem doubled_writeFile (plain : Path.Plain fs.suffix path)
    (there : memory.contents.HasDirectory fs.suffix path) (contents : List Content) :
    fs.Doubled ((fs.perform (.writeFile path contents)).run Memory.serve memory).state path := by
  have written : (fs.perform (.writeFile path contents)).Ensures (Memory.may fun _ => False) memory
      fun _ later => path ∈ later.contents ∧ later.contents.HasDirectory fs.suffix path := by
    have lands : (fs.writeFile path contents).Returns (Memory.may fun _ => False) memory
        fun _ later => path ∈ later.contents ∧ later.contents.HasDirectory fs.suffix path := by
      apply Ensures.mono (ensures_writeFile proper plain contents)
      rintro result later ⟨made, marks, ⟨_, missing, _⟩ | ⟨rfl, _, same⟩⟩
      · exact absurd there missing
      · have kept := fun key (present : key ∈ made) =>
          same ▸ Std.ExtTreeMap.mem_insert.mpr (.inr present)
        refine ⟨_, rfl, same ▸ Std.ExtTreeMap.mem_insert_self, ?_⟩
        exact (marks.hasDirectory there).imp (kept _)
          fun ⟨key, present, below⟩ => ⟨key, kept key present, below⟩
    apply Returns.bind lands
    exact fun _ _ both => both
  exact (doubled_iff proper plain).mpr (Memory.run_of_ensures written)

/-- So does every operation that renames nothing, on plain paths. -/
theorem ensures_perform_isTree {operation : Operation} (unmoved : operation.renames = false)
    (plain : ∀ path ∈ operation.paths, Path.Plain fs.suffix path)
    (tree : memory.contents.IsTree fs.suffix)
    (free : ∀ path contents, operation = .writeFile path contents →
      ¬ memory.contents.HasDirectory fs.suffix path) :
    (fs.perform operation).Ensures (Memory.may fun _ => False) memory
      fun _ later => later.contents.IsTree fs.suffix := by
  cases written : operation.writes with
  | false =>
    exact keeps_perform proper (.isTree proper.suffix_whole) written unmoved
      (fun path member => .inl (plain path member)) memory tree
  | true =>
    cases operation with
    | writeFile path contents =>
      apply Ensures.bind (ensures_writeFile_isTree proper (plain path (.head _)) tree
        (free path contents rfl) contents)
      · exact fun _ _ kept => kept
      · exact fun _ _ kept => kept
    | _ => cases written

/-- Files and directories stay apart along a sequence that renames nothing and writes no file
where a directory is. -/
theorem reached_isTree (plain : ∀ operation ∈ operations, operation.renames = false ∧
      ∀ path ∈ operation.paths, Path.Plain fs.suffix path)
    (apart : fs.WritesApart operations memory) (tree : memory.contents.IsTree fs.suffix) :
    (fs.reached operations memory).contents.IsTree fs.suffix := by
  induction operations generalizing memory with
  | nil => exact tree
  | cons operation later ih =>
    rw [reached_cons]
    apply ih (fun other member => plain other (List.mem_cons_of_mem _ member)) apart.later
    obtain ⟨unmoved, named⟩ := plain operation List.mem_cons_self
    apply Memory.run_of_ensures (ensures_perform_isTree proper unmoved named tree ?_)
    rintro path contents rfl there
    obtain ⟨found, told, exact_iff⟩ := run_isDirectory memory proper (named path (.head _))
    have missed := apart [] path contents ⟨later, rfl⟩
    cases told.symm.trans missed
    cases exact_iff.mpr there

omit proper in
/-- Along a sequence that starts with nothing and renames nothing, no path is ever both a file
and a directory exactly if no file is written where a directory is. -/
theorem reached_apart_iff (proper : fs.Proper)
    (plain : ∀ operation ∈ operations, operation.renames = false ∧
      ∀ path ∈ operation.paths, Path.Plain fs.suffix path) :
    (∀ before, before <+: operations → ∀ path, Path.Plain fs.suffix path →
      ¬ fs.Doubled (fs.reached before (.holding [])) path) ↔
    fs.WritesApart operations (.holding []) := by
  constructor
  · intro apart before path contents within
    have own : Path.Plain fs.suffix path :=
      (plain (.writeFile path contents) (within.subset (by simp))).2 path (.head _)
    obtain ⟨found, told, exact_iff⟩ := run_isDirectory (fs.reached before (.holding [])) proper own
    cases found with
    | false => exact told
    | true =>
      have doubled := doubled_writeFile proper own (exact_iff.mp rfl) contents
      rw [← reached_concat] at doubled
      exact absurd doubled (apart _ within path own)
  · intro apart before within path named doubled
    have first : fs.WritesApart before (.holding []) :=
      fun start path contents inner => apart start path contents (inner.trans within)
    have tree := reached_isTree proper (fun operation member => plain operation (within.subset member))
      first Contents.isTree_empty
    obtain ⟨present, there⟩ := (doubled_iff proper named).mp doubled
    exact tree.apart path named present there

omit proper in
/-- A file can be written where a directory was deleted. -/
theorem reached_apart_iff_removed :
    let operations : List Operation := [.makeDirectories "a".toList true,
      .deleteDirectory "a".toList false, .writeFile "a".toList [[120]]]
    (∀ operation ∈ operations, operation.renames = false ∧
      ∀ path ∈ operation.paths, Path.Plain usual.suffix path) ∧
    usual.WritesApart operations (.holding []) ∧
    ∀ before, before <+: operations → ∀ path, Path.Plain usual.suffix path →
      ¬ usual.Doubled (usual.reached before (.holding [])) path := by
  intro operations
  have plain : ∀ operation ∈ operations, operation.renames = false ∧
      ∀ path ∈ operation.paths, Path.Plain usual.suffix path := by decide
  have apart : usual.WritesApart operations (.holding []) := by
    intro before path contents within
    have shape : before = [.makeDirectories "a".toList true,
        .deleteDirectory "a".toList false] ∧ path = "a".toList := by
      rcases before with _ | ⟨first, _ | ⟨second, _ | ⟨third, rest⟩⟩⟩ <;>
        simp_all [operations]
    obtain ⟨rfl, rfl⟩ := shape
    decide +kernel
  exact ⟨plain, apart, (reached_apart_iff usual_proper plain).mpr apart⟩

omit proper in
/-- A file can be created where a directory was made. -/
theorem not_reached_apart : ¬ ∀ (fs : FileSystem) (operations : List Operation), fs.Proper →
    (∀ operation ∈ operations, operation.renames = false ∧
      ∀ path ∈ operation.paths, Path.Plain fs.suffix path) →
    ∀ path, Path.Plain fs.suffix path →
      ¬ fs.Doubled (fs.reached operations (.holding [])) path := by
  intro apart
  apply apart usual [.makeDirectories "a".toList true, .writeFile "a".toList [[120]]]
    usual_proper (by decide) "a".toList (by decide)
  exact ⟨by decide +kernel, by decide +kernel⟩

end FileSystem
end KeyTree
