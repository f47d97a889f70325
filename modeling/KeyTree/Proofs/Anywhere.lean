import KeyTree.Proofs.Children
import KeyTree.Proofs.Joining

/-!
Looking at paths of any text. What a path names is told by three keys: its own, its marker and
its stem. A look at it finds a file or a directory exactly if these are there, and a listing
shows what stands behind the stem, whatever the text is and whichever deletions fail.
-/
namespace KeyTree

open KeyTree.Path (separator)
open Program (Ensures Returns)

namespace Path
variable {path : Path}

/-- One separator behind what is left without one. -/
theorem withSeparator_eq_drop (path : Path) :
    withSeparator path = dropSeparator path ++ [separator] := by
  unfold withSeparator dropSeparator
  split
  · rename_i last
    obtain ⟨front, same⟩ := List.getLast?_eq_some_iff.mp last
    rw [same, List.dropLast_concat]
  · rfl

end Path

namespace FileSystem
variable {fs : FileSystem} {fallible : Store.Request Memory.Cursor → Prop} {memory : Memory}
  {path : Path} {recursive : Bool}

/-- The key of the path is there. -/
def FileAt (fs : FileSystem) (contents : Contents) (path : Path) : Prop :=
  fs.root.relative path ∈ contents

/-- The path is the root, or its marker is there, or some key has its stem. -/
def DirectoryAt (fs : FileSystem) (contents : Contents) (path : Path) : Prop :=
  fs.root.isRoot path = true ∨ fs.markerKey path ∈ contents ∨
    ∃ key ∈ contents, fs.root.stem path <+: key

/-- Nothing but deletions may fail. -/
def OnlyDeletes (fallible : Store.Request Memory.Cursor → Prop) : Prop :=
  ∀ query, fallible query → ∃ key, query = .delete key

theorem onlyDeletes_false : OnlyDeletes fun _ => False := fun _ => False.elim

/-- What a look for a directory finds and leaves. -/
structure Sought (fs : FileSystem) (path : Path) (before : Memory) (found : Bool) (after : Memory) :
    Prop where
  there : found = true ↔ fs.DirectoryAt before.contents path
  missed : found = false → after = before
  bound : ∀ key : Key, after.contents[key]? = before.contents[key]? ∨
    after.contents[key]? = some [] ∧ fs.root.isRoot path = false ∧ key = fs.markerKey path ∧
      ∃ inner ∈ before.contents, fs.root.stem path <+: inner
  marked : found = true → fs.root.isRoot path = false → fs.markerKey path ∈ after.contents

theorem Sought.mem {found : Bool} {after : Memory} (sought : Sought fs path memory found after)
    {key : Key} (present : key ∈ memory.contents) : key ∈ after.contents := by
  cases sought.bound key with
  | inl same => exact (Contents.mem_of_lookup_eq same).mpr present
  | inr fresh => exact Contents.mem_iff_lookup.mpr ⟨[], fresh.1⟩

theorem not_stem_prefix_markerKey (whole : separator ∉ fs.suffix)
    (below : fs.root.isRoot path = false) : ¬ fs.root.stem path <+: fs.markerKey path := by
  rw [Root.stem_eq (Root.isRoot_eq_false.mp below), Path.withSeparator_eq_drop, markerKey, markerOf]
  exact not_stem_prefix_marker whole

/-- A fresh marker is not behind the stem. -/
theorem Sought.lookup_below {found : Bool} {after : Memory} (whole : separator ∉ fs.suffix)
    (sought : Sought fs path memory found after) {key : Key} (behind : fs.root.stem path <+: key) :
    after.contents[key]? = memory.contents[key]? := by
  obtain same | ⟨_, below, rfl, _⟩ := sought.bound key
  · exact same
  · exact absurd behind (not_stem_prefix_markerKey whole below)

section deletes
variable (only : OnlyDeletes fallible)
include only

theorem OnlyDeletes.status (key : Key) : ¬ fallible (.status key) := by
  intro hit
  obtain ⟨_, ⟨⟩⟩ := only _ hit

theorem OnlyDeletes.createEmpty (key : Key) : ¬ fallible (.createEmpty key) := by
  intro hit
  obtain ⟨_, ⟨⟩⟩ := only _ hit

theorem OnlyDeletes.list (stem : Key) (deep : Bool) (pageSize : Int) :
    ¬ fallible (.list stem deep pageSize) := by
  intro hit
  obtain ⟨_, ⟨⟩⟩ := only _ hit

theorem returns_isFile_at (path : Path) :
    (fs.isFile path).Returns (Memory.may fallible) memory fun found later =>
      (found = true ↔ fs.FileAt memory.contents path) ∧ later = memory := by
  refine Returns.bind (Memory.returns_status fallible memory _) ?_
  rintro status later ⟨rfl, rfl | ⟨hit, _⟩⟩
  · exact ⟨_, rfl, status_isSome, rfl⟩
  · exact absurd hit (only.status _)

/-- The marker is put in, and found afterwards. -/
theorem returns_healMarker_at (marker : Key) :
    (healMarker marker).Returns (Memory.may fallible) memory fun status later =>
      status.isSome = true ∧ later = memory.insert marker [] := by
  refine Ensures.notify (Returns.bind (Memory.returns_createEmpty fallible memory marker) ?_)
  rintro made healed (⟨rfl, rfl⟩ | ⟨_, _, hit⟩)
  · refine Returns.mono (Memory.returns_status fallible _ _) ?_
    rintro status later ⟨rfl, rfl | ⟨hit, _⟩⟩
    · exact ⟨status_isSome.mpr Std.ExtTreeMap.mem_insert_self, rfl⟩
    · exact absurd hit (only.status _)
  · exact absurd hit (only.createEmpty _)

/-- A missing marker is put in exactly if some key has the stem. -/
theorem returns_probeBelow_at :
    (fs.probeBelow path).Returns (Memory.may fallible) memory fun status later =>
      (status.isSome = true ↔ ∃ key ∈ memory.contents, fs.root.stem path <+: key) ∧
        (status.isSome = true → later = memory.insert (fs.markerKey path) []) ∧
        (status.isSome = false → later = memory) := by
  refine Returns.bind (Memory.returns_attempt_list fallible memory _ true 1) ?_
  rintro answer later ⟨rfl, rfl | ⟨hit, _⟩⟩
  · dsimp only
    split
    · rename_i empty
      have bare := Contents.objects_firstPage_eq_nil.mp empty
      exact ⟨none, rfl, by simpa using bare, nofun, fun _ => rfl⟩
    · rename_i shown
      have some_below : ∃ key ∈ later.contents, fs.root.stem path <+: key := by
        by_contra bare
        exact shown (Contents.objects_firstPage_eq_nil.mpr (by simpa using bare))
      refine Returns.mono (returns_healMarker_at only _) ?_
      rintro status healed ⟨found, rfl⟩
      simp [found, some_below]
  · exact absurd hit (only.list _ _ _)

theorem returns_probe_at (below : fs.root.isRoot path = false) :
    (fs.probe path).Returns (Memory.may fallible) memory fun status later =>
      Sought fs path memory status.isSome later := by
  rw [probe, below]
  refine Returns.bind (Memory.returns_status fallible memory _) ?_
  rintro status later ⟨rfl, rfl | ⟨hit, _⟩⟩
  · cases found : later.status (fs.markerKey path) with
    | some status =>
      have marked : fs.markerKey path ∈ later.contents := status_isSome.mp (by simp [found])
      exact ⟨_, rfl, by simp [DirectoryAt, marked], fun _ => rfl, fun _ => .inl rfl,
        fun _ _ => marked⟩
    | none =>
      have unmarked : fs.markerKey path ∉ later.contents := by simp [← status_isSome, found]
      refine Returns.mono (returns_probeBelow_at only) ?_
      rintro status healed ⟨inside, put_in, same⟩
      constructor
      · simp [inside, DirectoryAt, below, unmarked]
      · exact same
      · intro key
        cases there : status.isSome with
        | false => exact .inl (by rw [same there])
        | true =>
          rw [put_in there, Memory.insert, Contents.lookup_insert]
          split
          · exact .inr ⟨rfl, below, ‹_ = key›.symm, inside.mp there⟩
          · exact .inl rfl
      · intro there _
        rw [put_in there]
        exact Std.ExtTreeMap.mem_insert_self
  · exact absurd hit (only.status _)

/-- A look at a path of any text finds a directory exactly if one is there. -/
theorem returns_isDirectory_at (path : Path) :
    (fs.isDirectory path).Returns (Memory.may fallible) memory (Sought fs path memory) := by
  rw [isDirectory]
  cases root : fs.root.isRoot path with
  | true =>
    exact ⟨true, rfl, by simp [DirectoryAt, root], fun _ => rfl, fun _ => .inl rfl, by simp [root]⟩
  | false =>
    exact Returns.bind (returns_probe_at only root) fun _ _ sought => ⟨_, rfl, sought⟩

/-- What a listing of a path of any text answers and leaves. What a walk of the entries keeps up
holds where it ends. -/
structure Exposed (fs : FileSystem) (fallible : Store.Request Memory.Cursor → Prop)
    (path : Path) (recursive : Bool) (inv : Contents → List Entry → Memory → Prop)
    (before : Memory) (result : Except Failure (Option (List Entry))) (after : Memory) : Prop where
  absent : result = .ok none → ¬ fs.DirectoryAt before.contents path ∧ after = before
  listed : ∀ children, result = .ok (some children) → fs.DirectoryAt before.contents path ∧
    ∃ probed, Sought fs path before true probed ∧ inv probed.contents children after ∧
      Merged children (probed.contents.Shown fs.suffix (fs.root.stem path) !recursive)
  stopped : ∀ failure, result = .error failure →
    (∃ probed, Sought fs path before true probed ∧ ∃ known, inv probed.contents known after) ∧
      ((∃ query, fallible query) ∨ (∃ defect, fs.settings.pageSize = .error defect) ∨
        ∃ probed, Sought fs path before true probed ∧
          fs.limits.pages ≤ (probed.contents.entries (fs.root.stem path) !recursive).length)

theorem ensures_children_at {inv : Contents → List Entry → Memory → Prop}
    (upholds : ∀ probed, Sought fs path memory true probed →
      Upholds fs fallible (fs.root.stem path)
        (probed.contents.entries (fs.root.stem path) !recursive) (inv probed.contents))
    (begun : ∀ probed, Sought fs path memory true probed → inv probed.contents [] probed) :
    (fs.children path recursive).Ensures (Memory.may fallible) memory
      (Exposed fs fallible path recursive inv memory) := by
  unfold children
  refine Returns.bind (returns_isDirectory_at only path) ?_
  intro found probed sought
  cases found with
  | false =>
    have missing : ¬ fs.DirectoryAt memory.contents path := by simp [← sought.there]
    exact ⟨fun _ => ⟨missing, sought.missed rfl⟩, nofun, nofun⟩
  | true =>
    have there := sought.there.mp rfl
    have first := begun probed sought
    dsimp only
    rw [if_pos rfl]
    cases read : fs.settings.pageSize with
    | error defect =>
      exact ⟨nofun, nofun, fun _ _ => ⟨⟨probed, sought, _, first⟩, .inr (.inl ⟨defect, read⟩)⟩⟩
    | ok pageSize =>
      refine Ensures.bind_done (Ensures.bind (Memory.ensures_list fallible _ _ _ _) ?_ ?_)
      · rintro page later ⟨rfl, ⟨⟨⟩⟩ | ⟨hit, _⟩⟩
        · refine Ensures.bind (ensures_walk_entries read (upholds later sought) first) ?_ ?_
          · rintro final now ⟨_, merges, _⟩
            refine ⟨nofun, ?_, nofun⟩
            rintro _ ⟨⟩
            exact ⟨there, later, sought, merges final rfl⟩
          · rintro failure now ⟨⟨known, kept⟩, _, stops⟩
            refine ⟨nofun, nofun, fun _ _ => ⟨⟨later, sought, known, kept⟩, ?_⟩⟩
            exact (stops failure rfl).imp_right fun long => .inr ⟨later, sought, long⟩
        · exact absurd hit (only.list _ _ _)
      · rintro failure later ⟨rfl, ⟨⟨⟩⟩ | ⟨hit, _⟩⟩
        exact absurd hit (only.list _ _ _)

end deletes
end FileSystem
end KeyTree
