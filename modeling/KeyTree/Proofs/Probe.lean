import KeyTree.FileSystem.Directory
import KeyTree.Proofs.Answers
import KeyTree.Proofs.Listing

/-!
Looking for files and directories. A look finds only what is there, and misses it only
where a request may fail. Looking for a file changes nothing; looking for a directory may
give it its marker.
-/
namespace KeyTree.FileSystem

open KeyTree.Path (separator)
open Program (Ensures Returns)

variable {fs : FileSystem} {fallible : Store.Request Memory.Cursor → Prop} {memory : Memory}
  {path : Path}

theorem status_isSome {key : Key} :
    (memory.status key).isSome = true ↔ key ∈ memory.contents := by
  rw [Memory.status, Option.isSome_map, Std.ExtTreeMap.mem_iff_isSome_getElem?]

/-- What a look for a file leaves. -/
structure Looked (fallible : Store.Request Memory.Cursor → Prop) (path : Path) (before : Memory)
    (found : Bool) (after : Memory) : Prop where
  same : after = before
  present : found = true → path ∈ before.contents
  absent : found = false → ¬ fallible (.status path) → path ∉ before.contents

theorem returns_isFile (proper : fs.Proper) (plain : Path.Plain fs.suffix path) :
    (fs.isFile path).Returns (Memory.may fallible) memory (Looked fallible path memory) := by
  rw [isFile, proper.relative_plain plain]
  refine Returns.bind (Memory.returns_status fallible memory path) ?_
  rintro status later ⟨rfl, rfl | ⟨hit, rfl⟩⟩
  · exact ⟨_, rfl, rfl, status_isSome.mp,
      fun missing _ present => by simp [status_isSome.mpr present] at missing⟩
  · exact ⟨_, rfl, rfl, by simp, fun _ reliable => absurd hit reliable⟩

/-- A look for a file finds it if it is there. -/
theorem returns_isFile_exact (fs : FileSystem) (memory : Memory) (path : Path) :
    (fs.isFile path).Returns (Memory.may fun _ => False) memory fun found later =>
      (found = true ↔ fs.root.relative path ∈ memory.contents) ∧ later = memory := by
  apply Returns.bind (Memory.returns_status _ memory _)
  rintro status later ⟨rfl, rfl | ⟨⟨⟩, _⟩⟩
  exact ⟨_, rfl, status_isSome, rfl⟩

/-- A look for a directory that has its marker changes nothing. -/
theorem returns_isDirectory_marked (below : fs.root.isRoot path = false)
    (marked : fs.markerKey path ∈ memory.contents) :
    (fs.isDirectory path).Returns (Memory.may fun _ => False) memory fun found later =>
      found = true ∧ later = memory := by
  have probes : (fs.probe path).Returns (Memory.may fun _ => False) memory
      fun status later => status.isSome = true ∧ later = memory := by
    have found := status_isSome.mpr marked
    rw [probe, below]
    apply Returns.bind (Memory.returns_status _ memory _)
    rintro status later ⟨rfl, rfl | ⟨⟨⟩, _⟩⟩
    cases there : later.status (fs.markerKey path) with
    | some status => exact ⟨_, rfl, rfl, rfl⟩
    | none => simp [there] at found
  rw [isDirectory, below]
  exact Returns.bind probes fun _ _ both => ⟨_, rfl, both⟩

/-- What a look for a directory leaves. -/
structure Probed (fs : FileSystem) (fallible : Store.Request Memory.Cursor → Prop) (path : Path)
    (before : Memory) (found : Bool) (after : Memory) : Prop where
  heals : Heals fs.suffix path before.contents after.contents
  only : ∀ key, key ≠ path ++ fs.suffix → after.contents[key]? = before.contents[key]?
  marked : found = true → path ++ fs.suffix ∈ after.contents
  missed : found = false → before.contents.HasDirectory fs.suffix path →
    ∃ query, fallible query
  unmarked : found = false → (∀ key, ¬ fallible (.status key)) →
    after = before ∧ path ++ fs.suffix ∉ before.contents

theorem Probed.here (marked : path ++ fs.suffix ∈ memory.contents) :
    Probed fs fallible path memory true memory :=
  ⟨.refl _ _ _, fun _ _ => rfl, fun _ => marked, nofun, nofun⟩

/-- A look that finds nothing and changes nothing has to be excused only where a directory
is there. -/
theorem Probed.nowhere
    (unseen : path ++ fs.suffix ∈ memory.contents → ∃ key, fallible (.status key))
    (missed : memory.contents.Under path → ∃ query, fallible query) :
    Probed fs fallible path memory false memory where
  heals := .refl _ _ _
  only _ _ := rfl
  marked := nofun
  missed _ := by
    rintro (marked | under)
    · obtain ⟨key, hit⟩ := unseen marked
      exact ⟨_, hit⟩
    · exact missed under
  unmarked _ truthful := by
    refine ⟨rfl, fun marked => ?_⟩
    obtain ⟨key, hit⟩ := unseen marked
    exact truthful key hit

theorem returns_healMarker (plain : Path.Plain fs.suffix path)
    (under : memory.contents.Under path)
    (unseen : path ++ fs.suffix ∈ memory.contents → ∃ key, fallible (.status key)) :
    (healMarker (path ++ fs.suffix)).Returns (Memory.may fallible) memory fun status later =>
      Probed fs fallible path memory status.isSome later := by
  refine Ensures.notify
    (Returns.bind (Memory.returns_createEmpty fallible memory (path ++ fs.suffix)) ?_)
  rintro made healed (⟨rfl, rfl⟩ | ⟨rfl, rfl, failed⟩)
  · have heals : Heals fs.suffix path memory.contents _ := .insert plain under (.inl rfl)
    have only : ∀ key, key ≠ path ++ fs.suffix →
        (memory.insert (path ++ fs.suffix) []).contents[key]? = memory.contents[key]? :=
      fun key other => (Contents.lookup_insert ..).trans (if_neg (Ne.symm other))
    have marked : path ++ fs.suffix ∈ (memory.insert (path ++ fs.suffix) []).contents :=
      Contents.mem_iff_lookup.mpr ⟨[], (Contents.lookup_insert ..).trans (if_pos rfl)⟩
    refine Returns.mono (Memory.returns_status fallible _ _) ?_
    rintro status later ⟨rfl, rfl | ⟨hit, rfl⟩⟩
    · have found := status_isSome.mpr marked
      exact ⟨heals, only, fun _ => marked, by simp [found], by simp [found]⟩
    · exact ⟨heals, only, nofun, fun _ _ => ⟨_, hit⟩, fun _ truthful => absurd hit (truthful _)⟩
  · refine Returns.mono (Memory.returns_status fallible _ _) ?_
    rintro status later ⟨rfl, rfl | ⟨hit, rfl⟩⟩
    · cases found : later.status (path ++ fs.suffix) with
      | some status => exact .here (status_isSome.mp (by rw [found]; rfl))
      | none => exact .nowhere unseen fun _ => ⟨_, failed⟩
    · exact .nowhere unseen fun _ => ⟨_, failed⟩

variable (proper : fs.Proper) (plain : Path.Plain fs.suffix path)
include proper plain

theorem returns_probeBelow
    (unseen : path ++ fs.suffix ∈ memory.contents → ∃ key, fallible (.status key)) :
    (fs.probeBelow path).Returns (Memory.may fallible) memory fun status later =>
      Probed fs fallible path memory status.isSome later := by
  rw [probeBelow, proper.stem_plain plain, proper.markerKey_plain plain]
  refine Returns.bind (Memory.returns_attempt_list fallible memory _ true 1) ?_
  rintro answer later ⟨rfl, rfl | ⟨hit, message, rfl⟩⟩
  · dsimp only
    split
    · rename_i empty
      have bare := Contents.objects_firstPage_eq_nil.mp empty
      exact ⟨_, rfl, .nowhere unseen fun ⟨key, present, below⟩ => absurd below (bare key present)⟩
    · rename_i shown
      refine returns_healMarker plain (Classical.byContradiction fun bare => ?_) unseen
      exact shown (Contents.objects_firstPage_eq_nil.mpr fun key present below =>
        bare ⟨key, present, below⟩)
  · exact Ensures.notify ⟨_, rfl, .nowhere unseen fun _ => ⟨_, hit⟩⟩

theorem returns_probe :
    (fs.probe path).Returns (Memory.may fallible) memory fun status later =>
      Probed fs fallible path memory status.isSome later := by
  rw [probe, proper.isRoot_plain plain, proper.markerKey_plain plain]
  refine Returns.bind (Memory.returns_status fallible memory _) ?_
  rintro status later ⟨rfl, rfl | ⟨hit, rfl⟩⟩
  · cases found : later.status (path ++ fs.suffix) with
    | some status =>
      exact ⟨_, rfl, .here (status_isSome.mp (by rw [found]; rfl))⟩
    | none =>
      refine returns_probeBelow proper plain fun marked => ?_
      rw [← status_isSome, found] at marked
      cases marked
  · exact returns_probeBelow proper plain fun _ => ⟨_, hit⟩

theorem returns_isDirectory :
    (fs.isDirectory path).Returns (Memory.may fallible) memory
      (Probed fs fallible path memory) := by
  rw [isDirectory, proper.isRoot_plain plain]
  exact Returns.bind (returns_probe proper plain) fun status later probed => ⟨_, rfl, probed⟩

omit proper plain in
theorem run_isDirectory (memory : Memory) (proper : fs.Proper)
    (plain : Path.Plain fs.suffix path) : ∃ found,
    ((fs.isDirectory path).run Memory.serve memory).result = .ok found ∧
      (found = true ↔ memory.contents.HasDirectory fs.suffix path) := by
  obtain ⟨found, answered, look⟩ := Memory.run_of_ensures (returns_isDirectory proper plain)
  refine ⟨found, answered, fun yes => ?_, fun there => ?_⟩
  · exact (look.heals.hasDirectory_iff proper.suffix_whole).mp (.inl (look.marked yes))
  · cases found with
    | true => rfl
    | false => exact (look.missed rfl there).elim fun _ => False.elim

end KeyTree.FileSystem
