import KeyTree.FileSystem.Removal
import KeyTree.Proofs.Children
import KeyTree.Proofs.Rewrites

/-!
Removing a directory of neat contents. Each name of the recursive listing leads back to
the keys that it stands for, and nothing outside the directory is touched. What a removal
that succeeds leaves behind are the files whose name has a marker or a placeholder too:
the listing shows these names as directories, and only their markers and placeholders
are deleted (`Emptied`).
-/
namespace KeyTree

open KeyTree.Path (separator)
open Program (Ensures Returns)

/-- The keys that an entry of a listing stands for. -/
def Entry.Stands (suffix : Key) (path : Path) (entry : Entry) (key : Key) : Prop :=
  if entry.isDirectory then
    key = path ++ separator :: entry.name ++ suffix ∨
      key = path ++ separator :: entry.name ++ [separator]
  else key = path ++ separator :: entry.name

theorem Entry.Stands.below {suffix : Key} {path : Path} {entry : Entry} {key : Key}
    (stands : entry.Stands suffix path key) : path ++ [separator] <+: key := by
  unfold Entry.Stands at stands
  split at stands
  · rcases stands with rfl | rfl
    · exact stem_prefix_append.trans (List.prefix_append _ _)
    · exact stem_prefix_append.trans (List.prefix_append _ _)
  · exact stands ▸ stem_prefix_append

namespace FileSystem
variable {fs : FileSystem} {fallible : Store.Request Memory.Cursor → Prop} {memory : Memory}
  {path : Path}

/-- Some of the keys were deleted, and all of them where nothing stopped that. -/
structure Deleted (fallible : Store.Request Memory.Cursor → Prop) (keys : Key → Prop)
    (before : Memory) (result : Except Failure Unit) (after : Memory) : Prop where
  keeps : ∀ key : Key, after.contents[key]? = before.contents[key]? ∨
    keys key ∧ key ∉ after.contents
  gone : result = .ok () → (∀ key, ¬ fallible (.status key)) → ∀ key, keys key →
    key ∉ after.contents
  stopped : ∀ failure, result = .error failure → ∃ query, fallible query

namespace Deleted
variable {keys others : Key → Prop} {before middle after : Memory}
  {result : Except Failure Unit}

theorem nothing (before : Memory) : Deleted fallible (fun _ => False) before (.ok ()) before :=
  ⟨fun _ => .inl rfl, fun _ _ _ => False.elim, nofun⟩

theorem erase (before : Memory) (key : Key) :
    Deleted fallible (· = key) before (.ok ()) (before.erase key) where
  keeps other := by
    by_cases same : key = other
    · exact .inr ⟨same.symm, Contents.not_mem_iff_lookup.mpr
        ((Contents.lookup_erase ..).trans (if_pos same))⟩
    · exact .inl ((Contents.lookup_erase ..).trans (if_neg same))
  gone _ _ other same :=
    Contents.not_mem_iff_lookup.mpr ((Contents.lookup_erase ..).trans (if_pos same.symm))
  stopped := nofun

theorem refused {failure : Failure} (hit : ∃ query, fallible query) :
    Deleted fallible keys before (.error failure) before :=
  ⟨fun _ => .inl rfl, nofun, fun _ _ => hit⟩

theorem congr (deleted : Deleted fallible keys before result after)
    (same : ∀ key, keys key ↔ others key) : Deleted fallible others before result after where
  keeps key := (deleted.keeps key).imp_right (And.imp_left (same key).mp)
  gone ok truthful key member := deleted.gone ok truthful key ((same key).mpr member)
  stopped := deleted.stopped

theorem mem (deleted : Deleted fallible keys before result after) {key : Key}
    (present : key ∈ after.contents) : key ∈ before.contents := by
  rcases deleted.keeps key with same | ⟨_, absent⟩
  · exact (Contents.mem_of_lookup_eq same).mp present
  · exact absurd present absent

theorem andThen (first : Deleted fallible keys before (.ok ()) middle)
    (second : Deleted fallible others middle result after) :
    Deleted fallible (fun key => keys key ∨ others key) before result after where
  keeps key := by
    rcases second.keeps key with same | ⟨member, absent⟩
    · rw [same, Contents.mem_of_lookup_eq same]
      exact (first.keeps key).imp_right (And.imp_left .inl)
    · exact .inr ⟨.inr member, absent⟩
  gone ok truthful key := by
    rintro (member | member) present
    · exact first.gone rfl truthful key member (second.mem present)
    · exact second.gone ok truthful key member present
  stopped := second.stopped

/-- Without faults all of them are deleted. -/
theorem rewrites (deleted : Deleted (fun _ => False) keys before result after) :
    result = .ok () ∧ Rewrites keys (fun _ _ => False) before.contents after.contents := by
  have ok : result = .ok () := by
    cases result with
    | ok value => rfl
    | error failure => exact (deleted.stopped failure rfl).elim fun _ => False.elim
  refine ⟨ok, fun _ _ => False.elim, fun key content => ?_⟩
  by_cases member : keys key
  · have gone := deleted.gone ok (fun _ => id) key member
    simp [member, Contents.not_mem_iff_lookup.mp gone]
  · have same := (deleted.keeps key).resolve_right fun lost => member lost.1
    simp [member, same]

theorem bind {program : Store.Action Memory.Cursor Unit}
    {next : Store.Action Memory.Cursor Unit}
    (first : program.Ensures (Memory.may fallible) before (Deleted fallible keys before))
    (second : ∀ middle, next.Ensures (Memory.may fallible) middle (Deleted fallible others middle)) :
    (program.bind fun _ => next).Ensures (Memory.may fallible) before
      (Deleted fallible (fun key => keys key ∨ others key) before) := by
  refine Ensures.bind first ?_ ?_
  · exact fun _ middle done => Ensures.mono (second middle) fun _ _ later => done.andThen later
  · exact fun _ _ failed =>
      ⟨fun key => (failed.keeps key).imp_right (And.imp_left .inl), nofun, failed.stopped⟩

end Deleted

/-- Deletes one key, or refuses. -/
theorem ensures_delete {key : Key} {cause : Cause} {next : Store.Action Memory.Cursor Unit}
    {keys : Key → Prop}
    (rest : next.Ensures (Memory.may fallible) (memory.erase key)
      fun result later => Deleted fallible keys (memory.erase key) result later) :
    ((Store.delete key).bind fun made => if made then next else Program.refuse cause).Ensures
      (Memory.may fallible) memory
      (Deleted fallible (fun other => other = key ∨ keys other) memory) := by
  refine Returns.bind (Memory.returns_delete fallible memory key) ?_
  rintro made later (⟨rfl, rfl⟩ | ⟨rfl, rfl, hit⟩)
  · exact Ensures.mono rest fun _ _ second => (Deleted.erase memory key).andThen second
  · exact Deleted.refused ⟨_, hit⟩

/-- The keys that go with an entry of a listing. -/
def Doomed (fs : FileSystem) (path : Path) (entry : Entry) (key : Key) : Prop :=
  key = fs.entryKey path entry ∨ entry.isDirectory = true ∧
    key ≠ [] ∧ key = fs.root.stem (Path.join path entry.name)

theorem ensures_removeStem (path : Path) :
    (fs.removePlaceholder path).Ensures (Memory.may fallible) memory
      (Deleted fallible (fun key => key ≠ [] ∧ key = fs.root.stem path) memory) := by
  unfold removePlaceholder
  dsimp only
  split
  · rename_i bare
    refine (Deleted.nothing memory).congr fun key => iff_of_false id ?_
    rintro ⟨given, rfl⟩
    exact given bare
  · rename_i given
    refine Returns.bind (Memory.returns_status fallible memory _) ?_
    rintro status later ⟨rfl, rfl | ⟨hit, rfl⟩⟩
    · cases found : later.status (fs.root.stem path) with
      | none =>
        refine ⟨fun _ => .inl rfl, ?_, nofun⟩
        rintro _ _ _ ⟨_, rfl⟩ present
        rw [← status_isSome, found] at present
        cases present
      | some status =>
        refine Ensures.mono (ensures_delete (Deleted.nothing _)) fun _ _ deleted =>
          deleted.congr fun key => ?_
        rw [or_false, and_iff_right_of_imp]
        rintro rfl
        exact given
    · exact ⟨fun _ => .inl rfl, fun _ truthful => absurd hit (truthful _), nofun⟩

theorem ensures_removeEntry (entry : Entry) :
    (fs.removeEntry path entry).Ensures (Memory.may fallible) memory
      (Deleted fallible (fs.Doomed path entry) memory) := by
  obtain ⟨name, isDirectory⟩ := entry
  cases isDirectory with
  | false =>
    refine Ensures.mono (ensures_delete (Deleted.nothing _)) fun _ _ deleted =>
      deleted.congr fun key => ?_
    simp [Doomed]
  | true =>
    refine Ensures.mono (ensures_delete (Ensures.notify (ensures_removeStem _)))
      fun _ _ deleted => deleted.congr fun key => ?_
    simp [Doomed]

theorem ensures_removeEntries (entries : List Entry) :
    (entries.forM (fs.removeEntry path)).Ensures (Memory.may fallible) memory
      (Deleted fallible (fun key => ∃ entry ∈ entries, fs.Doomed path entry key) memory) := by
  induction entries generalizing memory with
  | nil => exact (Deleted.nothing memory).congr (by simp)
  | cons entry later ih =>
    have joins : ∀ key, (fs.Doomed path entry key ∨ ∃ entry ∈ later, fs.Doomed path entry key) ↔
        ∃ other ∈ entry :: later, fs.Doomed path other key := by simp
    exact Ensures.mono (Deleted.bind (ensures_removeEntry entry) fun middle => ih)
      fun _ _ deleted => deleted.congr joins

section
variable (proper : fs.Proper) (plain : Path.Plain fs.suffix path)
include proper plain

theorem ensures_removePlaceholder :
    (fs.removePlaceholder path).Ensures (Memory.may fallible) memory
      (Deleted fallible (· = path ++ [separator]) memory) := by
  refine Ensures.mono (ensures_removeStem path) fun _ _ deleted => deleted.congr fun key => ?_
  rw [proper.stem_plain plain, and_iff_right_of_imp]
  rintro rfl
  simp

theorem doomed_iff {entry : Entry} (named : Path.Plain fs.suffix entry.name) {key : Key} :
    fs.Doomed path entry key ↔ entry.Stands fs.suffix path key := by
  have below : Path.Plain fs.suffix (path ++ separator :: entry.name) :=
    Path.Plain.append_iff.mpr ⟨plain, named⟩
  rw [Doomed, entryKey, plain.join_eq named, proper.relative_plain below, proper.stem_plain below]
  obtain ⟨name, isDirectory⟩ := entry
  cases isDirectory with
  | false => simp [Entry.Stands]
  | true =>
    rw [if_pos rfl, markerOf, below.dropSeparator_eq, Entry.Stands, if_pos rfl]
    refine or_congr_right ⟨fun doomed => doomed.2.2, ?_⟩
    rintro rfl
    exact ⟨rfl, by simp, rfl⟩

theorem ensures_removeNamed (entries : List Entry)
    (named : ∀ entry ∈ entries, Path.Plain fs.suffix entry.name) :
    (entries.forM (fs.removeEntry path)).Ensures (Memory.may fallible) memory
      (Deleted fallible (fun key => ∃ entry ∈ entries, entry.Stands fs.suffix path key)
        memory) := by
  refine Ensures.mono (ensures_removeEntries entries) fun _ _ deleted => deleted.congr fun key => ?_
  exact exists_congr fun entry => and_congr_right fun member =>
    doomed_iff proper plain (named entry member)

/-- Everything that goes once the names below a directory are known. -/
def Sentenced (fs : FileSystem) (path : Path) (entries : List Entry) (key : Key) : Prop :=
  (∃ entry ∈ entries, entry.Stands fs.suffix path key) ∨
    key = path ++ [separator] ∨ key = path ++ fs.suffix

theorem ensures_removeListed (entries : List Entry)
    (named : ∀ entry ∈ entries, Path.Plain fs.suffix entry.name) :
    ((entries.forM (fs.removeEntry path)).bind fun _ =>
        (fs.removePlaceholder path).bind fun _ => fs.removeMarker path).Ensures
      (Memory.may fallible) memory (Deleted fallible (fs.Sentenced path entries) memory) := by
  refine Deleted.bind (ensures_removeNamed proper plain entries named) fun middle => ?_
  refine Deleted.bind (ensures_removePlaceholder proper plain) fun middle => ?_
  rw [removeMarker, proper.markerKey_plain plain]
  exact Ensures.mono (ensures_delete (Deleted.nothing _)) fun _ _ deleted =>
    deleted.congr fun key => iff_of_eq (or_false _)

/-- What a listing leaves that a directory has to have. -/
structure Gathered (fs : FileSystem) (fallible : Store.Request Memory.Cursor → Prop)
    (path : Path) (recursive : Bool) (before : Memory)
    (result : Except Failure (List Entry)) (after : Memory) : Prop where
  heals : Heals fs.suffix path before.contents after.contents
  flat : recursive = true → ∀ key, key ≠ path ++ fs.suffix →
    after.contents[key]? = before.contents[key]?
  listed : ∀ children, result = .ok children → path ++ fs.suffix ∈ after.contents ∧
    Merged children (before.contents.Shown fs.suffix (path ++ [separator]) !recursive)
  stopped : ∀ failure, result = .error failure →
    before.contents.HasDirectory fs.suffix path → fs.Obstructed fallible before.contents path

omit proper plain in
/-- A recursive listing changes at most the marker of its own directory. -/
theorem Gathered.same_or_fresh {result : Except Failure (List Entry)} {after : Memory}
    (gathered : Gathered fs fallible path true memory result after) (key : Key) :
    after.contents[key]? = memory.contents[key]? ∨ after.contents[key]? = some [] ∧
      key = path ++ fs.suffix ∧ memory.contents.Under path := by
  by_cases other : key = path ++ fs.suffix
  · rcases gathered.heals key with same | ⟨fresh, healed, _, under, marker, _⟩
    · exact .inl same
    · rw [other] at marker
      rw [← List.append_cancel_right marker] at under
      exact .inr ⟨fresh, other, under⟩
  · exact .inl (gathered.flat rfl key other)

theorem ensures_requireChildren (neat : memory.contents.Neat fs.suffix) (recursive : Bool) :
    (fs.requireChildren path recursive).Ensures (Memory.may fallible) memory
      (Gathered fs fallible path recursive memory) := by
  refine Ensures.bind (ensures_children proper plain neat recursive) ?_ ?_
  · rintro (_ | children) later enumerated
    · exact ⟨enumerated.heals, enumerated.flat, nofun, fun _ _ there =>
        .inl ((enumerated.absent rfl).1 there)⟩
    · refine ⟨enumerated.heals, enumerated.flat, ?_, nofun⟩
      rintro _ ⟨⟩
      exact enumerated.listed children rfl
  · rintro failure later enumerated
    exact ⟨enumerated.heals, enumerated.flat, nofun, fun _ _ _ => enumerated.stopped failure rfl⟩

/-- What a recursive removal leaves. It touches only keys that the directory holds, and
of these no file whose name it takes for a directory; all the others are gone once it has
succeeded. -/
structure Emptied (fs : FileSystem) (fallible : Store.Request Memory.Cursor → Prop) (path : Path)
    (before : Memory) (result : Except Failure Unit) (after : Memory) : Prop where
  keeps : ∀ key : Key, after.contents[key]? = before.contents[key]? ∨
    path.Holds fs.suffix key ∧ (key ∉ after.contents ∨
      after.contents[key]? = some [] ∧ key = path ++ fs.suffix ∧ before.contents.Under path)
  spares : ∀ key, Path.Plain fs.suffix key → before.contents.Obscured fs.suffix key →
    after.contents[key]? = before.contents[key]?
  gone : result = .ok () → (∀ key, ¬ fallible (.status key)) → ∀ key, path.Holds fs.suffix key →
    ¬ (Path.Plain fs.suffix key ∧ before.contents.Obscured fs.suffix key) → key ∉ after.contents
  there : result = .ok () → before.contents.HasDirectory fs.suffix path
  stopped : ∀ failure, result = .error failure → before.contents.HasDirectory fs.suffix path →
    fs.Obstructed fallible before.contents path

omit proper plain in
theorem Sentenced.holds {children : List Entry} {key : Key}
    (sentenced : fs.Sentenced path children key) : path.Holds fs.suffix key := by
  rcases sentenced with ⟨entry, _, stands⟩ | rfl | rfl
  · exact .below stands.below
  · exact .below (List.prefix_refl _)
  · exact .marker

omit plain in
/-- No file goes whose name the listing takes for a directory. -/
theorem not_sentenced {children : List Entry} {contents : Contents} {key : Key}
    (neat : contents.Neat fs.suffix)
    (merged : Merged children (contents.Shown fs.suffix (path ++ [separator]) false))
    (file : Path.Plain fs.suffix key) (obscured : contents.Obscured fs.suffix key) :
    ¬ fs.Sentenced path children key := by
  have whole := proper.suffix_whole
  rintro (⟨⟨name, isDirectory⟩, member, stands⟩ | rfl | rfl)
  · cases isDirectory with
    | false =>
      have visible := (merged.recursive_file_iff whole proper.suffix_ne_nil neat).mp member
      exact visible.2.2 (stands ▸ obscured)
    | true =>
      rcases stands with rfl | rfl
      · exact marker_ne whole file _ rfl
      · exact stem_ne file _ rfl
  · exact stem_ne file path rfl
  · exact marker_ne whole file path rfl

/-- Every other key that the directory holds goes. -/
theorem sentenced_of_holds {children : List Entry} {contents : Contents} {key : Key}
    (neat : contents.Neat fs.suffix)
    (merged : Merged children (contents.Shown fs.suffix (path ++ [separator]) false))
    (held : path.Holds fs.suffix key) (present : key ≠ path ++ fs.suffix → key ∈ contents)
    (free : ¬ (Path.Plain fs.suffix key ∧ contents.Obscured fs.suffix key)) :
    fs.Sentenced path children key := by
  have whole := proper.suffix_whole
  have given := proper.suffix_ne_nil
  rcases held with rfl | below
  · exact .inr (.inr rfl)
  · have stored : key ∈ contents := by
      apply present
      rintro rfl
      exact not_stem_prefix_marker whole below
    rcases neat.below whole stored below with rfl | ⟨rest, named, kind⟩
    · exact .inr (.inl rfl)
    · rcases kind with rfl | marker
      · have file := Path.Plain.append_iff.mpr ⟨plain, named⟩
        refine .inl ⟨⟨rest, false⟩, ?_, rfl⟩
        exact (merged.recursive_file_iff whole given neat).mpr
          ⟨named, stored, fun obscured => free ⟨file, obscured⟩⟩
      · refine .inl ⟨⟨rest, true⟩, ?_, marker⟩
        refine (merged.recursive_directory_iff whole given neat).mpr ⟨named, ?_⟩
        rcases marker with rfl | rfl
        · exact .inl stored
        · exact .inr stored

theorem emptied_of_deleted {listed after : Memory} {children : List Entry}
    {result : Except Failure Unit} (neat : memory.contents.Neat fs.suffix)
    (gathered : Gathered fs fallible path true memory (.ok children) listed)
    (deleted : Deleted fallible (fs.Sentenced path children) listed result after) :
    Emptied fs fallible path memory result after := by
  obtain ⟨marked, merged⟩ := gathered.listed children rfl
  constructor
  · intro key
    rcases deleted.keeps key with same | ⟨sentenced, absent⟩
    · rw [same]
      exact (gathered.same_or_fresh key).imp_right fun fresh => ⟨.inl fresh.2.1, .inr fresh⟩
    · exact .inr ⟨sentenced.holds, .inl absent⟩
  · intro key file obscured
    rcases deleted.keeps key with same | ⟨sentenced, _⟩
    · exact same.trans (gathered.flat rfl key (marker_ne proper.suffix_whole file path).symm)
    · exact absurd sentenced (not_sentenced proper neat merged file obscured)
  · intro ok truthful key held free remains
    refine deleted.gone ok truthful key ?_ remains
    refine sentenced_of_holds proper plain neat merged held (fun other => ?_) free
    exact (Contents.mem_of_lookup_eq (gathered.flat rfl key other)).mp (deleted.mem remains)
  · exact fun _ => (gathered.heals.hasDirectory_iff proper.suffix_whole).mp (.inl marked)
  · exact fun failure failed _ => .inl (deleted.stopped failure failed)

theorem ensures_removeDirectory (neat : memory.contents.Neat fs.suffix) :
    (fs.removeDirectory path true).Ensures (Memory.may fallible) memory
      (Emptied fs fallible path memory) := by
  rw [removeDirectory, removeBelow, Program.bind_eq_bind, Program.bind_eq_bind,
    Program.bind_assoc]
  refine Ensures.bind (ensures_requireChildren proper plain neat true) ?_ ?_
  · intro children listed gathered
    obtain ⟨_, merged⟩ := gathered.listed children rfl
    refine Ensures.mono (ensures_removeListed proper plain children ?_) fun result after deleted =>
      emptied_of_deleted proper plain neat gathered deleted
    intro entry member
    obtain ⟨named, shown⟩ := merged.shown_of_mem member
    exact ((Contents.shown_recursive_iff proper.suffix_whole proper.suffix_ne_nil neat named).mp
      shown).1
  · intro failure listed gathered
    refine ⟨fun key => ?_, fun key file _ => ?_, nofun, nofun, ?_⟩
    · exact (gathered.same_or_fresh key).imp_right fun fresh => ⟨.inl fresh.2.1, .inr fresh⟩
    · exact gathered.flat rfl key (marker_ne proper.suffix_whole file path).symm
    · rintro _ ⟨⟩
      exact gathered.stopped failure rfl

end

namespace Emptied
variable {result : Except Failure Unit} {before after : Memory}
  (emptied : Emptied fs fallible path before result after)
include emptied

theorem outside {key : Key} (free : ¬ path.Holds fs.suffix key) :
    after.contents[key]? = before.contents[key]? := by
  rcases emptied.keeps key with same | ⟨held, _⟩
  · exact same
  · exact absurd held free

/-- A removal never makes up a key, but for the marker of a directory that was there. -/
theorem mem {key : Key} (present : key ∈ after.contents) : key ∈ before.contents ∨
    key = path ++ fs.suffix ∧ before.contents.Under path := by
  rcases emptied.keeps key with same | ⟨_, absent | ⟨_, fresh⟩⟩
  · exact .inl ((Contents.mem_of_lookup_eq same).mp present)
  · exact absurd present absent
  · exact .inr fresh

theorem hasDirectory (whole : separator ∉ fs.suffix) {other : Path}
    (there : after.contents.HasDirectory fs.suffix other) :
    before.contents.HasDirectory fs.suffix other := by
  rcases there with marked | ⟨key, present, below⟩
  · rcases emptied.mem marked with kept | ⟨same, under⟩
    · exact .inl kept
    · exact .inr (List.append_cancel_right same ▸ under)
  · rcases emptied.mem present with kept | ⟨rfl, deep, kept, inner⟩
    · exact .inr ⟨key, kept, below⟩
    · exact .inr ⟨deep, kept, stem_prefix_trans ((stem_prefix_marker whole).mp below) inner⟩

theorem tidy (plain : Path.Plain fs.suffix path) (tidy : before.contents.Tidy fs.suffix) :
    after.contents.Tidy fs.suffix := by
  intro key present
  rcases emptied.mem present with kept | ⟨rfl, _⟩
  · exact tidy key kept
  · exact ⟨path, plain, .inr (.inl rfl)⟩

theorem file (whole : separator ∉ fs.suffix) {key : Key} (file : Path.Plain fs.suffix key) :
    after.contents[key]? = before.contents[key]? ∨
      path ++ [separator] <+: key ∧ key ∉ after.contents := by
  rcases emptied.keeps key with same | ⟨held, absent | ⟨_, rfl, _⟩⟩
  · exact .inl same
  · rcases held with rfl | below
    · exact absurd rfl (marker_ne whole file path)
    · exact .inr ⟨below, absent⟩
  · exact absurd rfl (marker_ne whole file path)

end Emptied

/-- Where no file has to be spared, a removal takes away all that the directory holds. -/
theorem Emptied.rewrites {before after : Memory}
    (emptied : Emptied fs (fun _ => False) path before (.ok ()) after)
    (whole : separator ∉ fs.suffix)
    (clear : ∀ key ∈ before.contents, path ++ [separator] <+: key → Path.Plain fs.suffix key →
      ¬ before.contents.Obscured fs.suffix key) :
    Rewrites (path.Holds fs.suffix) (fun _ _ => False) before.contents after.contents where
  lands _ _ := False.elim
  lookup_iff key content := by
    by_cases held : path.Holds fs.suffix key
    · have gone : key ∉ after.contents := by
        intro remains
        refine emptied.gone rfl (fun _ => id) key held ?_ remains
        rintro ⟨file, obscured⟩
        have apart := marker_ne whole file path
        have present := (emptied.mem remains).resolve_right fun fresh => apart fresh.1.symm
        exact clear key present (held.resolve_left apart.symm) file obscured
      simp [held, Contents.not_mem_iff_lookup.mp gone]
    · simp [held, emptied.outside held]

end FileSystem
end KeyTree
