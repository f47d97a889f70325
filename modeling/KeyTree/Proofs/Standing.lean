import KeyTree.Proofs.Orderly
import KeyTree.Proofs.Relocation
import KeyTree.Proofs.Retention

/-!
Directories that stand by their markers. A directory with a marker stays one, whatever becomes of
what is below it, until it is deleted or renamed itself. Looking, making and writing leave no
directory without its marker, since nothing is put in but below directories. A rename asks for
nothing above its destination, so what it puts below a path that is no directory makes it one
without a marker, which goes with the last key below it.
-/
namespace KeyTree

open KeyTree.Path (separator)
open Program (Ensures Returns Keeps)

namespace Path
variable {suffix key : Key} {path other destination rest : Path}

/-- What holds a marker holds all that its directory holds. -/
theorem Holds.of_marker (whole : separator ∉ suffix) (outer : path.Holds suffix (other ++ suffix))
    (held : other.Holds suffix key) : path.Holds suffix key := by
  cases outer with
  | inl same => exact List.append_cancel_right same ▸ held
  | inr above =>
    have below := (stem_prefix_marker whole).mp above
    cases held with
    | inl marker => exact .below (marker ▸ below.trans (List.prefix_append _ _))
    | inr inside => exact .below (stem_prefix_trans below inside)

/-- What is above a path below the destination is above the destination, the destination itself or
between the two. -/
theorem above_cases (above : (destination ++ separator :: rest).Above path) :
    destination.Above path ∨ path = destination ∨
      ∃ outer inner, rest = outer ++ separator :: inner ∧ path = destination ++ separator :: outer := by
  have below : destination ++ [separator] <+: destination ++ separator :: rest := stem_prefix_append
  cases List.prefix_or_prefix_of_prefix above below with
  | inl outer =>
    cases stem_prefix_stem.mp outer with
    | inl same => exact .inr (.inl same)
    | inr further => exact .inl further
  | inr inner =>
    cases stem_prefix_stem.mp inner with
    | inl same => exact .inr (.inl same.symm)
    | inr further =>
      obtain ⟨outer, rfl⟩ := stem_prefix_iff.mp further
      obtain ⟨inner, same⟩ := stem_prefix_iff.mp above
      exact .inr (.inr ⟨outer, inner, by simpa using same, rfl⟩)

end Path

/-- A file is left below the path that was taken for a directory, as there was a marker or a
placeholder of its name. -/
def Contents.Overlooks (suffix : Key) (path : Path) (before after : Contents) : Prop :=
  ∃ file, Path.Plain suffix file ∧ file.Above path ∧ before.Obscured suffix file ∧ file ∈ after

/-- Orderly contents in which the path is no directory, or has its marker. -/
structure Contents.Standing (suffix : Key) (path : Path) (contents : Contents) : Prop
    extends Contents.Orderly suffix contents where
  marked : contents.HasDirectory suffix path → path ++ suffix ∈ contents

namespace Contents.Standing
variable {suffix key : Key} {path place : Path} {before after contents : Contents}

theorem heals (standing : before.Standing suffix path) (whole : separator ∉ suffix)
    (heals : Heals suffix place before after) : after.Standing suffix path where
  neat := heals.neat standing.neat
  hollow := heals.hollow standing.hollow
  marked there := heals.mem (standing.marked ((heals.hasDirectory_iff whole).mp there))

theorem erase (standing : contents.Standing suffix path) (other : key ≠ path ++ suffix) :
    Standing suffix path (contents.erase key) where
  toOrderly := {
    neat := (Stable.orderly suffix).erase key contents standing.toOrderly |>.neat
    hollow := (Stable.orderly suffix).erase key contents standing.toOrderly |>.hollow }
  marked there := by
    have kept : ∀ {stored : Key}, stored ∈ contents.erase key → stored ∈ contents := by
      intro stored present
      exact Std.ExtTreeMap.mem_of_mem_erase present
    have still := standing.marked (there.imp kept fun ⟨stored, present, below⟩ =>
      ⟨stored, kept present, below⟩)
    exact (mem_of_lookup_eq ((lookup_erase ..).trans (if_neg other))).mpr still

/-- Something may be put in anywhere but below a path that is no directory. -/
theorem insert (standing : contents.Standing suffix path) (whole : separator ∉ suffix)
    {content : Content} (fits : Fits suffix key content)
    (lodged : path ++ [separator] <+: key → contents.HasDirectory suffix path) :
    Standing suffix path (contents.insert key content) where
  toOrderly := standing.toOrderly.insert whole (.inr fits)
  marked there := by
    rw [Std.ExtTreeMap.mem_insert, Std.LawfulEqCmp.compare_eq_iff_eq]
    cases there with
    | inl marked => simpa [Std.ExtTreeMap.mem_insert] using marked
    | inr under =>
      obtain ⟨stored, present, below⟩ := under
      rw [Std.ExtTreeMap.mem_insert, Std.LawfulEqCmp.compare_eq_iff_eq] at present
      cases present with
      | inl same => exact .inr (standing.marked (lodged (same ▸ below)))
      | inr kept => exact .inr (standing.marked (.inr ⟨stored, kept, below⟩))

theorem insert_file (standing : contents.Standing suffix path) (whole : separator ∉ suffix)
    {file : Path} (plain : Path.Plain suffix file) (content : Content)
    (lodged : file.Above path → contents.HasDirectory suffix path) :
    Standing suffix path (contents.insert file content) :=
  standing.insert whole ⟨file, plain, .inl rfl⟩ lodged

end Contents.Standing

theorem Markable.standing {suffix : Key} {path : Path} (whole : separator ∉ suffix)
    (plain : Path.Plain suffix path) : Markable suffix (Contents.Standing suffix path) where
  neat standing := standing.neat
  marks standing marks := {
    neat := marks.neat standing.neat
    hollow := marks.hollow standing.hollow
    marked := fun there =>
      (marks.marked_or whole plain there).elim (fun old => marks.mem (standing.marked old)) id }

/-- Where a directory went, it stands by the markers that arrived, and nothing is left of it. -/
theorem Moved.standing {suffix : Key} {source destination path : Path} {before after : Contents}
    (moved : Moved suffix source destination before after) (whole : separator ∉ suffix)
    (new : Path.Plain suffix destination) (plain : Path.Plain suffix path)
    (free : ¬ destination.Above path) (standing : before.Standing suffix path) :
    after.Standing suffix path := by
  obtain ⟨neat, hollow⟩ := Rewrites.orderly moved whole (fun _ _ arrives => arrives.fits new)
    standing.neat standing.hollow
  refine ⟨⟨neat, hollow⟩, fun there => ?_⟩
  have arrived : ∀ {key : Key} {content : Content},
      Arrives suffix source destination before key content → key ∈ after := by
    intro key content arrives
    exact Contents.mem_iff_lookup.mpr ⟨content, (moved.lookup_iff key content).mpr (.inr arrives)⟩
  -- A directory that arrived brought the markers of those between it and the destination.
  have between : ∀ {rest : Path}, Path.Plain suffix rest →
      (∀ outer inner, rest = outer ++ separator :: inner →
        before.HasDirectory suffix (source ++ separator :: outer)) →
      (destination ++ separator :: rest).Above path → path ++ suffix ∈ after := by
    intro rest named filled above
    rcases Path.above_cases above with higher | rfl | ⟨outer, inner, rfl, rfl⟩
    · exact absurd higher free
    · exact arrived .marker
    · exact arrived (.directory (Path.Plain.append_iff.mp named).1 (filled outer inner rfl))
  obtain ⟨key, present, held⟩ : ∃ key ∈ after, path.Holds suffix key := by
    cases there with
    | inl marked => exact ⟨_, marked, .marker⟩
    | inr under =>
      obtain ⟨key, present, below⟩ := under
      exact ⟨key, present, .below below⟩
  rcases moved.mem present with ⟨outside, old⟩ | ⟨content, arrives⟩
  · have marked := standing.marked (Contents.hasDirectory_of_holds old held)
    refine (Contents.mem_of_lookup_eq (moved.same fun inside => outside ?_)).mpr marked
    exact inside.imp (fun outer => outer.of_marker whole held) fun outer => outer.of_marker whole held
  · cases held with
    | inl marker => exact marker ▸ present
    | inr below =>
      cases arrives with
      | marker => exact absurd ((stem_prefix_marker whole).mp below) free
      | file named stored _ =>
        apply between named _ below
        rintro outer inner rfl
        exact .inr ⟨_, Contents.mem_iff_lookup.mpr ⟨_, stored⟩, ⟨inner, by simp⟩⟩
      | directory named there =>
        apply between named _ ((stem_prefix_marker whole).mp below)
        rintro outer inner rfl
        exact there.above ⟨inner, by simp⟩

namespace FileSystem
variable {fs : FileSystem} {memory : Memory} {path place source destination : Path}

/-- What a removal leaves where nothing fails: all that was there, or of what the directory held
only files whose names have a marker or a placeholder. -/
structure Cleared (suffix : Key) (path : Path) (recursive : Bool) (before : Memory)
    (result : Except Failure Unit) (after : Memory) : Prop where
  left : result = .ok () → ∀ key ∈ after.contents, path.Holds suffix key →
    recursive = true ∧ Path.Plain suffix key ∧ key ∈ before.contents ∧
      before.contents.Obscured suffix key
  stopped : ∀ failure, result = .error failure →
    Heals suffix path before.contents after.contents

variable (proper : fs.Proper)
include proper

/-- A directory of which nothing is listed holds its marker and its placeholder only. -/
theorem unlisted_sentenced (plain : Path.Plain fs.suffix path) {listed : Contents} {key : Key}
    (neat : memory.contents.Neat fs.suffix) (heals : Heals fs.suffix path memory.contents listed)
    (merged : Merged [] (memory.contents.Shown fs.suffix (path ++ [separator]) true))
    (present : key ∈ listed) (held : path.Holds fs.suffix key) : fs.Sentenced path [] key := by
  have whole := proper.suffix_whole
  have given := proper.suffix_ne_nil
  cases held with
  | inl marker => exact .inr (.inr marker)
  | inr below =>
    rcases (heals.neat neat).child whole present below with
      placeholder | ⟨name, first, named, kind⟩
    · exact .inr (.inl placeholder)
    · have there : ¬ memory.contents.HasDirectory fs.suffix (path ++ separator :: name) :=
        fun there => nomatch (merged.grouped_directory_iff whole given neat).mpr ⟨first, named, there⟩
      have file : path ++ separator :: name ∉ memory.contents := fun stored =>
        nomatch (merged.grouped_file_iff whole given neat).mpr ⟨first, named, stored, there⟩
      rcases kind with rfl | inner
      · have same := heals.file whole (Path.Plain.append_iff.mpr ⟨plain, named⟩)
        exact absurd ((Contents.mem_of_lookup_eq same).mp present) file
      · have found := Contents.hasDirectory_of_holds present inner
        exact absurd ((heals.hasDirectory_iff whole).mp found) there

theorem ensures_removeDirectory_cleared (plain : Path.Plain fs.suffix path)
    (neat : memory.contents.Neat fs.suffix) (recursive : Bool) :
    (fs.removeDirectory path recursive).Ensures (Memory.may fun _ => False) memory
      (Cleared fs.suffix path recursive memory) := by
  have whole := proper.suffix_whole
  have given := proper.suffix_ne_nil
  rw [removeDirectory, removeBelow, Program.bind_eq_bind, Program.bind_eq_bind,
    Program.bind_assoc]
  apply Ensures.bind (ensures_requireChildren proper plain neat recursive)
  · intro children listed gathered
    obtain ⟨_, merged⟩ := gathered.listed children rfl
    cases recursive with
    | true =>
      apply Ensures.mono (ensures_removeListed proper plain children fun entry member => ?_)
      · intro result after deleted
        have emptied := emptied_of_deleted proper plain neat gathered deleted
        refine ⟨fun ok key present held => ?_, fun failure failed => ?_⟩
        · by_contra lost
          apply emptied.gone ok (fun _ => id) key held _ present
          intro file
          have old := (emptied.mem present).resolve_right fun fresh =>
            marker_ne whole file.1 path fresh.1.symm
          exact lost ⟨rfl, file.1, old, file.2⟩
        · exact (deleted.stopped failure failed).elim fun _ => False.elim
      · obtain ⟨named, shown⟩ := merged.shown_of_mem member
        exact ((Contents.shown_recursive_iff whole given neat named).mp shown).1
    | false =>
      rw [if_neg Bool.false_ne_true]
      split
      · rename_i bare
        subst bare
        apply Ensures.mono (ensures_removeListed proper plain [] (by simp))
        intro result after deleted
        refine ⟨fun ok key present held => ?_, fun failure failed => ?_⟩
        · have spared : ¬ fs.Sentenced path [] key := fun sentenced =>
            deleted.gone ok (fun _ => id) key sentenced present
          exact absurd (unlisted_sentenced proper plain neat gathered.heals merged
            (deleted.mem present) held) spared
        · exact (deleted.stopped failure failed).elim fun _ => False.elim
      · exact ⟨by simp, fun _ _ => gathered.heals⟩
  · intro failure listed gathered
    exact ⟨by simp, fun _ _ => gathered.heals⟩

section keeps
variable (named : Path.Plain fs.suffix path)
include named

theorem standing_writeFile (plain : Path.Plain fs.suffix place) (contents : List Content) :
    Keeps (Contents.Standing fs.suffix path) (fs.writeFile place contents) := by
  have whole := proper.suffix_whole
  intro memory standing
  apply Ensures.mono (ensures_writeFile proper plain contents)
  intro result later wrote
  obtain ⟨made, marks, ends⟩ := wrote
  have kept := (Markable.standing whole named).marks standing marks
  cases ends with
  | inl refused => exact refused.2.2 ▸ kept
  | inr stored => exact stored.2.2 ▸ kept.insert_file whole plain _ (stored.2.1 path named)

theorem standing_moveFile (old : Path.Plain fs.suffix source)
    (new : Path.Plain fs.suffix destination) (free : ¬ destination.Above path) :
    Keeps (Contents.Standing fs.suffix path) (fs.moveFile source destination) := by
  have whole := proper.suffix_whole
  apply keeps_moveTo proper (.standing whole named) (.inl new)
  · intro contents content standing
    rw [proper.relative_plain new]
    exact standing.insert_file whole new content fun above => absurd above free
  · intro contents standing
    rw [proper.relative_plain old]
    exact standing.erase (marker_ne whole old path).symm

/-- A removal of the directory or of one above it leaves nothing of it without its marker, but for
files that it overlooks. -/
theorem standing_removeDirectory (plain : Path.Plain fs.suffix place) (recursive : Bool)
    (standing : memory.contents.Standing fs.suffix path) :
    (fs.removeDirectory place recursive).Ensures (Memory.may fun _ => False) memory
      fun _ later =>
        (recursive = true → path.UpTo place → path ++ fs.suffix ∉ later.contents →
          ¬ memory.contents.Overlooks fs.suffix path later.contents) →
        later.contents.Standing fs.suffix path := by
  have whole := proper.suffix_whole
  by_cases inside : path.UpTo place
  · have held : place.Holds fs.suffix (path ++ fs.suffix) := by
      cases inside with
      | inl same => exact .inl (by rw [same])
      | inr above => exact .below ((stem_prefix_marker whole).mpr above)
    apply Ensures.mono ((ensures_removeDirectory_cleared proper plain standing.neat recursive).and
      (keeps_removeDirectory proper (.orderly fs.suffix) (.inl plain) recursive memory
        standing.toOrderly))
    intro result later both heeded
    obtain ⟨cleared, orderly⟩ := both
    cases result with
    | error failure => exact standing.heals whole (cleared.stopped failure rfl)
    | ok value =>
      refine ⟨orderly, fun there => ?_⟩
      by_contra bare
      obtain ⟨key, present, below⟩ := there.resolve_left bare
      obtain ⟨deep, file, _, obscured⟩ :=
        cleared.left rfl key present (held.of_marker whole (.below below))
      exact heeded deep inside bare ⟨key, file, below, obscured, present⟩
  · have keeps : Keeps (Contents.Standing fs.suffix path) (fs.removeDirectory place recursive) := by
      apply keeps_removeHeld proper (.standing whole named) plain
      intro contents key holds held
      apply holds.erase
      rintro rfl
      apply inside
      cases held with
      | inl same => exact .inl (List.append_cancel_right same).symm
      | inr below => exact .inr ((stem_prefix_marker whole).mp below)
    exact Ensures.mono (keeps memory standing) fun _ _ kept _ => kept

omit named in
theorem standing_copyMarker (old : Path.Plain fs.suffix source)
    (new : Path.Plain fs.suffix destination) (free : ¬ destination.Above path) :
    Keeps (Contents.Standing fs.suffix path) (fs.copyMarker source destination) := by
  have whole := proper.suffix_whole
  rw [copyMarker, proper.markerKey_plain old, proper.markerKey_plain new]
  apply Keeps.bind (.copy fun contents content standing stored => ?_)
  · exact fun _ => .ite (.done ()) (.fail _)
  · have bare := standing.hollow source old _ (.inl rfl) content stored
    apply standing.insert whole ⟨destination, new, .inr ⟨.inl rfl, bare⟩⟩
    exact fun above => absurd ((stem_prefix_marker whole).mp above) free

/-- The children are moved to where the path holds nothing. -/
theorem standing_moveEntry {depth : Nat} {entry : Entry} (old : Path.Plain fs.suffix source)
    (new : Path.Plain fs.suffix destination) (child : Path.Plain fs.suffix entry.name)
    (first : separator ∉ entry.name) (other : path ≠ destination) (free : ¬ destination.Above path)
    (nested : ∀ {source destination : Path}, Path.Plain fs.suffix source →
      Path.Plain fs.suffix destination → ¬ destination.Above path →
      Keeps (Contents.Standing fs.suffix path) (fs.moveDirectory depth source destination)) :
    Keeps (Contents.Standing fs.suffix path) (fs.moveEntry depth source destination entry) := by
  have oldChild := Path.Plain.append_iff.mpr ⟨old, child⟩
  have newChild := Path.Plain.append_iff.mpr ⟨new, child⟩
  have freeChild : ¬ (destination ++ separator :: entry.name).Above path := by
    intro above
    cases stem_prefix_stem.mp ((stem_prefix_child first).mp above) with
    | inl same => exact other same
    | inr above => exact free above
  rw [moveEntry, old.join_eq child, new.join_eq child]
  exact Keeps.ite (nested oldChild newChild freeChild)
    (standing_moveFile proper named oldChild newChild freeChild)

/-- Whatever is moved below a destination that has its marker, and whatever is moved elsewhere,
the path stands until the source is removed. -/
theorem standing_moveListed {depth : Nat} {children : List Entry}
    (old : Path.Plain fs.suffix source) (new : Path.Plain fs.suffix destination)
    (each : ∀ entry ∈ children, separator ∉ entry.name ∧ Path.Plain fs.suffix entry.name)
    (outside : ¬ source ++ [separator] <+: destination ++ [separator])
    (free : ¬ destination.Above path)
    (nested : ∀ {source destination : Path}, Path.Plain fs.suffix source →
      Path.Plain fs.suffix destination → ¬ destination.Above path →
      Keeps (Contents.Standing fs.suffix path) (fs.moveDirectory depth source destination))
    (standing : memory.contents.Standing fs.suffix path)
    (marked : path = destination → path ++ fs.suffix ∈ memory.contents) :
    ((children.forM (fs.moveEntry depth source destination)).bind fun _ =>
        fs.removeDirectory source true).Ensures (Memory.may fun _ => False) memory
      fun result later => ∀ failure, result = .error failure →
        later.contents.Standing fs.suffix path := by
  have whole := proper.suffix_whole
  by_cases here : path = destination
  · subst here
    have spared : ¬ source.Holds fs.suffix (path ++ fs.suffix) := by
      intro held
      apply outside
      cases held with
      | inl same => exact List.append_cancel_right same ▸ List.prefix_refl _
      | inr below => exact stem_prefix_stem.mpr (.inr ((stem_prefix_marker whole).mp below))
    have plain := fun entry member => (each entry member).2
    have retains := keeps_moveListed proper old new plain (.retains spared path)
      (fun old new => keeps_moveDirectory proper old new depth) memory
      ⟨standing.neat, marked rfl⟩
    have orderly := keeps_moveListed proper old new plain (.orderly whole source path)
      (fun old new => keeps_moveDirectory proper old new depth) memory standing.toOrderly
    apply Ensures.mono (retains.and orderly)
    exact fun _ _ both _ _ => ⟨both.2, fun _ => both.1.present⟩
  · have moves : Keeps (Contents.Standing fs.suffix path)
        (children.forM (fs.moveEntry depth source destination)) := by
      apply Keeps.forM
      intro entry member
      exact standing_moveEntry proper named old new (each entry member).2 (each entry member).1
        here free nested
    apply Ensures.bind (moves memory standing)
    · intro _ later kept
      apply Ensures.mono (ensures_removeDirectory_cleared proper old kept.neat true)
      exact fun result final cleared failure failed =>
        kept.heals whole (cleared.stopped failure failed)
    · exact fun _ _ kept _ _ => kept

/-- A move whose destination is not below the path leaves it no directory, or one with its marker:
nothing is lost where it breaks off but files that were moved, and whole directories. -/
theorem standing_moveDirectory (old : Path.Plain fs.suffix source)
    (new : Path.Plain fs.suffix destination) (free : ¬ destination.Above path) (depth : Nat) :
    Keeps (Contents.Standing fs.suffix path) (fs.moveDirectory depth source destination) := by
  have whole := proper.suffix_whole
  have given := proper.suffix_ne_nil
  have markable := Markable.standing whole named
  induction depth generalizing source destination with
  | zero => exact .fail _
  | succ depth ih =>
    intro memory standing
    have broken : (fs.moveDirectory (depth + 1) source destination).Ensures
        (Memory.may fun _ => False) memory fun result later =>
          ∀ failure, result = .error failure → later.contents.Standing fs.suffix path := by
      rw [moveDirectory_succ]
      split
      · exact fun _ _ => standing
      rename_i outside
      rw [proper.stem_plain old, proper.stem_plain new] at outside
      apply Ensures.bind ((ensures_requireChildren proper old standing.neat false).and
        (keeps_requireChildren proper markable (.inl old) false memory standing))
      · intro children listed both
        obtain ⟨gathered, kept⟩ := both
        obtain ⟨_, merged⟩ := gathered.listed children rfl
        have named_each : ∀ entry ∈ children, separator ∉ entry.name ∧
            Path.Plain fs.suffix entry.name := by
          intro entry member
          obtain ⟨plain, shown⟩ := merged.shown_of_mem member
          have there := (Contents.shown_grouped_iff whole given standing.neat plain).mp shown
          exact ⟨there.1, there.2.1⟩
        apply Ensures.bind (keeps_requireAbsent proper markable (.inl new) listed kept)
        · intro _ reached still
          apply Ensures.bind ((ensures_copyMarker proper old new).and
            (standing_copyMarker proper old new free reached still))
          · intro _ copied both
            obtain ⟨copies, holds⟩ := both
            apply standing_moveListed proper named old new named_each outside free ih holds
            rintro rfl
            rcases copies with ⟨_, content, _, rfl⟩ | ⟨⟨_, ⟨⟩⟩, _⟩
            exact Std.ExtTreeMap.mem_insert_self
          · exact fun _ _ both _ _ => both.2
        · exact fun _ _ kept _ _ => kept
      · exact fun _ _ both _ _ => both.2
    apply Ensures.mono ((ensures_moveDirectory proper _ old new standing.neat standing.hollow).and
      broken)
    intro result later both
    obtain ⟨relocated, stopped⟩ := both
    cases result with
    | ok value => exact (relocated.moved rfl).2.standing whole new named free standing
    | error failure => exact stopped failure rfl

end keeps

end FileSystem
end KeyTree
