import KeyTree.Proofs.Removal
import KeyTree.Proofs.Steps

/-!
What an interrupted move conserves. Each file of the source is at its old place or at its
new one, and every other file is where it was. The move as a whole starts from one
directory, its origin; nothing ever arrives below it, so what is removed there has been
seen before. This holds of each step of a move, and of one such step after another.
-/
namespace KeyTree

open KeyTree.Path (separator)

/-- A step of a move from below the origin leaves every file at its old or its new place. -/
structure Conserved (suffix : Key) (origin source destination : Path)
    (before after : Contents) : Prop where
  kept : ∀ rest content, Path.Plain suffix rest →
    before[source ++ separator :: rest]? = some content →
    after[source ++ separator :: rest]? = some content ∨
      after[destination ++ separator :: rest]? = some content ∧
        ¬ origin ++ [separator] <+: destination ++ separator :: rest
  outside : ∀ key content, Path.Plain suffix key → ¬ source ++ [separator] <+: key →
    before[key]? = some content → after[key]? = some content
  arrivals : ∀ key, Path.Plain suffix key → origin ++ [separator] <+: key → key ∈ after →
    after[key]? = before[key]?
  directories : ∀ path, origin ++ [separator] <+: path ++ [separator] →
    after.HasDirectory suffix path → before.HasDirectory suffix path
  tidy : before.Tidy suffix → after.Tidy suffix

/-- No path below the origin is both a file and a directory. -/
def Contents.ApartBelow (suffix : Key) (origin : Path) (contents : Contents) : Prop :=
  ∀ path, Path.Plain suffix path → origin ++ [separator] <+: path → path ∈ contents →
    ¬ contents.HasDirectory suffix path

namespace Conserved
variable {suffix : Key} {origin source destination name : Path} {before middle after : Contents}

/-- Changes of markers and placeholders alone conserve. -/
theorem of_files (files : ∀ key, Path.Plain suffix key → after[key]? = before[key]?)
    (old : Path.Plain suffix source)
    (directories : ∀ path, origin ++ [separator] <+: path ++ [separator] →
      after.HasDirectory suffix path → before.HasDirectory suffix path)
    (tidy : before.Tidy suffix → after.Tidy suffix) :
    Conserved suffix origin source destination before after where
  kept _ _ named stored :=
    .inl ((files _ (Path.Plain.append_iff.mpr ⟨old, named⟩)).trans stored)
  outside key _ plain _ stored := (files key plain).trans stored
  arrivals key plain _ _ := files key plain
  directories := directories
  tidy := tidy

theorem of_heals {place : Path} (whole : separator ∉ suffix) (old : Path.Plain suffix source)
    (heals : Heals suffix place before after) :
    Conserved suffix origin source destination before after :=
  of_files (fun _ plain => heals.file whole plain) old
    (fun _ _ => (heals.hasDirectory_iff whole).mp) heals.tidy

theorem refl (old : Path.Plain suffix source) (contents : Contents) :
    Conserved suffix origin source destination contents contents :=
  of_files (fun _ _ => rfl) old (fun _ _ => id) id

theorem trans (new : Path.Plain suffix destination)
    (within : origin ++ [separator] <+: source ++ [separator])
    (first : Conserved suffix origin source destination before middle)
    (second : Conserved suffix origin source destination middle after) :
    Conserved suffix origin source destination before after where
  kept rest content named stored := by
    rcases first.kept rest content named stored with here | ⟨moved, away⟩
    · exact second.kept rest content named here
    · refine .inr ⟨second.outside _ content (Path.Plain.append_iff.mpr ⟨new, named⟩) ?_ moved, away⟩
      exact fun below => away (within.trans below)
  outside key content plain free stored :=
    second.outside key content plain free (first.outside key content plain free stored)
  arrivals key plain below present := by
    have same := second.arrivals key plain below present
    exact same.trans
      (first.arrivals key plain below ((Contents.mem_of_lookup_eq same).mp present))
  directories path within there := first.directories path within (second.directories path within there)
  tidy ordered := second.tidy (first.tidy ordered)

/-- Moving a child conserves what the directory holds. -/
theorem widen (old : Path.Plain suffix source)
    (conserved : Conserved suffix origin (source ++ separator :: name)
      (destination ++ separator :: name) before after) :
    Conserved suffix origin source destination before after where
  kept rest content named stored := by
    by_cases below : source ++ separator :: name ++ [separator] <+: source ++ separator :: rest
    · obtain ⟨deep, same⟩ := stem_prefix_iff.mp below
      rw [List.append_assoc, List.cons_append, List.append_cancel_left_eq, List.cons.injEq] at same
      obtain rfl := same.2
      have inner := (Path.Plain.append_iff.mp named).2
      have kept := conserved.kept deep content inner
      simp only [List.append_assoc, List.cons_append] at kept
      exact kept stored
    · exact .inl (conserved.outside _ content (Path.Plain.append_iff.mpr ⟨old, named⟩) below stored)
  outside key content plain free stored :=
    conserved.outside key content plain (fun below => free (stem_prefix_trans stem_prefix_append below))
      stored
  arrivals := conserved.arrivals
  directories := conserved.directories
  tidy := conserved.tidy

theorem apartBelow (conserved : Conserved suffix origin source destination before after)
    (apart : before.ApartBelow suffix origin) : after.ApartBelow suffix origin := by
  intro path plain below present there
  have same := conserved.arrivals path plain below present
  exact apart path plain below ((Contents.mem_of_lookup_eq same).mp present)
    (conserved.directories path (stem_prefix_stem.mpr (.inr below)) there)

/-- What was not below the origin before is not below it afterwards. -/
theorem absent (conserved : Conserved suffix origin source destination before after) {key : Key}
    (plain : Path.Plain suffix key) (below : origin ++ [separator] <+: key) (free : key ∉ before) :
    key ∉ after := fun present =>
  free ((Contents.mem_of_lookup_eq (conserved.arrivals key plain below present)).mp present)

/-- A marker that the origin does not hold conserves. -/
theorem insert_marker (whole : separator ∉ suffix) (old : Path.Plain suffix source)
    (new : Path.Plain suffix destination) (content : Content)
    (away : ¬ origin ++ [separator] <+: destination ++ [separator]) :
    Conserved suffix origin source destination before
      (before.insert (destination ++ suffix) content) := by
  have other : ∀ {key : Key}, destination ++ suffix ≠ key →
      (before.insert (destination ++ suffix) content)[key]? = before[key]? := fun differs =>
    (Contents.lookup_insert ..).trans (if_neg differs)
  refine of_files (fun key plain => other (marker_ne whole plain destination)) old ?_ ?_
  · rintro path within (marked | ⟨key, present, below⟩)
    · refine .inl ((Contents.mem_of_lookup_eq (other fun same => away ?_)).mp marked)
      rw [List.append_cancel_right same]
      exact within
    · refine .inr ⟨key, (Contents.mem_of_lookup_eq (other ?_)).mp present, below⟩
      rintro rfl
      have above := (stem_prefix_marker whole).mp (within.trans below)
      exact away (above.trans (List.prefix_append _ _))
  · intro tidy key present
    by_cases same : destination ++ suffix = key
    · exact ⟨destination, new, .inr (.inl same.symm)⟩
    · exact tidy key ((Contents.mem_of_lookup_eq (other same)).mp present)

/-- So does copying a file to a free place that is not below the origin, whether its
source is deleted or not. -/
theorem carry {content : Content} (whole : separator ∉ suffix)
    (old : Path.Plain suffix (source ++ separator :: name))
    (new : Path.Plain suffix (destination ++ separator :: name))
    (away : ¬ origin ++ [separator] <+: destination ++ separator :: name)
    (free : destination ++ separator :: name ∉ before)
    (stored : before[source ++ separator :: name]? = some content)
    (arrived : after[destination ++ separator :: name]? = some content)
    (source_same : source ++ separator :: name ∈ after →
      after[source ++ separator :: name]? = before[source ++ separator :: name]?)
    (rest_same : ∀ key : Key, key ≠ source ++ separator :: name →
      key ≠ destination ++ separator :: name → after[key]? = before[key]?) :
    Conserved suffix origin source destination before after := by
  have stays : ∀ {key : Key}, key ≠ destination ++ separator :: name → key ∈ after →
      after[key]? = before[key]? := by
    intro key differs present
    by_cases same : key = source ++ separator :: name
    · subst same
      exact source_same present
    · exact rest_same key same differs
  constructor
  · intro rest other named found
    by_cases same : rest = name
    · subst same
      rw [stored] at found
      exact .inr ⟨arrived.trans found, away⟩
    · refine .inl ((rest_same _ ?_ ?_).trans found)
      · intro eq
        rw [List.append_cancel_left_eq, List.cons.injEq] at eq
        exact same eq.2
      · intro eq
        exact free (eq ▸ Contents.mem_iff_lookup.mpr ⟨other, found⟩)
  · intro key other plain outside found
    refine (rest_same key ?_ ?_).trans found
    · rintro rfl
      exact outside stem_prefix_append
    · rintro rfl
      exact free (Contents.mem_iff_lookup.mpr ⟨other, found⟩)
  · intro key plain below present
    refine stays ?_ present
    rintro rfl
    exact away below
  · rintro path within (marked | ⟨key, present, below⟩)
    · have same := stays (marker_ne whole new path) marked
      exact .inl ((Contents.mem_of_lookup_eq same).mp marked)
    · refine .inr ⟨key, (Contents.mem_of_lookup_eq (stays ?_ present)).mp present, below⟩
      rintro rfl
      exact away (within.trans below)
  · intro tidy key present
    by_cases same : key = destination ++ separator :: name
    · exact ⟨_, new, .inl same⟩
    · exact tidy key ((Contents.mem_of_lookup_eq (stays same present)).mp present)

end Conserved
end KeyTree
