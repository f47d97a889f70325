import KeyTree.Proofs.Conserved
import KeyTree.Proofs.Moves

/-!
Renaming a directory of a tree while requests fail. Whatever fails, and whenever, each file
of the source is at its old or at its new place and every other file is where it was. The
marker of the origin is there while the move goes on, so the move never takes the origin
for a free place and nothing arrives below it; and a directory is only removed once all
files below it have been moved.
-/
namespace KeyTree

open KeyTree.Path (separator)
open Program (Ensures Returns)

/-- A move from below the origin may start. -/
structure Secure (suffix : Key) (origin source destination : Path) (contents : Contents) :
    Prop where
  old : Path.Plain suffix source
  new : Path.Plain suffix destination
  within : origin ++ [separator] <+: source ++ [separator]
  away : origin ≠ source → ¬ origin ++ [separator] <+: destination
  marked : origin ≠ source → origin ++ suffix ∈ contents
  tidy : contents.Tidy suffix
  apart : contents.ApartBelow suffix origin

namespace FileSystem
variable {fs : FileSystem} {fallible : Store.Request Memory.Cursor → Prop} {memory : Memory}
  {depth : Nat} {origin source destination : Path}

/-- What moving a directory leaves that may have failed. -/
structure Survived (fs : FileSystem) (origin source destination : Path) (before : Memory)
    (result : Except Failure Unit) (after : Memory) : Prop where
  conserved : Conserved fs.suffix origin source destination before.contents after.contents
  marked : origin ≠ source → origin ++ fs.suffix ∈ after.contents
  cleared : result = .ok () → ∀ key, Path.Plain fs.suffix key → source ++ [separator] <+: key →
    key ∉ after.contents

/-- What moving some children leaves that may have failed. -/
structure Weathered (fs : FileSystem) (origin source destination : Path) (entries : List Entry)
    (before : Memory) (result : Except Failure Unit) (after : Memory) : Prop where
  conserved : Conserved fs.suffix origin source destination before.contents after.contents
  marked : origin ++ fs.suffix ∈ after.contents
  cleared : result = .ok () → ∀ entry ∈ entries, ∀ key, Path.Plain fs.suffix key →
    entry.Claims fs.suffix source key → key ∉ after.contents

variable (proper : fs.Proper) (truthful : ∀ key, ¬ fallible (.status key))
include proper truthful

/-- A file is at its old place until its copy is at the new one. -/
theorem ensures_moveFile_survives {name : Path}
    (secure : Secure fs.suffix origin source destination memory.contents)
    (marked : origin ++ fs.suffix ∈ memory.contents)
    (away : ¬ origin ++ [separator] <+: destination ++ separator :: name)
    (named : Path.Plain fs.suffix name) :
    (fs.moveFile (source ++ separator :: name) (destination ++ separator :: name)).Ensures
      (Memory.may fallible) memory
      (Weathered fs origin source destination [⟨name, false⟩] memory) := by
  have whole := proper.suffix_whole
  have old : Path.Plain fs.suffix (source ++ separator :: name) :=
    Path.Plain.append_iff.mpr ⟨secure.old, named⟩
  have new : Path.Plain fs.suffix (destination ++ separator :: name) :=
    Path.Plain.append_iff.mpr ⟨secure.new, named⟩
  refine Ensures.mono (ensures_moveFile proper old new) ?_
  intro result later shifted
  cases result with
  | ok _ =>
    obtain ⟨free, content, stored, same⟩ := shifted.done rfl truthful
    have apart : source ++ separator :: name ≠ destination ++ separator :: name := fun eq =>
      free (eq ▸ Contents.mem_iff_lookup.mpr ⟨content, stored⟩)
    have arrived : later.contents[destination ++ separator :: name]? = some content := by
      rw [same, Contents.lookup_erase, if_neg apart, Contents.lookup_insert, if_pos rfl]
    have gone : source ++ separator :: name ∉ later.contents := by
      rw [same, Contents.not_mem_iff_lookup, Contents.lookup_erase, if_pos rfl]
    have rest_same : ∀ key : Key, key ≠ source ++ separator :: name →
        key ≠ destination ++ separator :: name →
        later.contents[key]? = memory.contents[key]? := by
      intro key left right
      rw [same, Contents.lookup_erase, if_neg left.symm, Contents.lookup_insert,
        if_neg right.symm]
    constructor
    · exact .carry whole old new away free stored arrived (fun present => absurd present gone)
        rest_same
    · exact (Contents.mem_of_lookup_eq
        (rest_same _ (marker_ne whole old origin) (marker_ne whole new origin))).mpr marked
    · rintro _ entry member key _ claims
      obtain rfl := List.mem_singleton.mp member
      exact claims ▸ gone
  | error failure =>
    rcases shifted.failed failure rfl truthful with heals | ⟨free, content, stored, same⟩
    · exact ⟨.of_heals whole secure.old heals, heals.mem marked, nofun⟩
    · have arrived : later.contents[destination ++ separator :: name]? = some content := by
        rw [same, Contents.lookup_insert, if_pos rfl]
      have rest_same : ∀ key : Key, key ≠ destination ++ separator :: name →
          later.contents[key]? = memory.contents[key]? := by
        intro key differs
        rw [same, Contents.lookup_insert, if_neg differs.symm]
      have apart : source ++ separator :: name ≠ destination ++ separator :: name := fun eq =>
        free (eq ▸ Contents.mem_iff_lookup.mpr ⟨content, stored⟩)
      refine ⟨?_, ?_, nofun⟩
      · exact .carry whole old new away free stored arrived (fun _ => rest_same _ apart)
          fun key _ => rest_same key
      · exact (Contents.mem_of_lookup_eq (rest_same _ (marker_ne whole new origin))).mpr marked

theorem ensures_moveEntry_survives {entry : Entry}
    (secure : Secure fs.suffix origin source destination memory.contents)
    (marked : origin ++ fs.suffix ∈ memory.contents)
    (differs : ¬ origin ++ [separator] <+: destination ++ [separator])
    (first : separator ∉ entry.name) (named : Path.Plain fs.suffix entry.name)
    (nested : ∀ {source destination : Path},
      Secure fs.suffix origin source destination memory.contents →
      (fs.moveDirectory depth source destination).Ensures (Memory.may fallible) memory
        (Survived fs origin source destination memory)) :
    (fs.moveEntry depth source destination entry).Ensures (Memory.may fallible) memory
      (Weathered fs origin source destination [entry] memory) := by
  have away := mt (stem_prefix_child first).mp differs
  rw [moveEntry, secure.old.join_eq named, secure.new.join_eq named]
  obtain ⟨name, isDirectory⟩ := entry
  cases isDirectory with
  | false => exact ensures_moveFile_survives proper truthful secure marked away named
  | true =>
    have below : origin ++ [separator] <+: source ++ separator :: name :=
      secure.within.trans stem_prefix_append
    have parted : origin ≠ source ++ separator :: name := by
      rintro rfl
      exact not_stem_prefix_self below
    have inner : Secure fs.suffix origin (source ++ separator :: name)
        (destination ++ separator :: name) memory.contents :=
      ⟨Path.Plain.append_iff.mpr ⟨secure.old, named⟩,
        Path.Plain.append_iff.mpr ⟨secure.new, named⟩, below.trans (List.prefix_append _ _),
        fun _ => away, fun _ => marked, secure.tidy, secure.apart⟩
    refine Ensures.mono (nested inner) ?_
    intro result later survived
    refine ⟨survived.conserved.widen secure.old, survived.marked parted, ?_⟩
    rintro ok entry member key plain claims
    obtain rfl := List.mem_singleton.mp member
    rcases claims with marker | inside
    · exact absurd marker.symm (marker_ne proper.suffix_whole plain _)
    · exact survived.cleared ok key plain inside

theorem ensures_moveEntries_survive (children : List Entry)
    (secure : Secure fs.suffix origin source destination memory.contents)
    (marked : origin ++ fs.suffix ∈ memory.contents)
    (differs : ¬ origin ++ [separator] <+: destination ++ [separator])
    (named : ∀ entry ∈ children, separator ∉ entry.name ∧ Path.Plain fs.suffix entry.name)
    (nested : ∀ {memory : Memory} {source destination : Path},
      Secure fs.suffix origin source destination memory.contents →
      (fs.moveDirectory depth source destination).Ensures (Memory.may fallible) memory
        (Survived fs origin source destination memory)) :
    (children.forM (fs.moveEntry depth source destination)).Ensures (Memory.may fallible) memory
      (Weathered fs origin source destination children memory) := by
  induction children generalizing memory with
  | nil => exact ⟨.refl secure.old _, marked, fun _ => nofun⟩
  | cons entry others ih =>
    obtain ⟨first, plain⟩ := named entry List.mem_cons_self
    refine Ensures.bind
      (ensures_moveEntry_survives proper truthful secure marked differs first plain nested) ?_ ?_
    · intro _ reached moved
      have still : Secure fs.suffix origin source destination reached.contents :=
        ⟨secure.old, secure.new, secure.within, secure.away, fun _ => moved.marked,
          moved.conserved.tidy secure.tidy, moved.conserved.apartBelow secure.apart⟩
      refine Ensures.mono (ih still moved.marked fun other member =>
        named other (List.mem_cons_of_mem _ member)) ?_
      intro result final later
      refine ⟨moved.conserved.trans secure.new secure.within later.conserved, later.marked, ?_⟩
      intro ok other member key file claims
      rcases List.mem_cons.mp member with rfl | member
      · refine later.conserved.absent file (secure.within.trans claims.below) ?_
        exact moved.cleared rfl _ (List.mem_singleton.mpr rfl) key file claims
      · exact later.cleared ok other member key file claims
    · intro failure reached moved
      exact ⟨moved.conserved, moved.marked, nofun⟩

omit truthful in
/-- Once all children have been moved no file is left below the source. -/
theorem unclaimed {before listed later : Contents} {children : List Entry}
    (secure : Secure fs.suffix origin source destination before)
    (heals : Heals fs.suffix source before listed)
    (merged : Merged children (before.Shown fs.suffix (source ++ [separator]) true))
    (moved : Conserved fs.suffix origin source destination listed later)
    (cleared : ∀ entry ∈ children, ∀ key, Path.Plain fs.suffix key →
      entry.Claims fs.suffix source key → key ∉ later) :
    ∀ key, Path.Plain fs.suffix key → source ++ [separator] <+: key → key ∉ later := by
  have whole := proper.suffix_whole
  have given := proper.suffix_ne_nil
  intro key plain below present
  have same := moved.arrivals key plain (secure.within.trans below) present
  have stored : key ∈ before := (Contents.mem_of_lookup_eq (heals.file whole plain)).mp
    ((Contents.mem_of_lookup_eq same).mp present)
  obtain ⟨rest, rfl⟩ := stem_prefix_iff.mp below
  obtain ⟨name, first, named, rfl | ⟨deep, _, rfl⟩⟩ := (Path.Plain.append_iff.mp plain).2.cut
  · have single := secure.apart _ plain (secure.within.trans below) stored
    refine cleared ⟨_, false⟩ ?_ _ plain rfl present
    exact (merged.grouped_file_iff whole given secure.tidy.neat).mpr ⟨first, named, stored, single⟩
  · have inside : source ++ separator :: name ++ [separator] <+:
        source ++ separator :: (name ++ separator :: deep) := ⟨deep, by simp⟩
    refine cleared ⟨name, true⟩ ?_ _ plain (Path.Holds.below inside) present
    exact (merged.grouped_directory_iff whole given secure.tidy.neat).mpr
      ⟨first, named, .inr ⟨_, stored, inside⟩⟩

omit truthful in
/-- Removing what is left of a source without files loses none. -/
theorem survived_of_emptied {later final : Memory} {result : Except Failure Unit}
    (secure : Secure fs.suffix origin source destination memory.contents)
    (moved : Conserved fs.suffix origin source destination memory.contents later.contents)
    (marked : origin ++ fs.suffix ∈ later.contents)
    (bare : ∀ key, Path.Plain fs.suffix key → source ++ [separator] <+: key →
      key ∉ later.contents)
    (emptied : Emptied fs fallible source later result final) :
    Survived fs origin source destination memory result final := by
  have whole := proper.suffix_whole
  have files : ∀ key, Path.Plain fs.suffix key →
      final.contents[key]? = later.contents[key]? := by
    intro key plain
    rcases emptied.file whole plain with same | ⟨below, gone⟩
    · exact same
    · rw [Contents.not_mem_iff_lookup.mp gone,
        Contents.not_mem_iff_lookup.mp (bare key plain below)]
  constructor
  · refine moved.trans secure.new secure.within ?_
    exact .of_files files secure.old (fun _ _ => emptied.hasDirectory whole)
      (emptied.tidy secure.old)
  · intro nested
    refine (Contents.mem_of_lookup_eq (emptied.outside ?_)).mpr marked
    exact Path.Holds.not_marker_above whole nested secure.within
  · intro _ key plain below present
    exact bare key plain below ((Contents.mem_of_lookup_eq (files key plain)).mp present)

/-- The rest of a move, once the marker of the destination is there. -/
theorem ensures_moveListed_survives {listed : Memory} {children : List Entry} (content : Content)
    (secure : Secure fs.suffix origin source destination memory.contents)
    (heals : Heals fs.suffix source memory.contents listed.contents)
    (merged : Merged children (memory.contents.Shown fs.suffix (source ++ [separator]) true))
    (marked : origin ++ fs.suffix ∈ listed.contents)
    (differs : ¬ origin ++ [separator] <+: destination ++ [separator])
    (nested : ∀ {memory : Memory} {source destination : Path},
      Secure fs.suffix origin source destination memory.contents →
      (fs.moveDirectory depth source destination).Ensures (Memory.may fallible) memory
        (Survived fs origin source destination memory)) :
    ((children.forM (fs.moveEntry depth source destination)).bind fun _ =>
        fs.removeDirectory source true).Ensures (Memory.may fallible)
      (listed.insert (destination ++ fs.suffix) content)
      (Survived fs origin source destination memory) := by
  have whole := proper.suffix_whole
  have marking : Conserved fs.suffix origin source destination listed.contents
      (listed.insert (destination ++ fs.suffix) content).contents :=
    .insert_marker whole secure.old secure.new content differs
  have begun := Conserved.trans secure.new secure.within (.of_heals whole secure.old heals) marking
  have still : origin ++ fs.suffix ∈ (listed.insert (destination ++ fs.suffix) content).contents :=
    Std.ExtTreeMap.mem_insert.mpr (.inr marked)
  have ready : Secure fs.suffix origin source destination
      (listed.insert (destination ++ fs.suffix) content).contents :=
    ⟨secure.old, secure.new, secure.within, secure.away, fun _ => still,
      begun.tidy secure.tidy, begun.apartBelow secure.apart⟩
  refine Ensures.bind (ensures_moveEntries_survive proper truthful children ready still differs
    ?_ nested) ?_ ?_
  · intro entry member
    obtain ⟨named, shown⟩ := merged.shown_of_mem member
    obtain ⟨first, plain, _⟩ := (Contents.shown_grouped_iff whole proper.suffix_ne_nil secure.tidy.neat
      named).mp shown
    exact ⟨first, plain⟩
  · intro _ later moved
    have bare := unclaimed proper secure heals merged
      (marking.trans secure.new secure.within moved.conserved) (moved.cleared rfl)
    refine Ensures.mono (ensures_removeDirectory proper secure.old
      (moved.conserved.tidy ready.tidy).neat) ?_
    intro result final emptied
    exact survived_of_emptied proper secure (begun.trans secure.new secure.within moved.conserved)
      moved.marked bare emptied
  · intro failure later moved
    exact ⟨begun.trans secure.new secure.within moved.conserved, fun _ => moved.marked, nofun⟩

theorem ensures_moveDirectory_survives (depth : Nat)
    (secure : Secure fs.suffix origin source destination memory.contents) :
    (fs.moveDirectory depth source destination).Ensures (Memory.may fallible) memory
      (Survived fs origin source destination memory) := by
  have whole := proper.suffix_whole
  induction depth generalizing memory source destination with
  | zero => exact ⟨.refl secure.old _, secure.marked, nofun⟩
  | succ depth ih =>
    rw [moveDirectory_succ, proper.stem_plain secure.old, proper.stem_plain secure.new]
    split
    · exact ⟨.refl secure.old _, secure.marked, nofun⟩
    · rename_i outside
      refine Ensures.bind (ensures_requireChildren proper secure.old secure.tidy.neat false) ?_ ?_
      · intro children listed gathered
        obtain ⟨own, merged⟩ := gathered.listed children rfl
        have listing : Conserved fs.suffix origin source destination memory.contents
            listed.contents := .of_heals whole secure.old gathered.heals
        have marked : origin ++ fs.suffix ∈ listed.contents := by
          by_cases start : origin = source
          · exact start ▸ own
          · exact gathered.heals.mem (secure.marked start)
        refine Ensures.bind (ensures_requireAbsent proper secure.new) ?_ ?_
        · intro _ reached vacant
          obtain ⟨rfl, _, unmarked⟩ := vacant.free rfl truthful
          have differs : ¬ origin ++ [separator] <+: destination ++ [separator] := by
            intro within
            rcases stem_prefix_stem.mp within with rfl | below
            · exact unmarked marked
            · by_cases start : origin = source
              · exact outside (start ▸ within)
              · exact secure.away start below
          refine Ensures.bind (ensures_copyMarker proper secure.old secure.new) ?_ ?_
          · rintro _ copied (⟨_, content, _, rfl⟩ | ⟨⟨_, ⟨⟩⟩, _⟩)
            exact ensures_moveListed_survives proper truthful content secure gathered.heals merged
              marked differs ih
          · rintro failure copied (⟨⟨⟩, _⟩ | ⟨_, rfl, _⟩)
            exact ⟨listing, fun _ => marked, nofun⟩
        · intro failure reached vacant
          refine ⟨listing.trans secure.new secure.within (.of_heals whole secure.old vacant.heals),
            fun _ => vacant.heals.mem marked, nofun⟩
      · intro failure listed gathered
        exact ⟨.of_heals whole secure.old gathered.heals,
          fun nested => gathered.heals.mem (secure.marked nested), nofun⟩

omit proper truthful in
/-- Whatever requests fail besides look-ups, a rename in a tree leaves each file of the source
at its old or at its new place, keeps every file elsewhere, and overwrites none at its
destination. -/
theorem renameDirectory_conserves {faults : Faults} (turn : Nat) (proper : fs.Proper)
    (truthful : faults.Truthful) (old : Path.Plain fs.suffix source)
    (new : Path.Plain fs.suffix destination) (tree : memory.contents.IsTree fs.suffix) :
    let final := ((fs.renameDirectory source destination).run (Memory.serveFaulty faults)
      ⟨memory, turn⟩).state.memory.contents
    (∀ rest content, Path.Plain fs.suffix rest →
      memory.contents[source ++ separator :: rest]? = some content →
      final[source ++ separator :: rest]? = some content ∨
        final[destination ++ separator :: rest]? = some content) ∧
    (∀ key content, Path.Plain fs.suffix key → ¬ source ++ [separator] <+: key →
      memory.contents[key]? = some content → final[key]? = some content) ∧
    ∀ key content other, Path.Plain fs.suffix key →
      key = destination ∨ destination ++ [separator] <+: key →
      memory.contents[key]? = some content → final[key]? = some other → other = content := by
  intro final
  have never : ∀ key, ¬ faults.Hits (.status key) := by
    rintro key ⟨now, message, hit⟩
    rw [truthful now key] at hit
    cases hit
  have secure : Secure fs.suffix source source destination memory.contents :=
    ⟨old, new, List.prefix_refl _, fun differs => absurd rfl differs,
      fun differs => absurd rfl differs, tree.tidy, fun path plain _ => tree.apart path plain⟩
  have conserves : (fs.moveDirectory fs.limits.depth source destination).Ensures
      (Memory.may faults.Hits) memory fun _ later =>
        Conserved fs.suffix source source destination memory.contents later.contents :=
    Ensures.mono (ensures_moveDirectory_survives proper never fs.limits.depth secure)
      fun _ _ survived => survived.conserved
  have conserved : Conserved fs.suffix source source destination memory.contents final :=
    Memory.run_of_ensures_faulty turn
      (conserves.succeeds_leaves (.directoryNotRenamed source destination))
  refine ⟨fun rest content named stored => ?_, conserved.outside, ?_⟩
  · exact (conserved.kept rest content named stored).imp_right And.left
  · intro key content other plain _ stored found
    have same : final[key]? = some content := by
      by_cases below : source ++ [separator] <+: key
      · have present := Contents.mem_iff_lookup.mpr ⟨other, found⟩
        exact (conserved.arrivals key plain below present).trans stored
      · exact conserved.outside key content plain below stored
    rw [same, Option.some.injEq] at found
    exact found.symm

omit proper truthful in
theorem renameDirectory_conserves_undeleted :
    let memory := Memory.holding [("a/x".toList, [120]), ("ab".toList, [121])]
    let faults : Faults := fun _ query => match query with
      | .delete _ => some "not deleted"
      | _ => none
    let ended := (usual.renameDirectory "a".toList "b".toList).run (Memory.serveFaulty faults)
      ⟨memory, 0⟩
    memory.contents.IsTree usual.suffix ∧ faults.Truthful ∧ ended.result = .ok false ∧
      (ended.state.memory.contents["a/x".toList]? = some [120] ∨
        ended.state.memory.contents["b/x".toList]? = some [120]) := by
  intro memory faults ended
  have tree : memory.contents.IsTree usual.suffix := by decide +kernel
  have truthful : faults.Truthful := fun _ _ => rfl
  have old : Path.Plain usual.suffix "a".toList := by decide
  have new : Path.Plain usual.suffix "b".toList := by decide
  have conserved := renameDirectory_conserves 0 usual_proper truthful old new tree
  refine ⟨tree, truthful, by decide +kernel, ?_⟩
  exact conserved.1 "x".toList [120] (by decide) (by decide +kernel)

end FileSystem
end KeyTree
