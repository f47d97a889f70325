import KeyTree.Proofs.Moves

/-!
What a rename overwrites. A copy is made only where the looks before it have found nothing,
and a look that fails finds nothing. So a file is overwritten only if the look-up of its own
key has failed, whatever other requests fail; and nothing is copied to a place below the
source while the marker of the source can be seen.
-/
namespace KeyTree

open KeyTree.Path (separator)
open Program (Ensures Returns)

/-- A step of a move from below the origin overwrites no file that a look-up shows. -/
structure Spared (suffix : Key) (fallible : Store.Request Memory.Cursor → Prop)
    (origin destination : Path) (before after : Contents) : Prop where
  kept : ∀ key content, Path.Plain suffix key → ¬ origin ++ [separator] <+: key →
    (destination ++ [separator] <+: key → ¬ fallible (.status key)) →
    before[key]? = some content → after[key]? = some content
  arrivals : ¬ fallible (.status (origin ++ suffix)) → ∀ key, Path.Plain suffix key →
    origin ++ [separator] <+: key → key ∈ after → after[key]? = before[key]?
  tidy : before.Tidy suffix → after.Tidy suffix

namespace Spared
variable {suffix : Key} {fallible : Store.Request Memory.Cursor → Prop}
  {origin destination name : Path} {before middle after : Contents}

theorem of_files (files : ∀ key, Path.Plain suffix key → after[key]? = before[key]?)
    (tidy : before.Tidy suffix → after.Tidy suffix) :
    Spared suffix fallible origin destination before after where
  kept key _ plain _ _ stored := (files key plain).trans stored
  arrivals _ key plain _ _ := files key plain
  tidy := tidy

theorem refl (contents : Contents) :
    Spared suffix fallible origin destination contents contents :=
  of_files (fun _ _ => rfl) id

theorem of_heals {place : Path} (whole : separator ∉ suffix)
    (heals : Heals suffix place before after) :
    Spared suffix fallible origin destination before after :=
  of_files (fun _ plain => heals.file whole plain) heals.tidy

theorem insert_marker (whole : separator ∉ suffix) {path : Path}
    (plain : Path.Plain suffix path) (contents : Contents) (content : Content) :
    Spared suffix fallible origin destination contents
      (contents.insert (path ++ suffix) content) := by
  apply of_files
  · intro key file
    rw [Contents.lookup_insert, if_neg (marker_ne whole file path)]
  · intro tidy key present
    rcases Std.ExtTreeMap.mem_insert.mp present with same | old
    · exact ⟨path, plain, .inr (.inl (Std.LawfulEqCmp.compare_eq_iff_eq.mp same).symm)⟩
    · exact tidy key old

theorem trans (first : Spared suffix fallible origin destination before middle)
    (second : Spared suffix fallible origin destination middle after) :
    Spared suffix fallible origin destination before after where
  kept key content plain free reliable stored :=
    second.kept key content plain free reliable (first.kept key content plain free reliable stored)
  arrivals reliable key plain below present := by
    have same := second.arrivals reliable key plain below present
    exact same.trans
      (first.arrivals reliable key plain below ((Contents.mem_of_lookup_eq same).mp present))
  tidy ordered := second.tidy (first.tidy ordered)

/-- What moving a child spares is spared below the destination. -/
theorem widen (spared : Spared suffix fallible origin (destination ++ separator :: name)
    before after) : Spared suffix fallible origin destination before after where
  kept key content plain free reliable :=
    spared.kept key content plain free fun below =>
      reliable (stem_prefix_trans stem_prefix_append below)
  arrivals := spared.arrivals
  tidy := spared.tidy

end Spared

/-- A move from below the origin may start. -/
structure Onward (suffix : Key) (fallible : Store.Request Memory.Cursor → Prop)
    (origin source destination : Path) (contents : Contents) : Prop where
  old : Path.Plain suffix source
  new : Path.Plain suffix destination
  within : origin ++ [separator] <+: source ++ [separator]
  away : origin ≠ source → ¬ fallible (.status (origin ++ suffix)) →
    ¬ origin ++ [separator] <+: destination
  marked : origin ≠ source → origin ++ suffix ∈ contents
  tidy : contents.Tidy suffix

namespace FileSystem
variable {fs : FileSystem} {fallible : Store.Request Memory.Cursor → Prop} {memory : Memory}
  {depth : Nat} {origin source destination path : Path}

/-- What moving a file leaves, whatever fails. -/
structure Landed (fs : FileSystem) (fallible : Store.Request Memory.Cursor → Prop)
    (source destination : Path) (before after : Memory) : Prop where
  kept : ∀ key content, Path.Plain fs.suffix key → key ≠ source →
    (key = destination → ¬ fallible (.status key)) →
    before.contents[key]? = some content → after.contents[key]? = some content
  arrivals : ∀ key, Path.Plain fs.suffix key → key ≠ destination → key ∈ after.contents →
    after.contents[key]? = before.contents[key]?
  marked : ∀ path, path ++ fs.suffix ∈ before.contents → path ++ fs.suffix ∈ after.contents
  tidy : before.contents.Tidy fs.suffix → after.contents.Tidy fs.suffix

namespace Landed
variable {before middle after : Memory}

theorem of_heals (whole : separator ∉ fs.suffix)
    (heals : Heals fs.suffix path before.contents after.contents) :
    Landed fs fallible source destination before after where
  kept _ _ plain _ _ stored := (heals.file whole plain).trans stored
  arrivals _ plain _ _ := heals.file whole plain
  marked _ := heals.mem
  tidy := heals.tidy

theorem refl (memory : Memory) : Landed fs fallible source destination memory memory :=
  ⟨fun _ _ _ _ _ => id, fun _ _ _ _ => rfl, fun _ => id, id⟩

theorem trans (first : Landed fs fallible source destination before middle)
    (second : Landed fs fallible source destination middle after) :
    Landed fs fallible source destination before after where
  kept key content plain apart reliable stored :=
    second.kept key content plain apart reliable (first.kept key content plain apart reliable stored)
  arrivals key plain apart present := by
    have same := second.arrivals key plain apart present
    exact same.trans (first.arrivals key plain apart ((Contents.mem_of_lookup_eq same).mp present))
  marked path there := second.marked path (first.marked path there)
  tidy ordered := second.tidy (first.tidy ordered)

theorem insert (whole : separator ∉ fs.suffix) (new : Path.Plain fs.suffix destination)
    (hidden : destination ∈ before.contents → fallible (.status destination)) (content : Content) :
    Landed fs fallible source destination before (before.insert destination content) := by
  have same : ∀ {key : Key}, key ≠ destination →
      (before.insert destination content).contents[key]? = before.contents[key]? :=
    fun other => (Contents.lookup_insert ..).trans (if_neg (Ne.symm other))
  constructor
  · intro key given plain _ reliable stored
    have present := Contents.mem_iff_lookup.mpr ⟨given, stored⟩
    have apart : key ≠ destination := fun eq => reliable eq (eq ▸ hidden (eq ▸ present))
    exact (same apart).trans stored
  · intro key plain apart _
    exact same apart
  · intro path there
    exact (Contents.mem_of_lookup_eq (same (marker_ne whole new path))).mpr there
  · intro tidy key present
    by_cases eq : key = destination
    · exact ⟨destination, new, .inl eq⟩
    · exact tidy key ((Contents.mem_of_lookup_eq (same eq)).mp present)

theorem erase (whole : separator ∉ fs.suffix) (old : Path.Plain fs.suffix source)
    (before : Memory) : Landed fs fallible source destination before (before.erase source) := by
  have same : ∀ {key : Key}, key ≠ source →
      (before.erase source).contents[key]? = before.contents[key]? :=
    fun other => (Contents.lookup_erase ..).trans (if_neg (Ne.symm other))
  have gone : ∀ {key : Key}, key ∈ (before.erase source).contents → key ≠ source := by
    rintro key present rfl
    exact Contents.not_mem_iff_lookup.mpr ((Contents.lookup_erase ..).trans (if_pos rfl)) present
  constructor
  · intro key content plain apart _ stored
    exact (same apart).trans stored
  · intro key plain _ present
    exact same (gone present)
  · intro path there
    exact (Contents.mem_of_lookup_eq (same (marker_ne whole old path))).mpr there
  · intro tidy key present
    exact tidy key ((Contents.mem_of_lookup_eq (same (gone present))).mp present)

end Landed

/-- What moving a directory leaves, whatever fails. -/
structure Harmless (fs : FileSystem) (fallible : Store.Request Memory.Cursor → Prop)
    (origin source destination : Path) (before after : Memory) : Prop where
  spared : Spared fs.suffix fallible origin destination before.contents after.contents
  marked : origin ≠ source → origin ++ fs.suffix ∈ after.contents

variable (proper : fs.Proper)
include proper

/-- A look misses the marker of a directory only if its look-up fails. -/
theorem returns_isDirectory_missed (plain : Path.Plain fs.suffix path) :
    (fs.isDirectory path).Returns (Memory.may fallible) memory fun found _ =>
      found = false → path ++ fs.suffix ∈ memory.contents →
        fallible (.status (path ++ fs.suffix)) := by
  have probes : (fs.probe path).Returns (Memory.may fallible) memory fun status _ =>
      status.isSome = false → path ++ fs.suffix ∈ memory.contents →
        fallible (.status (path ++ fs.suffix)) := by
    rw [probe, proper.isRoot_plain plain, proper.markerKey_plain plain]
    apply Returns.bind (Memory.returns_status fallible memory _)
    rintro status later ⟨rfl, rfl | ⟨hit, rfl⟩⟩
    · cases found : later.status (path ++ fs.suffix) with
      | some status => exact ⟨_, rfl, fun unfound => absurd unfound.symm Bool.false_ne_true⟩
      | none =>
        have absent : path ++ fs.suffix ∉ later.contents := by
          rw [← status_isSome, found]
          exact Bool.false_ne_true
        apply Returns.mono (returns_probeBelow proper plain fun marked => absurd marked absent)
        exact fun _ _ _ _ marked => absurd marked absent
    · apply Returns.mono (returns_probeBelow proper plain fun _ => ⟨_, hit⟩)
      exact fun _ _ _ _ _ => hit
  rw [isDirectory, proper.isRoot_plain plain]
  exact Returns.bind probes fun status later missed => ⟨_, rfl, missed⟩

/-- A place counts as free only if the look-ups fail that would show otherwise. -/
theorem ensures_requireAbsent_shown (plain : Path.Plain fs.suffix path) :
    (fs.requireAbsent path).Ensures (Memory.may fallible) memory fun result _ =>
      result = .ok () → ∀ {key : Key}, key = path ∨ key = path ++ fs.suffix →
        key ∈ memory.contents → fallible (.status key) := by
  apply Returns.bind (returns_isFile proper plain)
  rintro file later ⟨rfl, _, absent⟩
  cases file with
  | true => exact nofun
  | false =>
    apply Returns.bind (returns_isDirectory_missed proper plain)
    intro directory final missed
    cases directory with
    | true => exact nofun
    | false =>
      rintro _ key (rfl | rfl) present
      · exact Classical.byContradiction fun reliable => absent rfl reliable present
      · exact missed rfl present

/-- Whatever fails, a file arrives only at a place that no look-up shows as taken. -/
theorem ensures_moveFile_lands (old : Path.Plain fs.suffix source)
    (new : Path.Plain fs.suffix destination) :
    (fs.moveFile source destination).Ensures (Memory.may fallible) memory
      fun _ => Landed fs fallible source destination memory := by
  have whole := proper.suffix_whole
  rw [moveFile, proper.relative_plain old, proper.relative_plain new]
  apply Returns.bind (returns_isFile proper old)
  rintro file later ⟨rfl, _, _⟩
  cases file with
  | false => exact Landed.refl later
  | true =>
    apply Ensures.bind (Ensures.and (ensures_requireAbsent proper new)
      (ensures_requireAbsent_shown proper new))
    · intro _ reached demanded
      have heals := demanded.1.heals
      have hidden : destination ∈ reached.contents → fallible (.status destination) := by
        intro present
        exact demanded.2 rfl (.inl rfl)
          ((Contents.mem_of_lookup_eq (heals.file whole new)).mp present)
      have healed : Landed fs fallible source destination later reached := .of_heals whole heals
      apply Ensures.mono (ensures_moveObject source destination)
      intro result moved carried
      cases result with
      | ok _ =>
        obtain ⟨content, _, rfl⟩ := carried.done rfl
        exact (healed.trans (.insert whole new hidden content)).trans (.erase whole old _)
      | error failure =>
        cases carried.failed failure rfl with
        | inl still => exact still ▸ healed
        | inr copied =>
          obtain ⟨content, _, rfl⟩ := copied
          exact healed.trans (.insert whole new hidden content)
    · intro failure reached demanded
      exact .of_heals whole demanded.1.heals

theorem ensures_moveEntry_harmless {entry : Entry}
    (onward : Onward fs.suffix fallible origin source destination memory.contents)
    (marked : origin ++ fs.suffix ∈ memory.contents)
    (differs : ¬ fallible (.status (origin ++ fs.suffix)) →
      ¬ origin ++ [separator] <+: destination ++ [separator])
    (first : separator ∉ entry.name) (named : Path.Plain fs.suffix entry.name)
    (nested : ∀ {source destination : Path},
      Onward fs.suffix fallible origin source destination memory.contents →
      (fs.moveDirectory depth source destination).Ensures (Memory.may fallible) memory
        fun _ => Harmless fs fallible origin source destination memory) :
    (fs.moveEntry depth source destination entry).Ensures (Memory.may fallible) memory
      fun _ => Harmless fs fallible origin (source ++ separator :: entry.name) destination
        memory := by
  have old : Path.Plain fs.suffix (source ++ separator :: entry.name) :=
    Path.Plain.append_iff.mpr ⟨onward.old, named⟩
  have new : Path.Plain fs.suffix (destination ++ separator :: entry.name) :=
    Path.Plain.append_iff.mpr ⟨onward.new, named⟩
  have below : origin ++ [separator] <+: source ++ separator :: entry.name :=
    onward.within.trans stem_prefix_append
  have away := fun reliable => mt (stem_prefix_child first).mp (differs reliable)
  rw [moveEntry, onward.old.join_eq named, onward.new.join_eq named]
  split
  · have inner : Onward fs.suffix fallible origin (source ++ separator :: entry.name)
        (destination ++ separator :: entry.name) memory.contents :=
      ⟨old, new, below.trans (List.prefix_append _ _), fun _ => away, fun _ => marked, onward.tidy⟩
    apply Ensures.mono (nested inner)
    intro _ later harmless
    exact ⟨harmless.spared.widen, harmless.marked⟩
  · apply Ensures.mono (ensures_moveFile_lands proper old new)
    intro _ later landed
    refine ⟨⟨?_, ?_, landed.tidy⟩, fun _ => landed.marked origin marked⟩
    · intro key content plain outside reliable
      apply landed.kept key content plain
      · exact fun same => outside (same ▸ below)
      · exact fun same => reliable (same ▸ stem_prefix_append)
    · intro reliable key plain inside
      apply landed.arrivals key plain
      exact fun same => away reliable (same ▸ inside)

theorem ensures_moveEntries_harmless (children : List Entry)
    (onward : Onward fs.suffix fallible origin source destination memory.contents)
    (marked : origin ++ fs.suffix ∈ memory.contents)
    (differs : ¬ fallible (.status (origin ++ fs.suffix)) →
      ¬ origin ++ [separator] <+: destination ++ [separator])
    (named : ∀ entry ∈ children, separator ∉ entry.name ∧ Path.Plain fs.suffix entry.name)
    (nested : ∀ {memory : Memory} {source destination : Path},
      Onward fs.suffix fallible origin source destination memory.contents →
      (fs.moveDirectory depth source destination).Ensures (Memory.may fallible) memory
        fun _ => Harmless fs fallible origin source destination memory) :
    (children.forM (fs.moveEntry depth source destination)).Ensures (Memory.may fallible) memory
      fun _ later => Spared fs.suffix fallible origin destination memory.contents later.contents ∧
        origin ++ fs.suffix ∈ later.contents := by
  induction children generalizing memory with
  | nil => exact ⟨.refl _, marked⟩
  | cons entry others ih =>
    obtain ⟨first, plain⟩ := named entry List.mem_cons_self
    have below : origin ++ [separator] <+: source ++ separator :: entry.name :=
      onward.within.trans stem_prefix_append
    have parted : origin ≠ source ++ separator :: entry.name := by
      intro same
      rw [← same] at below
      exact not_stem_prefix_self below
    apply Ensures.bind
      (ensures_moveEntry_harmless proper onward marked differs first plain nested)
    · intro _ reached harmless
      have still : Onward fs.suffix fallible origin source destination reached.contents :=
        ⟨onward.old, onward.new, onward.within, onward.away, fun _ => harmless.marked parted,
          harmless.spared.tidy onward.tidy⟩
      apply Ensures.mono (ih still (harmless.marked parted) fun other member =>
        named other (List.mem_cons_of_mem _ member))
      intro _ final later
      exact ⟨harmless.spared.trans later.1, later.2⟩
    · intro failure reached harmless
      exact ⟨harmless.spared, harmless.marked parted⟩

/-- Removing what is left of a source overwrites nothing. -/
theorem harmless_of_emptied {later final : Memory} {result : Except Failure Unit}
    (onward : Onward fs.suffix fallible origin source destination memory.contents)
    (spared : Spared fs.suffix fallible origin destination memory.contents later.contents)
    (marked : origin ++ fs.suffix ∈ later.contents)
    (emptied : Emptied fs fallible source later result final) :
    Harmless fs fallible origin source destination memory final := by
  have whole := proper.suffix_whole
  constructor
  · apply spared.trans
    constructor
    · intro key content plain outside _ stored
      cases emptied.file whole plain with
      | inl same => exact same.trans stored
      | inr gone => exact absurd (onward.within.trans gone.1) outside
    · intro _ key plain _ present
      exact (emptied.file whole plain).resolve_right fun gone => gone.2 present
    · exact emptied.tidy onward.old
  · intro nested
    refine (Contents.mem_of_lookup_eq (emptied.outside ?_)).mpr marked
    exact Path.Holds.not_marker_above whole nested onward.within

/-- The rest of a move, once the marker of the destination is there. -/
theorem ensures_moveListed_harmless {reached : Memory} {children : List Entry} (content : Content)
    (onward : Onward fs.suffix fallible origin source destination memory.contents)
    (looks : Spared fs.suffix fallible origin destination memory.contents reached.contents)
    (marked : origin ++ fs.suffix ∈ reached.contents)
    (merged : Merged children (memory.contents.Shown fs.suffix (source ++ [separator]) true))
    (differs : ¬ fallible (.status (origin ++ fs.suffix)) →
      ¬ origin ++ [separator] <+: destination ++ [separator])
    (nested : ∀ {memory : Memory} {source destination : Path},
      Onward fs.suffix fallible origin source destination memory.contents →
      (fs.moveDirectory depth source destination).Ensures (Memory.may fallible) memory
        fun _ => Harmless fs fallible origin source destination memory) :
    ((children.forM (fs.moveEntry depth source destination)).bind fun _ =>
        fs.removeDirectory source true).Ensures (Memory.may fallible)
      (reached.insert (destination ++ fs.suffix) content)
      fun _ => Harmless fs fallible origin source destination memory := by
  have whole := proper.suffix_whole
  have begun := looks.trans (.insert_marker whole onward.new reached.contents content)
  have still : origin ++ fs.suffix ∈ (reached.insert (destination ++ fs.suffix) content).contents :=
    Std.ExtTreeMap.mem_insert.mpr (.inr marked)
  have ready : Onward fs.suffix fallible origin source destination
      (reached.insert (destination ++ fs.suffix) content).contents :=
    ⟨onward.old, onward.new, onward.within, onward.away, fun _ => still, begun.tidy onward.tidy⟩
  have named : ∀ entry ∈ children, separator ∉ entry.name ∧ Path.Plain fs.suffix entry.name := by
    intro entry member
    obtain ⟨given, shown⟩ := merged.shown_of_mem member
    obtain ⟨first, plain, _⟩ := (Contents.shown_grouped_iff whole proper.suffix_ne_nil onward.tidy.neat
      given).mp shown
    exact ⟨first, plain⟩
  apply Ensures.bind (ensures_moveEntries_harmless proper children ready still differs named nested)
  · rintro _ later ⟨moved, kept⟩
    apply Ensures.mono (ensures_removeDirectory proper onward.old (moved.tidy ready.tidy).neat)
    intro result final emptied
    exact harmless_of_emptied proper onward (begun.trans moved) kept emptied
  · rintro failure later ⟨moved, kept⟩
    exact ⟨begun.trans moved, fun _ => kept⟩

theorem ensures_moveDirectory_harmless (depth : Nat)
    (onward : Onward fs.suffix fallible origin source destination memory.contents) :
    (fs.moveDirectory depth source destination).Ensures (Memory.may fallible) memory
      fun _ => Harmless fs fallible origin source destination memory := by
  have whole := proper.suffix_whole
  induction depth generalizing memory source destination with
  | zero => exact ⟨.refl _, onward.marked⟩
  | succ depth ih =>
    rw [moveDirectory_succ, proper.stem_plain onward.old, proper.stem_plain onward.new]
    split
    · exact ⟨.refl _, onward.marked⟩
    · rename_i outside
      apply Ensures.bind (ensures_requireChildren proper onward.old onward.tidy.neat false)
      · intro children listed gathered
        obtain ⟨own, merged⟩ := gathered.listed children rfl
        have marked : origin ++ fs.suffix ∈ listed.contents := by
          by_cases start : origin = source
          · exact start ▸ own
          · exact gathered.heals.mem (onward.marked start)
        apply Ensures.bind (Ensures.and (ensures_requireAbsent proper onward.new)
          (ensures_requireAbsent_shown proper onward.new))
        · rintro _ reached ⟨vacant, shown⟩
          have still := vacant.heals.mem marked
          have looks : Spared fs.suffix fallible origin destination memory.contents
              reached.contents := (Spared.of_heals whole gathered.heals).trans
                (.of_heals whole vacant.heals)
          have differs : ¬ fallible (.status (origin ++ fs.suffix)) →
              ¬ origin ++ [separator] <+: destination ++ [separator] := by
            intro reliable within
            cases stem_prefix_stem.mp within with
            | inl same => exact reliable (same ▸ shown rfl (.inr rfl) (same ▸ marked))
            | inr below =>
              by_cases start : origin = source
              · exact outside (start ▸ within)
              · exact onward.away start reliable below
          apply Ensures.bind (ensures_copyMarker proper onward.old onward.new)
          · rintro _ copied (⟨_, content, _, rfl⟩ | ⟨⟨_, ⟨⟩⟩, _⟩)
            exact ensures_moveListed_harmless proper content onward looks still merged differs ih
          · rintro failure copied (⟨⟨⟩, _⟩ | ⟨_, rfl, _⟩)
            exact ⟨looks, fun _ => still⟩
        · rintro failure reached ⟨vacant, _⟩
          exact ⟨(Spared.of_heals whole gathered.heals).trans (.of_heals whole vacant.heals),
            fun _ => vacant.heals.mem marked⟩
      · intro failure listed gathered
        exact ⟨.of_heals whole gathered.heals,
          fun nested => gathered.heals.mem (onward.marked nested)⟩

omit proper in
/-- Whatever requests fail, a rename overwrites a file only where a look-up of the file's own key
fails: at the destination of a file, and below the destination of a directory. Files that
are not moved stay as they are, and what is left below the source of a directory whose
marker can be seen has its old bytes. -/
theorem rename_spares_shown (faults : Faults) (turn : Nat) (proper : fs.Proper)
    (old : Path.Plain fs.suffix source) (new : Path.Plain fs.suffix destination)
    (tidy : memory.contents.Tidy fs.suffix) :
    let fileFinal := ((fs.renameFile source destination).run (Memory.serveFaulty faults)
      ⟨memory, turn⟩).state.memory.contents
    let final := ((fs.renameDirectory source destination).run (Memory.serveFaulty faults)
      ⟨memory, turn⟩).state.memory.contents
    (∀ key content, Path.Plain fs.suffix key → key ≠ source →
      (key = destination → ¬ faults.Hits (.status key)) →
      memory.contents[key]? = some content → fileFinal[key]? = some content) ∧
    (∀ key content, Path.Plain fs.suffix key → ¬ source ++ [separator] <+: key →
      (destination ++ [separator] <+: key → ¬ faults.Hits (.status key)) →
      memory.contents[key]? = some content → final[key]? = some content) ∧
    (¬ faults.Hits (.status (source ++ fs.suffix)) → ∀ key, Path.Plain fs.suffix key →
      source ++ [separator] <+: key → key ∈ final → final[key]? = memory.contents[key]?) := by
  intro fileFinal final
  have onward : Onward fs.suffix faults.Hits source source destination memory.contents :=
    ⟨old, new, List.prefix_refl _, fun differs => absurd rfl differs,
      fun differs => absurd rfl differs, tidy⟩
  have lands : (fs.moveFile source destination).Ensures (Memory.may faults.Hits) memory
      fun _ => Landed fs faults.Hits source destination memory :=
    ensures_moveFile_lands proper old new
  have landed := Memory.run_of_ensures_faulty turn
    (lands.succeeds_leaves (.fileNotRenamed source destination))
  have harmless := Memory.run_of_ensures_faulty turn
    ((ensures_moveDirectory_harmless proper fs.limits.depth onward).succeeds_leaves
      (.directoryNotRenamed source destination))
  exact ⟨landed.kept, harmless.spared.kept, harmless.spared.arrivals⟩

omit proper in
/-- The destination is taken for free, but the file below it is seen. -/
theorem rename_spares_shown_below :
    let memory := Memory.holding [("a/x".toList, [120]), ("b/x".toList, [121])]
    let faults : Faults := fun _ query => match query with
      | .status key => if key = "b_$folder$".toList then some "not looked up" else none
      | .list stem _ _ => if stem = "b/".toList then some "not listed" else none
      | _ => none
    let ended := (usual.renameDirectory "a".toList "b".toList).run (Memory.serveFaulty faults)
      ⟨memory, 0⟩
    memory.contents.Tidy usual.suffix ∧ ¬ faults.Hits (.status "b/x".toList) ∧
      "b_$folder$".toList ∈ ended.state.memory.contents ∧
      ended.state.memory.contents["b/x".toList]? = some [121] := by
  intro memory faults ended
  have tidy : memory.contents.Tidy usual.suffix := by decide +kernel
  have old : Path.Plain usual.suffix "a".toList := by decide
  have new : Path.Plain usual.suffix "b".toList := by decide
  have reliable : ¬ faults.Hits (.status "b/x".toList) := by
    rintro ⟨turn, message, hit⟩
    cases hit
  have spared := rename_spares_shown faults 0 usual_proper old new tidy
  refine ⟨tidy, reliable, by decide +kernel, ?_⟩
  exact spared.2.1 "b/x".toList [121] (by decide) (by decide) (fun _ => reliable)
    (by decide +kernel)

omit proper in
/-- A file whose look-up fails is overwritten. -/
theorem not_rename_spares : ¬ ∀ (fs : FileSystem) (source destination : Path) (memory : Memory)
    (faults : Faults), fs.Proper → Path.Plain fs.suffix source →
    Path.Plain fs.suffix destination → memory.contents.Tidy fs.suffix →
    ∀ key content, Path.Plain fs.suffix key → key ≠ source →
      memory.contents[key]? = some content →
      ((fs.renameFile source destination).run (Memory.serveFaulty faults)
        ⟨memory, 0⟩).state.memory.contents[key]? = some content := by
  intro spares
  have kept := spares usual "a".toList "b".toList
    (.holding [("a".toList, [120]), ("b".toList, [121])])
    (fun _ query => match query with
      | .status key => if key = "b".toList then some "not looked up" else none
      | _ => none)
    usual_proper (by decide) (by decide) (by decide +kernel) "b".toList [121] (by decide)
    (by decide) (by decide +kernel)
  have replaced : ((usual.renameFile "a".toList "b".toList).run
      (Memory.serveFaulty fun _ query => match query with
        | .status key => if key = "b".toList then some "not looked up" else none
        | _ => none)
      ⟨.holding [("a".toList, [120]), ("b".toList, [121])], 0⟩).state.memory.contents[
        "b".toList]? = some [120] := by
    decide +kernel
  cases replaced.symm.trans kept

end FileSystem
end KeyTree
