import KeyTree.Proofs.Announcing
import KeyTree.Proofs.Course

/-!
How deep a rename goes. Markers that are put in and keys that are copied make the store grow while
a directory is renamed, but below its source no key ever has more names than some key had there
before. So every rename nested in it starts from a path that is no deeper, and the rename ends,
whatever fails on the way and wherever it goes (`renameDirectory_ends`).
-/
namespace KeyTree

open KeyTree.Path (separator)
open Program (Ensures Settles handlerOf)

/-- What ends or is refused is answered once its success is asked for. -/
theorem Program.succeeds_answers {I : Interface} {σ : Type} {handler : Handler I σ}
    {program : Program I Unit} {state : σ} {post : Unit → Prop}
    (fate : Fate (Failure.Expected (fun _ => True) False) post (program.run handler state).result)
    (notice : Cause → Notice) :
    ∃ answer, ((program.succeeds notice).run handler state).result = .ok answer := by
  rw [(run_succeeds handler program notice state).1]
  generalize (program.run handler state).result = result at fate
  cases result with
  | ok value => exact ⟨true, rfl⟩
  | error failure =>
    cases failure with
    | refused cause => exact ⟨false, rfl⟩
    | defect _ | tooManyPages | tooDeep => exact fate.elim

namespace Path
variable {path name : Path}

/-- How many names the separators of the path leave. -/
def names (path : Path) : Nat := (path.splitOn separator).length

theorem names_child (path rest : Path) :
    (path ++ separator :: rest : Path).names = path.names + rest.names := by
  rw [names, names, names, List.splitOn_append_cons_self, List.length_append]

theorem names_of_not_mem (whole : separator ∉ name) : name.names = 1 := by
  rw [names, List.splitOn_eq_singleton whole, List.length_singleton]

theorem names_eq_count (path : Path) : path.names = path.count separator + 1 := by
  by_cases whole : separator ∈ path
  · obtain ⟨name, rest, rfl, first⟩ := List.eq_append_cons_of_mem whole
    have shorter : rest.length < (name ++ separator :: rest).length := by
      rw [List.length_append, List.length_cons]
      omega
    rw [names_child, names_of_not_mem first, names_eq_count rest, List.count_append,
      List.count_cons_self, List.count_eq_zero_of_not_mem first]
    omega
  · rw [names_of_not_mem whole, List.count_eq_zero_of_not_mem whole]
termination_by path.length

theorem names_pos (path : Path) : 0 < path.names := by
  rw [names_eq_count]
  exact Nat.succ_pos _

/-- A suffix adds no name. -/
theorem names_marker {suffix : Key} (whole : separator ∉ suffix) (path : Path) :
    (path ++ suffix : Path).names = path.names := by
  rw [names_eq_count, names_eq_count, List.count_append, List.count_eq_zero_of_not_mem whole,
    Nat.add_zero]

/-- What stands below a path has more names. -/
theorem names_lt_of_below {key : Key} (below : path ++ [separator] <+: key) :
    path.names < names key := by
  obtain ⟨rest, rfl⟩ := stem_prefix_iff.mp below
  rw [names_child]
  exact Nat.lt_add_of_pos_right (names_pos rest)

end Path

/-- The most names that a key below the stem has, or none if there is no key. -/
theorem Contents.exists_top (contents : Contents) (stem : Key) :
    ∃ top, (∀ key ∈ contents, stem <+: key → Path.names key ≤ top) ∧
      (top = 0 ∨ ∃ key ∈ contents, stem <+: key ∧ Path.names key = top) := by
  have member : ∀ key, key ∈ contents.keys.filter (stem <+: ·) ↔ key ∈ contents ∧ stem <+: key := by
    intro key
    rw [List.mem_filter, Std.ExtTreeMap.mem_keys, decide_eq_true_eq]
  cases most : ((contents.keys.filter (stem <+: ·)).map Path.names).max? with
  | none =>
    have bare := List.map_eq_nil_iff.mp (List.max?_eq_none_iff.mp most)
    refine ⟨0, fun key present below => ?_, .inl rfl⟩
    have listed := (member key).mpr ⟨present, below⟩
    rw [bare] at listed
    cases listed
  | some top =>
    obtain ⟨reached, bound⟩ := List.max?_eq_some_iff.mp most
    obtain ⟨key, listed, same⟩ := List.mem_map.mp reached
    obtain ⟨present, below⟩ := (member key).mp listed
    exact ⟨top, fun key present below => bound _
      (List.mem_map_of_mem ((member key).mpr ⟨present, below⟩)), .inr ⟨key, present, below, same⟩⟩

namespace Course
variable {course : Course} {suffix key path rest name : Key} {top : Nat}

/-- The keys that may be there during the move, where those below the source have at most so many
names. -/
def Keeps (course : Course) (suffix : Key) (top : Nat) (key : Key) : Prop :=
  course.Allows suffix key ∧ (course.source ++ [separator] <+: key → Path.names key ≤ top)

/-- The source itself is guarded unless the target is inside it. -/
theorem Guards.source (new : Path.Named course.target)
    (apart : ¬ course.source ++ [separator] <+: course.target ++ [separator]) :
    course.Guards (course.source ++ [separator]) where
  ends := ⟨_, rfl⟩
  apart within := apart (within.trans (List.prefix_append _ _))
  behind within := by
    obtain same | above := List.prefix_concat_iff.mp within
    · exact absurd same new.concat_ne
    · exact above

section keys
variable (whole : separator ∉ suffix)
include whole

/-- What the move puts at the target has no more names than what it takes from the source. -/
theorem keeps_moved (guards : course.Guards (course.source ++ [separator]))
    (more : course.target.length + course.near ≤ course.far)
    (within : (course.source ++ rest).length ≤ course.near)
    (deep : rest ≠ [] → Path.names (course.source ++ rest) ≤ top)
    (shape : key = course.target ++ rest ∨ key = course.target ++ rest ++ suffix) :
    course.Keeps suffix top key := by
  refine ⟨allows_moved whole more within shape, fun below => ?_⟩
  have inner := stem_prefix_core whole shape below
  have above := guards.above inner
  have nested : rest ≠ [] := by
    rintro rfl
    have short := above.length_le
    have long := inner.length_le
    rw [List.append_nil, List.length_append, List.length_singleton] at long
    omega
  have same : Path.names key = Path.names (course.target ++ rest) := by
    obtain rfl | rfl := shape
    · rfl
    · exact Path.names_marker whole _
  have fewer : Path.names (course.target ++ rest) ≤ Path.names (course.source ++ rest) := by
    rw [Path.names_eq_count, Path.names_eq_count, List.count_append, List.count_append]
    have counted := above.sublist.count_le separator
    omega
  exact same ▸ fewer.trans (deep nested)

/-- The marker of what is above a key that may be there may be there. -/
theorem Keeps.marker (keeps : course.Keeps suffix top key) (below : path ++ [separator] <+: key) :
    course.Keeps suffix top (path ++ suffix) := by
  refine ⟨Allows.marker whole keeps.1 below, fun within => ?_⟩
  rw [Path.names_marker whole]
  have outer := stem_prefix_trans ((stem_prefix_marker whole).mp within) below
  exact (Path.names_lt_of_below below).le.trans (keeps.2 outer)

end keys

/-- A directory to which the move comes: so far below the source, and below the target where it
goes. -/
structure Visits (course : Course) (top : Nat) (rest : Key) : Prop where
  old : Path.Named (course.source ++ rest)
  new : Path.Named (course.target ++ rest)
  inside : course.source ++ [separator] <+: course.source ++ rest ++ [separator]
  guards : course.Guards (course.source ++ rest ++ [separator])
  short : (course.source ++ rest).length ≤ course.near
  deep : rest ≠ [] → Path.names (course.source ++ rest) ≤ top

/-- A name that a directory to which the move comes has below it. -/
structure Child (course : Course) (top : Nat) (rest name : Key) : Prop where
  given : name ≠ []
  single : separator ∉ name
  short : (course.source ++ rest ++ [separator] ++ name).length ≤ course.near
  deep : Path.names (course.source ++ rest) + 1 ≤ top

theorem Child.named (child : course.Child top rest name) : Path.Named name :=
  (Path.Named.iff_of_not_mem child.single).mpr child.given

theorem Child.names_eq (child : course.Child top rest name) :
    Path.names (course.source ++ (rest ++ separator :: name)) =
      Path.names (course.source ++ rest) + 1 := by
  rw [← List.append_assoc, Path.names_child, Path.names_of_not_mem child.single]

namespace Visits

theorem child (visits : course.Visits top rest) (child : course.Child top rest name) :
    course.Visits top (rest ++ separator :: name) := by
  constructor
  · rw [← List.append_assoc]
    exact Path.Named.append_iff.mpr ⟨visits.old, child.named⟩
  · rw [← List.append_assoc]
    exact Path.Named.append_iff.mpr ⟨visits.new, child.named⟩
  · have longer := visits.inside.trans (prefix_behind _ name [separator])
    simpa only [List.append_assoc, List.cons_append, List.nil_append] using longer
  · have guards := visits.guards.child name
    simpa only [List.append_assoc, List.cons_append, List.nil_append] using guards
  · simpa only [List.append_assoc, List.cons_append, List.nil_append] using child.short
  · intro _
    exact child.names_eq.trans_le child.deep

/-- The marker of what the move comes to may be there. -/
theorem keeps_source (whole : separator ∉ suffix) (near : course.near ≤ course.far)
    (visits : course.Visits top rest) :
    course.Keeps suffix top (course.source ++ rest ++ suffix) := by
  refine ⟨allows_of_short near (.marked visits.short), fun below => ?_⟩
  rw [Path.names_marker whole]
  apply visits.deep
  rintro rfl
  rw [List.append_nil] at below
  exact not_stem_prefix_marker whole below

end Visits
end Course

namespace FileSystem
variable {Cursor : Type} [Store.Tame Cursor] {fs : FileSystem} {course : Course} {top : Nat}
  {rest : Key}

/-- What is listed below a directory to which the move comes. -/
theorem welcomes_visited (proper : fs.Proper) (near : course.near ≤ course.far)
    (visits : course.Visits top rest) :
    Welcomes fs (course.Keeps fs.suffix top) (course.source ++ rest ++ [separator]) false
      fun entry => course.Child top rest entry.name := by
  have whole := proper.suffix_whole
  have key := proper.relative_named visits.old
  constructor
  · intro listed permitted given
    obtain ⟨single, short⟩ := permitted.name_short whole
      (fun key keeps below => keeps.1.2 _ visits.guards below) rfl given
    obtain ⟨key, keeps, below, _⟩ := permitted
    have more := Path.names_lt_of_below below
    exact ⟨given, single, short, more.trans_le (keeps.2 (visits.inside.trans below))⟩
  · intro start permitted
    obtain ⟨name, single, rfl, deeper, keeps, below⟩ := permitted.group_start
    have given : fs.root.relative (course.source ++ rest) ≠ [] := key.symm ▸ visits.old.ne_nil
    have marker := markerKey_of_group given visits.old.getLast?_ne single
    rw [key] at marker
    obtain top | same := marker
    · have bare : ([] : Key).length ≤ course.near := Nat.zero_le _
      rw [top]
      refine ⟨Course.allows_of_short near (.marked bare), fun within => ?_⟩
      exact absurd (within.subset (by simp)) whole
    · rw [same]
      exact keeps.marker whole below

/-- While only these keys are in the store, the program settles, and it announces no nested move
from a path of more names. -/
abbrev Leveled (Cursor : Type) [Store.Tame Cursor] (allowed : Key → Prop) (top : Nat) {α : Type}
    (program : Program (Move.interface Cursor) α) (post : α → Prop) : Prop :=
  Move.Spares Store.Tame.may (fun state => ∀ key ∈ Store.Tame.contents state, allowed key)
    (Failure.Expected (fun _ => True) False) (fun source => top < source.names) program post

theorem leveled_ofStore {allowed : Key → Prop} {α : Type} {program : Store.Action Cursor α}
    {post : α → Prop} (settles : Contained Cursor (fun _ => True) False allowed program post) :
    Leveled Cursor allowed top (Move.ofStore program) post :=
  Move.spares_ofStore settles

theorem leveled_announce {allowed : Key → Prop} {source : Path} (destination : Path)
    (few : source.names ≤ top) :
    Leveled Cursor allowed top (Move.announce source destination) fun _ => True :=
  Move.spares_announce (Nat.not_lt.mpr few)

section moving
variable (proper : fs.Proper) (more : course.target.length + course.near ≤ course.far)
include proper more

theorem keeps_markerKey_old (visits : course.Visits top rest) :
    course.Keeps fs.suffix top (fs.markerKey (course.source ++ rest)) := by
  rw [proper.markerKey_named visits.old]
  exact visits.keeps_source proper.suffix_whole (Nat.le_of_add_left_le more)

variable (start : course.Guards (course.source ++ [separator]))
include start

theorem keeps_markerKey_new (visits : course.Visits top rest) :
    course.Keeps fs.suffix top (fs.markerKey (course.target ++ rest)) := by
  rw [proper.markerKey_named visits.new]
  exact Course.keeps_moved proper.suffix_whole start more visits.short visits.deep (.inr rfl)

theorem contained_moveFile_visited (visits : course.Visits top rest) :
    Contained Cursor (fun _ => True) False (course.Keeps fs.suffix top)
      (fs.moveFile (course.source ++ rest) (course.target ++ rest)) fun _ => True := by
  apply contained_moveFile fun _ => keeps_markerKey_new proper more start visits
  intro _
  rw [proper.relative_named visits.new]
  exact Course.keeps_moved proper.suffix_whole start more visits.short visits.deep (.inl rfl)

/-- What is below a directory of the source is moved, as far as the directories below it are. -/
theorem leveled_announcedEntry (visits : course.Visits top rest) {entry : Entry}
    (child : course.Child top rest entry.name) {depth : Nat}
    (nested : ∀ {next : Key}, course.Visits top next →
      Path.names (course.source ++ next) = Path.names (course.source ++ rest) + 1 →
      Leveled Cursor (course.Keeps fs.suffix top) top
        (fs.announcedMove depth (course.source ++ next) (course.target ++ next)) fun _ => True) :
    Leveled Cursor (course.Keeps fs.suffix top) top
      (fs.announcedEntry depth (course.source ++ rest) (course.target ++ rest) entry)
      fun _ => True := by
  have next := visits.child child
  have few := child.names_eq.trans_le child.deep
  rw [announcedEntry, visits.old.join_eq child.named, visits.new.join_eq child.named,
    List.append_assoc, List.append_assoc]
  apply Settles.ite
  · intro _
    exact Settles.bind (leveled_announce _ few) fun _ _ => nested next child.names_eq
  · exact fun _ => leveled_ofStore (contained_moveFile_visited proper more start next)

variable (ample : Ample fs False (course.Keeps fs.suffix top))
include ample

/-- A directory of the source is moved in as many levels as the keys below it have names. -/
theorem leveled_announcedMove (visits : course.Visits top rest) {depth : Nat} (levels : 0 < depth)
    (deep : top < Path.names (course.source ++ rest) + depth) :
    Leveled Cursor (course.Keeps fs.suffix top) top
      (fs.announcedMove depth (course.source ++ rest) (course.target ++ rest)) fun _ => True := by
  -- On the levels; each nested move has one name more, and no more than some key had before.
  induction depth generalizing rest with
  | zero => exact absurd levels (Nat.lt_irrefl 0)
  | succ depth ih =>
    have old := keeps_markerKey_old proper more visits
    have new := keeps_markerKey_new proper more start visits
    have welcomes := welcomes_visited proper (Nat.le_of_add_left_le more) visits
    rw [← proper.stem_named visits.old] at welcomes
    rw [announcedMove_succ]
    apply Settles.ite (fun _ => .fail trivial)
    intro _
    apply Settles.bind (leveled_ofStore (contained_requireChildren ample (fun _ => old) welcomes))
    intro entries good
    apply Settles.bind (leveled_ofStore (contained_requireAbsent fun _ => new))
    intro _ _
    apply Settles.bind (leveled_ofStore (contained_copyMarker _ new))
    intro _ _
    refine .bind (.forM fun entry member => ?_) fun _ _ => leveled_ofStore
      (contained_removeDirectory ample (fun _ => old) (welcomes_recursive _))
    have child := good entry member
    have longer := child.deep
    apply leveled_announcedEntry proper more start visits child
    intro next later counted
    exact ih later (by omega) (by omega)

omit start in
/-- Where the target is inside the source the move is refused, and else it comes to the source. -/
theorem leveled_announcedMove_first (old : Path.Named course.source)
    (new : Path.Named course.target) (short : course.source.length ≤ course.near) {depth : Nat}
    (levels : 0 < depth) (deep : top < Path.names course.source + depth) :
    Leveled Cursor (course.Keeps fs.suffix top) top
      (fs.announcedMove depth course.source course.target) fun _ => True := by
  by_cases inside : course.source ++ [separator] <+: course.target ++ [separator]
  · obtain ⟨depth, rfl⟩ := Nat.exists_eq_succ_of_ne_zero levels.ne'
    rw [announcedMove_succ, proper.stem_named old, proper.stem_named new, if_pos inside]
    exact .fail trivial
  · have start := Course.Guards.source new inside
    have source : course.source ++ [] = course.source := List.append_nil _
    have target : course.target ++ [] = course.target := List.append_nil _
    have visits : course.Visits top [] :=
      ⟨source.symm ▸ old, target.symm ▸ new, source.symm ▸ List.prefix_refl _,
        source.symm ▸ start, source.symm ▸ short, absurd rfl⟩
    have leveled : Leveled Cursor (course.Keeps fs.suffix top) top
        (fs.announcedMove depth (course.source ++ []) (course.target ++ [])) fun _ => True :=
      leveled_announcedMove proper more start ample visits levels (source.symm ▸ deep)
    rwa [source, target] at leveled

end moving

/-- A rename of a directory ends, with limits for as many pages as may be needed, and for as many
nested renames as the keys below the source have names more than the source. For all that, each
rename nested in it, and these are the ones that it announces, is from a path with no more names
than some key had below the source before. -/
theorem renameDirectory_ends (proper : fs.Proper) {source destination : Path}
    (old : source.Named) (new : destination.Named)
    (readable : ∃ size, fs.settings.pageSize = .ok size) (memory : Memory) :
    ∃ room, ∀ limits : Limits, room ≤ limits.pages → 0 < limits.depth →
      (∀ key ∈ memory.contents, source ++ [separator] <+: key →
        Path.names key < source.names + limits.depth) →
      ∀ (faults : Faults) (turn : Nat),
        let tuned : FileSystem := { fs with limits }
        let told : Program (Move.interface Memory.Cursor) Unit :=
          tuned.announcedMove limits.depth source destination
        let ended := told.run (handlerOf Move.silent (Memory.serveFaulty faults)) ⟨memory, turn⟩
        (∃ answer, ((tuned.renameDirectory source destination).run (Memory.serveFaulty faults)
          ⟨memory, turn⟩).result = .ok answer) ∧
        told.servedBy Move.silent = tuned.moveDirectory limits.depth source destination ∧
        ∀ nested ∈ Move.nestedSources ended.exchanges, ∃ key ∈ memory.contents,
          source ++ [separator] <+: key ∧ nested.names ≤ Path.names key := by
  obtain ⟨top, bound, reached⟩ := memory.contents.exists_top (source ++ [separator])
  let near := memory.contents.reach + source.length
  let course : Course := ⟨source, destination, near, destination.length + near⟩
  obtain ⟨keys, covers⟩ := Short.covered fs.suffix course.far
  refine ⟨keys.length + 1, fun limits pages depth deep faults turn => ?_⟩
  intro tuned told ended
  have proper : tuned.Proper := ⟨proper.scheme, proper.suffix_ne_nil, proper.suffix_whole⟩
  have ample : Ample tuned False (course.Keeps tuned.suffix top) :=
    ⟨readable, .inr ⟨keys, pages, fun key keeps => covers key keeps.1.1⟩⟩
  have kept : ∀ key ∈ memory.contents, course.Keeps tuned.suffix top key := fun key present =>
    ⟨Course.allows_of_short (Nat.le_add_left _ _) (.plain
      ((Contents.length_lt_reach present).le.trans (Nat.le_add_right _ _))), bound key present⟩
  have below : top < source.names + limits.depth := by
    obtain rfl | ⟨key, present, inside, rfl⟩ := reached
    · exact Nat.add_pos_right _ depth
    · exact deep key present inside
  have leveled : Leveled Memory.Cursor (course.Keeps tuned.suffix top) top told fun _ => True :=
    leveled_announcedMove_first proper (Nat.le_refl _) ample old new (Nat.le_add_left _ _) depth
      below
  obtain ⟨fate, few⟩ := leveled.run (Memory.serveFaulty_within_tame faults) ⟨memory, turn⟩ kept
  have same : told.servedBy Move.silent = tuned.moveDirectory limits.depth source destination :=
    servedBy_silent_announcedMove tuned limits.depth source destination
  refine ⟨?_, same, fun nested member => ?_⟩
  · have served := (Program.run_servedBy Move.silent (Memory.serveFaulty faults) told
      ⟨memory, turn⟩).1
    rw [renameDirectory, ← same]
    exact Program.succeeds_answers (served ▸ fate) _
  · have some_name := nested.names_pos
    have within := Nat.not_lt.mp (few nested member)
    obtain rfl | ⟨key, present, inside, rfl⟩ := reached
    · exact absurd (some_name.trans_le within) (Nat.lt_irrefl 0)
    · exact ⟨key, present, inside, within⟩

/-- A directory goes to the place of the one above it, which is not seen while what is below it
cannot be listed. -/
example :
    let memory := Memory.holding [("a/b/c/x".toList, [120]), ("a/b/c/d/y".toList, [121])]
    let faults : Faults := fun _ query =>
      match query with
      | .list stem _ _ => if stem = "a/".toList then some "out of reach" else none
      | _ => none
    let told : Program (Move.interface Memory.Cursor) Unit :=
      usual.announcedMove 4 "a/b".toList "a".toList
    let ended := told.run (handlerOf Move.silent (Memory.serveFaulty faults)) ⟨memory, 0⟩
    Move.nestedSources ended.exchanges = ["a/b/c".toList, "a/b/c/d".toList] ∧
      ended.state.memory.contents.keys = ["a/c/d/y".toList, "a/c/d_$folder$".toList,
        "a/c/x".toList, "a/c_$folder$".toList, "a_$folder$".toList] := by
  decide +kernel

/-- A rename to the place of the directory above, and keys of five names below the source of two. -/
theorem renameDirectory_ends_upwards :
    let memory := Memory.holding [("a/b/c/x".toList, [120]), ("a/b/c/d/y".toList, [121])]
    Path.Named "a/b".toList ∧ Path.Named "a".toList ∧
    (∃ size, usual.settings.pageSize = .ok size) ∧
    ∃ limits : Limits, limits.depth = 4 ∧
      (∀ key ∈ memory.contents, "a/b".toList ++ [separator] <+: key →
        Path.names key < Path.names "a/b".toList + limits.depth) ∧
      ∀ (faults : Faults) (turn : Nat),
        let tuned : FileSystem := { usual with limits }
        let told : Program (Move.interface Memory.Cursor) Unit :=
          tuned.announcedMove limits.depth "a/b".toList "a".toList
        let ended := told.run (handlerOf Move.silent (Memory.serveFaulty faults)) ⟨memory, turn⟩
        (∃ answer, ((tuned.renameDirectory "a/b".toList "a".toList).run
          (Memory.serveFaulty faults) ⟨memory, turn⟩).result = .ok answer) ∧
        told.servedBy Move.silent =
          tuned.moveDirectory limits.depth "a/b".toList "a".toList ∧
        ∀ nested ∈ Move.nestedSources ended.exchanges, ∃ key ∈ memory.contents,
          "a/b".toList ++ [separator] <+: key ∧ nested.names ≤ Path.names key := by
  intro memory
  have old : Path.Named "a/b".toList := by decide
  have new : Path.Named "a".toList := by decide
  have readable : ∃ size, usual.settings.pageSize = .ok size :=
    ⟨_, Settings.pageSize_integer rfl⟩
  have listed : ∀ key ∈ memory.contents.keys, "a/b".toList ++ [separator] <+: key →
      Path.names key < Path.names "a/b".toList + 4 := by decide +kernel
  have deep : ∀ key ∈ memory.contents, "a/b".toList ++ [separator] <+: key →
      Path.names key < Path.names "a/b".toList + 4 :=
    fun key present => listed key (Std.ExtTreeMap.mem_keys.mpr present)
  obtain ⟨room, ends⟩ := renameDirectory_ends usual_proper old new readable memory
  exact ⟨old, new, readable, ⟨room, 4⟩, rfl, deep,
    ends ⟨room, 4⟩ (Nat.le_refl _) (Nat.succ_pos 3) deep⟩

end FileSystem
end KeyTree
