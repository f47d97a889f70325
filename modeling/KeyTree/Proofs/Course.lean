import KeyTree.Proofs.Conduct
import KeyTree.Proofs.Growth

/-!
Renaming a directory while calls fail. The move makes keys longer, but only where it does not
come again: below its source no key becomes longer than it could have been before, so neither a
listing nor the recursion goes on without end, whatever is missed on the way.
-/
namespace KeyTree

open KeyTree.Path (separator)
open Program (Settles)

/-- A move of what is below one stem to below another, with the lengths that keys may come to: those
that the move meets again, and those that it leaves behind. -/
structure Course where
  source : Key
  target : Key
  near : Nat
  far : Nat

namespace Course
variable {course : Course} {suffix stem key path name rest : Key}

/-- The move may come to what is below the stem, and puts nothing longer there. -/
structure Guards (course : Course) (stem : Key) : Prop where
  ends : ∃ path, stem = path ++ [separator]
  apart : ¬ stem <+: course.target
  behind : course.target <+: stem → course.target <+: course.source

/-- The keys that may be there during the move. -/
def Allows (course : Course) (suffix key : Key) : Prop :=
  Short suffix course.far key ∧
    ∀ stem, course.Guards stem → stem <+: key → Short suffix course.near key

namespace Guards

/-- What is guarded is guarded with all below it. -/
theorem child (guards : course.Guards stem) (name : Key) :
    course.Guards (stem ++ name ++ [separator]) where
  ends := ⟨_, rfl⟩
  apart within := guards.apart ((prefix_behind stem name _).trans within)
  behind within := by
    rcases List.prefix_or_prefix_of_prefix within (prefix_behind stem name _) with above | below
    · exact guards.behind above
    · exact absurd below guards.apart

/-- A child of the source is guarded unless the target is inside it. -/
theorem first (whole : separator ∉ name)
    (shape : course.target = [] ∨ ∃ path, course.target = path ++ [separator])
    (apart : ¬ course.source ++ name ++ [separator] <+: course.target) :
    course.Guards (course.source ++ name ++ [separator]) where
  ends := ⟨_, rfl⟩
  apart := apart
  behind within := by
    obtain bare | ⟨path, ends⟩ := shape
    · exact bare ▸ List.nil_prefix
    rcases List.prefix_concat_iff.mp within with same | inner
    · exact absurd (same ▸ List.prefix_refl _) apart
    rcases List.prefix_or_prefix_of_prefix inner (List.prefix_append course.source name) with
      above | ⟨part, same⟩
    · exact above
    · rw [← same, List.prefix_append_right_inj] at inner
      rcases List.eq_nil_or_concat part with rfl | ⟨front, c, rfl⟩
      · rw [← same, List.append_nil]
      · rw [ends, List.concat_eq_append, ← List.append_assoc] at same
        have last := List.singleton_inj.mp (List.append_inj' same rfl).2
        exact absurd (inner.subset (by simp [last])) whole

/-- A guarded stem that reaches over the target shows that the target is above the source. -/
theorem above (guards : course.Guards stem) (inner : stem <+: course.target ++ rest) :
    course.target <+: course.source :=
  guards.behind
    ((List.prefix_or_prefix_of_prefix inner (List.prefix_append _ _)).resolve_left guards.apart)

end Guards

theorem allows_of_short (more : course.near ≤ course.far) (short : Short suffix course.near key) :
    course.Allows suffix key :=
  ⟨short.mono more, fun _ _ _ => short⟩

variable (whole : separator ∉ suffix)
include whole

/-- What the move puts below the target is allowed if it was short below the source. -/
theorem allows_moved (more : course.target.length + course.near ≤ course.far)
    (within : (course.source ++ rest).length ≤ course.near) (shape : key = course.target ++ rest ∨
      key = course.target ++ rest ++ suffix) : course.Allows suffix key := by
  rw [List.length_append] at within
  have far : (course.target ++ rest).length ≤ course.far := by
    rw [List.length_append]
    omega
  refine ⟨⟨_, far, shape⟩, fun stem guards below => ?_⟩
  obtain ⟨path, rfl⟩ := guards.ends
  -- The target is above the source then: nothing became longer.
  have shorter := (guards.above (stem_prefix_core whole shape below)).length_le
  exact ⟨_, by rw [List.length_append]; omega, shape⟩

/-- The marker of what is above an allowed key is allowed. -/
theorem Allows.marker (allows : course.Allows suffix key) (below : path ++ [separator] <+: key) :
    course.Allows suffix (path ++ suffix) := by
  have lengthen : ∀ {bound}, Short suffix bound key → Short suffix bound (path ++ suffix) := by
    intro bound short
    have within := short.stem_le whole below
    rw [List.length_append] at within
    exact .marked (by omega)
  refine ⟨lengthen allows.1, fun stem guards within => lengthen (allows.2 stem guards ?_)⟩
  obtain ⟨outer, rfl⟩ := guards.ends
  exact stem_prefix_trans ((stem_prefix_marker whole).mp within) below

end Course

/-- A directory of the source and the place below the target to which it goes. -/
structure Course.Carries (course : Course) (root : Root) (rest : Key) (source destination : Path) :
    Prop where
  old : root.relative source = [] ∨ root.relative source = course.source ++ rest
  new : root.relative destination = [] ∨ root.relative destination = course.target ++ rest
  last : source.getLast? ≠ some separator
  final : destination.getLast? ≠ some separator
  short : (course.source ++ rest).length ≤ course.near

namespace Course.Carries
variable {course : Course} {root : Root} {rest name : Key} {source destination : Path}

/-- What is joined to both ends goes from below the one to below the other. -/
theorem child (first : root.start.head? ≠ some separator)
    (carries : course.Carries root rest source destination) (below : root.relative source ≠ [])
    (free : root.relative destination ≠ []) (given : name ≠ []) (whole : separator ∉ name)
    (short : (course.source ++ (rest ++ separator :: name)).length ≤ course.near) :
    course.Carries root (rest ++ separator :: name) (Path.join source name)
      (Path.join destination name) where
  old := by
    have joined := Root.relative_join first source given whole
    rwa [Path.trimEnd_of_getLast?_ne carries.last, Root.stem_below below carries.last,
      carries.old.resolve_left below, List.append_assoc, List.append_assoc] at joined
  new := by
    have joined := Root.relative_join first destination given whole
    rwa [Path.trimEnd_of_getLast?_ne carries.final, Root.stem_below free carries.final,
      carries.new.resolve_left free, List.append_assoc, List.append_assoc] at joined
  last := Path.getLast?_join_ne source given whole
  final := Path.getLast?_join_ne destination given whole
  short := short

section keys
variable {fs : FileSystem} (whole : separator ∉ fs.suffix)
  (more : course.target.length + course.near ≤ course.far)
  (carries : course.Carries fs.root rest source destination)
include more carries

theorem allows_source (below : fs.root.relative source ≠ []) :
    course.Allows fs.suffix (fs.markerKey source) := by
  have within := carries.short
  rw [← carries.old.resolve_left below] at within
  exact Course.allows_of_short (by omega)
    (.marked ((Path.length_dropSeparator_le _).trans within))

include whole

theorem allows_key (free : fs.root.relative destination ≠ []) :
    course.Allows fs.suffix (fs.root.relative destination) :=
  Course.allows_moved whole more carries.short (.inl (carries.new.resolve_left free))

theorem allows_marker (free : fs.root.relative destination ≠ []) :
    course.Allows fs.suffix (fs.markerKey destination) := by
  apply Course.allows_moved whole more carries.short
  right
  rw [FileSystem.markerKey, FileSystem.markerOf, ← carries.new.resolve_left free]
  exact congrArg (· ++ fs.suffix) (if_neg (Root.getLast?_relative_ne carries.final))

end keys

end Course.Carries

namespace FileSystem
variable {Cursor : Type} [Store.Tame Cursor] {fs : FileSystem} {endless : Prop} {course : Course}
  {rest : Key} {source destination path : Path}

/-- The marker of a group below a path, or of the root that the group is another spelling of. -/
theorem markerKey_of_group {name : Key} (below : fs.root.relative path ≠ [])
    (last : path.getLast? ≠ some separator) (single : separator ∉ name) :
    fs.markerKey (fs.root.relative path ++ [separator] ++ name ++ [separator]) = fs.suffix ∨
      fs.markerKey (fs.root.relative path ++ [separator] ++ name ++ [separator]) =
        fs.root.relative path ++ [separator] ++ name ++ fs.suffix := by
  have shape : fs.root.relative path ++ [separator] ++ name ++ [separator] =
      fs.root.relative path ++ separator :: (name ++ [separator]) := by simp
  have tail : separator ∉ (name ++ [separator]).dropLast := by rwa [List.dropLast_concat]
  rw [markerKey, markerOf, shape]
  obtain top | same := Root.relative_behind below last tail
  · rw [top]
    exact .inl rfl
  · rw [same, ← shape, Path.dropSeparator, List.getLast?_concat, if_pos rfl, List.dropLast_concat]
    exact .inr rfl

/-- What is listed below a directory of the source marks allowed keys, and has short names. -/
theorem welcomes_carried (whole : separator ∉ fs.suffix) (near : course.near ≤ course.far)
    (below : fs.root.relative path ≠ []) (last : path.getLast? ≠ some separator) :
    Welcomes fs (course.Allows fs.suffix) (fs.root.stem path) false fun entry =>
      entry.name ≠ [] ∧ (course.Guards (fs.root.stem path) →
        separator ∉ entry.name ∧ (fs.root.stem path ++ entry.name).length ≤ course.near) := by
  have stem := Root.stem_below below last
  constructor
  · intro listed permitted given
    refine ⟨given, fun guards => ?_⟩
    rw [stem] at permitted given guards ⊢
    exact permitted.name_short whole (fun key allows within => allows.2 _ guards within) rfl given
  · intro start permitted
    rw [stem] at permitted
    obtain ⟨name, single, rfl, key, allows, within⟩ := permitted.group_start
    obtain top | same := markerKey_of_group below last single
    · have bare : ([] : Key).length ≤ course.near := Nat.zero_le _
      rw [top]
      exact Course.allows_of_short near (.marked bare)
    · rw [same]
      exact Course.Allows.marker whole allows within

/-- A file below the source is moved to its place below the target. -/
theorem contained_moveFile_carried (whole : separator ∉ fs.suffix)
    (more : course.target.length + course.near ≤ course.far)
    (carries : course.Carries fs.root rest source destination) :
    Contained Cursor (fun _ => True) endless (course.Allows fs.suffix)
      (fs.moveFile source destination) fun _ => True :=
  contained_moveFile (fun free => carries.allows_marker whole more (Root.isRoot_eq_false.mp free))
    fun free => carries.allows_key whole more (Root.isRoot_eq_false.mp free)

section below
variable (whole : separator ∉ fs.suffix) (first : fs.root.start.head? ≠ some separator)
  (more : course.target.length + course.near ≤ course.far)
  (ample : Ample fs endless (course.Allows fs.suffix)) (depth : Nat)
include whole first more ample

/-- A directory below the source is moved in no more levels than its keys have characters. -/
theorem contained_moveDirectory_below
    (carries : course.Carries fs.root rest source destination)
    (guarded : course.Guards (course.source ++ rest ++ [separator]) ∨
      course.source ++ rest ++ [separator] <+: course.target)
    (deep : course.near < depth + (course.source ++ rest).length) :
    Contained Cursor (fun _ => True) endless (course.Allows fs.suffix)
      (fs.moveDirectory depth source destination) fun _ => True := by
  induction depth generalizing rest source destination with
  | zero =>
    have short := carries.short
    omega
  | succ depth ih =>
    rw [moveDirectory_succ]
    apply Settles.ite (fun _ => .fail trivial)
    intro apart
    have below : fs.root.relative source ≠ [] := fun top =>
      apart (Root.stem_root top ▸ List.nil_prefix)
    have stem := Root.stem_below below carries.last
    rw [carries.old.resolve_left below] at stem
    have marked : fs.root.isRoot source = false → course.Allows fs.suffix (fs.markerKey source) :=
      fun _ => carries.allows_source more below
    apply Settles.bind (contained_requireChildren ample marked
      (welcomes_carried whole (Nat.le_of_add_left_le more) below carries.last))
    intro entries good
    apply contained_moveListed (fun free =>
      carries.allows_marker whole more (Root.isRoot_eq_false.mp free)) ample depth marked
    intro here entry member
    have free := Root.isRoot_eq_false.mp here
    -- Had the target been inside this directory, the move would have been refused.
    have guards : course.Guards (course.source ++ rest ++ [separator]) := by
      apply guarded.resolve_right
      intro inside
      apply apart
      rw [stem, Root.stem_below free carries.final, carries.new.resolve_left free,
        List.append_assoc course.target]
      exact inside.trans (List.prefix_append _ _)
    rw [stem] at good
    obtain ⟨given, named⟩ := good entry member
    obtain ⟨single, short⟩ := named guards
    have shape : course.source ++ rest ++ [separator] ++ entry.name =
        course.source ++ (rest ++ separator :: entry.name) := by simp
    have next := carries.child first below free given single (shape ▸ short)
    apply Settles.ite
    · intro _
      apply ih next
      · rw [← shape]
        exact .inl (guards.child entry.name)
      · simp only [List.length_append, List.length_cons] at deep ⊢
        omega
    · exact fun _ => contained_moveFile_carried whole more next

/-- What the move meets first, directly in the source, goes with all that is below it. -/
theorem contained_moveEntry_first
    (shape : course.target = [] ∨ ∃ path, course.target = path ++ [separator]) {entry : Entry}
    (given : entry.name ≠ []) (single : separator ∉ entry.name)
    (carries : course.Carries fs.root entry.name (Path.join source entry.name)
      (Path.join destination entry.name)) (deep : course.near ≤ depth) :
    Contained Cursor (fun _ => True) endless (course.Allows fs.suffix)
      (fs.moveEntry depth source destination entry) fun _ => True := by
  apply Settles.ite
  · intro _
    apply contained_moveDirectory_below whole first more ample depth carries
    · by_cases inside : course.source ++ entry.name ++ [separator] <+: course.target
      · exact .inr inside
      · exact .inl (Course.Guards.first single shape inside)
    · have some_name := List.length_pos_iff.mpr given
      rw [List.length_append]
      omega
  · exact fun _ => contained_moveFile_carried whole more carries

end below

end FileSystem

namespace Course
variable {root : Root} {source destination : Path} {bound : Nat}

/-- The course of a rename between paths of at most so many characters. -/
def ofRename (root : Root) (source destination : Path) (bound : Nat) : Course where
  source := root.stem (Path.trimEnd source)
  target := root.stem (Path.trimEnd destination)
  near := 2 * bound + 1
  far := 3 * bound + 2

theorem length_stem_trimEnd_le {path : Path} (short : path.length ≤ bound) :
    (root.stem (Path.trimEnd path)).length ≤ bound + 1 :=
  (root.length_stem_le _).trans (Nat.succ_le_succ ((Path.length_trimEnd_le path).trans short))

theorem ofRename_more (new : destination.length ≤ bound) :
    let course := ofRename root source destination bound
    course.target.length + course.near ≤ course.far := by
  have target : (root.stem (Path.trimEnd destination)).length ≤ bound + 1 :=
    length_stem_trimEnd_le new
  dsimp only [ofRename]
  omega

theorem ofRename_carries (first : root.start.head? ≠ some separator) (old : source.length ≤ bound)
    {name : Key} (given : name ≠ []) (whole : separator ∉ name) (short : name.length ≤ bound) :
    (ofRename root source destination bound).Carries root name (Path.join source name)
      (Path.join destination name) where
  old := Root.relative_join first source given whole
  new := Root.relative_join first destination given whole
  last := Path.getLast?_join_ne source given whole
  final := Path.getLast?_join_ne destination given whole
  short := by
    have stem : (root.stem (Path.trimEnd source)).length ≤ bound + 1 := length_stem_trimEnd_le old
    dsimp only [ofRename]
    rw [List.length_append]
    omega

end Course

namespace FileSystem
variable {Cursor : Type} [Store.Tame Cursor] {fs : FileSystem} {endless : Prop}
  {source destination : Path} {bound : Nat}

/-- The first listing of a rename is that of the start, where all keys are short. -/
theorem welcomes_short (whole : separator ∉ fs.suffix) {path : Path}
    (below : fs.root.stem path ≠ []) :
    Welcomes fs (Short fs.suffix bound) (fs.root.stem path) false fun entry =>
      entry.name ≠ [] ∧ separator ∉ entry.name ∧ entry.name.length ≤ bound := by
  obtain ⟨front, ends⟩ := (fs.root.stem_shape path).resolve_left below
  rw [ends]
  constructor
  · intro listed permitted given
    obtain ⟨single, short⟩ := permitted.name_short whole (fun _ short _ => short) rfl given
    rw [List.length_append] at short
    exact ⟨given, single, Nat.le_of_add_left_le short⟩
  · intro start permitted
    obtain ⟨name, _, rfl, key, short, below⟩ := permitted.group_start
    exact short_markerKey (short.stem_le whole below)

/-- Renaming a directory ends: where it comes again, no key is longer than before. -/
theorem settled_moveDirectory (whole : separator ∉ fs.suffix)
    (first : fs.root.start.head? ≠ some separator) (old : source.length ≤ bound)
    (new : destination.length ≤ bound) (deep : 2 * bound + 1 < fs.limits.depth)
    (ample : Ample fs endless (Short fs.suffix (3 * bound + 2))) {state : Store.Tame.State Cursor}
    (kept : ∀ key ∈ Store.Tame.contents state, Short fs.suffix bound key) :
    (fs.moveDirectory fs.limits.depth source destination).Ensures Store.Tame.may state
      (Program.Settled
        (fun later => ∀ key ∈ Store.Tame.contents later,
          (Course.ofRename fs.root source destination bound).Allows fs.suffix key)
        (Failure.Expected (fun _ => True) endless) fun _ => True) := by
  have carries : ∀ name : Key, name ≠ [] → separator ∉ name → name.length ≤ bound →
      (Course.ofRename fs.root source destination bound).Carries fs.root name
        (Path.join source name) (Path.join destination name) :=
    fun _ => Course.ofRename_carries first old
  have more : (Course.ofRename fs.root source destination bound).target.length + _ ≤ _ :=
    Course.ofRename_more new
  have near : (Course.ofRename fs.root source destination bound).near = 2 * bound + 1 := rfl
  have far : (Course.ofRename fs.root source destination bound).far = 3 * bound + 2 := rfl
  have shape : (Course.ofRename fs.root source destination bound).target = [] ∨ ∃ path,
      (Course.ofRename fs.root source destination bound).target = path ++ [separator] :=
    fs.root.stem_shape (Path.trimEnd destination)
  generalize Course.ofRename fs.root source destination bound = course at *
  have allows : ∀ key, Short fs.suffix bound key → course.Allows fs.suffix key := fun key short =>
    Course.allows_of_short (by omega) (short.mono (by omega))
  obtain ⟨depth, levels⟩ := Nat.exists_eq_add_of_lt deep
  rw [levels, moveDirectory_succ]
  split
  · exact ⟨fun key present => allows key (kept key present), trivial⟩
  rename_i apart
  apply Program.Ensures.bind (contained_requireChildren
    (ample.mono fun key short => short.mono (by omega)) (fun _ => short_markerKey old)
    (welcomes_short whole fun bare => apart (bare ▸ List.nil_prefix)) state kept)
  · rintro entries later ⟨kept, good⟩
    have marked : ∀ path : Path, path.length ≤ bound →
        fs.root.isRoot path = false → course.Allows fs.suffix (fs.markerKey path) :=
      fun path short _ => allows _ (short_markerKey short)
    have ample := ample.mono fun key (here : course.Allows fs.suffix key) => far ▸ here.1
    refine contained_moveListed (marked destination new) ample _ (marked source old) ?_ later
      fun key present => allows key (kept key present)
    intro _ entry member
    obtain ⟨given, single, short⟩ := good entry member
    exact contained_moveEntry_first whole first more ample _ shape given single
      (carries entry.name given single short) (by omega)
  · rintro failure later ⟨kept, known⟩
    exact ⟨fun key present => allows key (kept key present), known⟩

end FileSystem
end KeyTree
