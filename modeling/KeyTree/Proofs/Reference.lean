import KeyTree.Proofs.Anywhere
import KeyTree.Proofs.Growth
import KeyTree.Proofs.Shifting

/-!
What a listing shows of any keys. The rest of a key behind the stem of the path tells of one entry
(`Told`), and a listing has each of these once, a directory where any of the keys tells of one.
Besides the marker of the path it puts in the marker of every name that is cut from a longer key.
-/
namespace KeyTree

open KeyTree.Path (separator)
open Program (Ensures Returns)

namespace Entry
variable {suffix stem : Key} {recursive : Bool} {rest : Path} {entry : Entry}

/-- The entry that the rest of a key tells of. A listing that is not recursive cuts the rest at its
first separator; what is not cut is a marker, a placeholder or a file. -/
inductive Told (suffix : Key) (recursive : Bool) : Path → Entry → Prop where
  | group {name rest : Path} : recursive = false → separator ∉ name →
      Told suffix recursive (name ++ separator :: rest) ⟨name, true⟩
  | marker {name : Path} : recursive = true ∨ separator ∉ name ++ suffix →
      Told suffix recursive (name ++ suffix) ⟨name, true⟩
  | placeholder {name : Path} : recursive = true → ¬ suffix <:+ name ++ [separator] →
      Told suffix recursive (name ++ [separator]) ⟨name, true⟩
  | file {name : Path} : recursive = true ∨ separator ∉ name → ¬ suffix <:+ name →
      name.getLast? ≠ some separator → Told suffix recursive name ⟨name, false⟩

theorem exists_told (suffix : Key) (recursive : Bool) (rest : Path) :
    ∃ entry, Told suffix recursive rest entry := by
  by_cases uncut : recursive = true ∨ separator ∉ rest
  · by_cases marked : suffix <:+ rest
    · obtain ⟨name, rfl⟩ := marked
      exact ⟨_, .marker uncut⟩
    · by_cases last : rest.getLast? = some separator
      · obtain ⟨name, rfl⟩ := List.getLast?_eq_some_iff.mp last
        exact ⟨_, .placeholder (uncut.resolve_right (by simp)) marked⟩
      · exact ⟨_, .file uncut marked last⟩
  · obtain ⟨single, cut⟩ := not_or.mp uncut
    obtain ⟨name, rest, rfl, first⟩ := List.eq_append_cons_of_mem (not_not.mp cut)
    exact ⟨_, .group (by simpa using single) first⟩

theorem ofKey_uncut (stem : Key) (uncut : recursive = true ∨ separator ∉ rest) :
    Listed.ofKey stem (!recursive) (stem ++ rest) = .object (stem ++ rest) := by
  obtain rfl | whole := uncut
  · rfl
  · exact Contents.ofKey_append_whole stem _ whole

/-- A listing reads a key as it is told. -/
theorem Told.ofListed (given : suffix ≠ []) (told : Told suffix recursive rest entry) :
    Entry.ofListed suffix stem (Listed.ofKey stem (!recursive) (stem ++ rest)) = entry := by
  cases told with
  | group single first =>
    rw [single, Bool.not_false, Contents.ofKey_append_group stem first, ofListed_cut suffix stem first]
  | marker uncut =>
    rw [ofKey_uncut stem uncut, Entry.ofListed, List.drop_left, ofObject_marker given]
  | placeholder deep unmarked =>
    rw [ofKey_uncut stem (.inl deep), Entry.ofListed, List.drop_left, ofObject, if_neg given,
      if_neg unmarked, List.getLast?_concat, if_pos rfl, List.dropLast_concat]
  | file uncut unmarked last =>
    rw [ofKey_uncut stem uncut, Entry.ofListed, List.drop_left, ofObject, if_neg given,
      if_neg unmarked, if_neg last]

theorem told_iff (given : suffix ≠ []) : Told suffix recursive rest entry ↔
    entry = Entry.ofListed suffix stem (Listed.ofKey stem (!recursive) (stem ++ rest)) := by
  constructor
  · exact fun told => (told.ofListed given).symm
  · rintro rfl
    obtain ⟨other, told⟩ := exists_told suffix recursive rest
    rwa [told.ofListed given]

/-- Entries that are recorded keep their names. -/
theorem named_of_record {children : List Entry} (named : [] ∉ (entry.record children).map name) :
    entry.name ≠ [] ∧ [] ∉ children.map name := by
  rw [map_name_record] at named
  split at named
  · exact ⟨fun bare => named (bare ▸ ‹entry.name ∈ _›), named⟩
  · simp only [List.mem_append, List.mem_singleton, not_or] at named
    exact ⟨Ne.symm named.2, named.1⟩

end Entry

namespace Contents
variable {suffix stem : Key} {recursive : Bool} {contents other : Contents} {name : Path}

/-- Some key behind the stem tells of the entry. -/
def Tells (suffix stem : Key) (recursive : Bool) (contents : Contents) (entry : Entry) : Prop :=
  ∃ rest, stem ++ rest ∈ contents ∧ Entry.Told suffix recursive rest entry

theorem shown_iff_tells (given : suffix ≠ []) {entry : Entry} :
    contents.Shown suffix stem (!recursive) entry ↔ contents.Tells suffix stem recursive entry := by
  constructor
  · rintro ⟨_, present, ⟨rest, rfl⟩, reads⟩
    exact ⟨rest, present, (Entry.told_iff given).mpr reads⟩
  · rintro ⟨rest, present, told⟩
    exact ⟨_, present, List.prefix_append _ _, (Entry.told_iff given).mp told⟩

/-- The name is cut from a longer key behind the stem. -/
structure Groups (stem : Key) (contents : Contents) (name : Path) : Prop where
  named : name ≠ []
  first : separator ∉ name
  under : contents.Under (stem ++ name)

theorem Groups.tells (groups : contents.Groups stem name) :
    contents.Tells suffix stem false ⟨name, true⟩ := by
  obtain ⟨key, present, rest, rfl⟩ := groups.under
  have shape : stem ++ name ++ [separator] ++ rest = stem ++ (name ++ separator :: rest) := by simp
  exact ⟨_, shape ▸ present, .group rfl groups.first⟩

/-- The file of a name is told by its key alone. -/
theorem tells_file_iff : contents.Tells suffix stem recursive ⟨name, false⟩ ↔
    stem ++ name ∈ contents ∧ (recursive = true ∨ separator ∉ name) ∧ ¬ suffix <:+ name ∧
      name.getLast? ≠ some separator := by
  constructor
  · rintro ⟨_, present, told⟩
    cases told with
    | file uncut unmarked last => exact ⟨present, uncut, unmarked, last⟩
  · rintro ⟨present, uncut, unmarked, last⟩
    exact ⟨name, present, .file uncut unmarked last⟩

/-- Right below the stem a directory is told by its marker and by every key behind its stem. -/
theorem tells_directory_iff (whole : separator ∉ suffix) :
    contents.Tells suffix stem false ⟨name, true⟩ ↔
      separator ∉ name ∧ contents.HasDirectory suffix (stem ++ name) := by
  constructor
  · rintro ⟨_, present, told⟩
    cases told with
    | @group _ rest _ first =>
      exact ⟨first, .inr ⟨_, present, rest, by simp⟩⟩
    | marker uncut =>
      have single := uncut.resolve_left Bool.false_ne_true
      rw [← List.append_assoc] at present
      exact ⟨fun inner => single (List.mem_append_left _ inner), .inl present⟩
    | placeholder deep _ => cases deep
  · rintro ⟨first, marked | ⟨_, present, rest, rfl⟩⟩
    · rw [List.append_assoc] at marked
      exact ⟨_, marked, .marker (.inr (not_mem_marker whole first))⟩
    · exact ⟨name ++ separator :: rest, by simpa using present, .group rfl first⟩

/-- Anywhere below it, only by its marker and its placeholder. -/
theorem tells_deep_directory_iff (whole : separator ∉ suffix) (given : suffix ≠ []) :
    contents.Tells suffix stem true ⟨name, true⟩ ↔ contents.Obscured suffix (stem ++ name) := by
  constructor
  · rintro ⟨_, present, told⟩
    cases told with
    | group deep _ => cases deep
    | marker _ => exact .inl (by rwa [List.append_assoc])
    | placeholder _ _ => exact .inr (by rwa [List.append_assoc])
  · rintro (marked | held)
    · exact ⟨name ++ suffix, by rwa [← List.append_assoc], .marker (.inl rfl)⟩
    · refine ⟨name ++ [separator], by rwa [← List.append_assoc], .placeholder rfl ?_⟩
      rintro ⟨front, ends⟩
      exact marker_ne_stem whole given front name ends

theorem Obscured.hasDirectory {path : Path} (obscured : contents.Obscured suffix path) :
    contents.HasDirectory suffix path :=
  obscured.imp_right fun held => ⟨_, held, List.prefix_refl _⟩

/-- A name that is told as a directory is one. -/
theorem Tells.hasDirectory (whole : separator ∉ suffix) (given : suffix ≠ [])
    (tells : contents.Tells suffix stem recursive ⟨name, true⟩) :
    contents.HasDirectory suffix (stem ++ name) := by
  cases recursive with
  | false => exact ((tells_directory_iff whole).mp tells).2
  | true => exact ((tells_deep_directory_iff whole given).mp tells).hasDirectory

theorem prefix_of_grouped {key : Key} (below : stem ++ name ++ [separator] <+: key) :
    stem <+: key :=
  (prefix_behind stem name _).trans below

theorem groups_congr (same : ∀ key, stem <+: key → other[key]? = contents[key]?) :
    other.Groups stem name ↔ contents.Groups stem name := by
  have under : other.Under (stem ++ name) ↔ contents.Under (stem ++ name) :=
    Under.congr fun key below => same key (prefix_of_grouped below)
  exact ⟨fun ⟨named, first, below⟩ => ⟨named, first, under.mp below⟩,
    fun ⟨named, first, below⟩ => ⟨named, first, under.mpr below⟩⟩

/-- The group of a listing is cut from a key behind the stem. -/
theorem groups_of_listed {start : Key} {grouped : Bool}
    (listed : .group start ∈ contents.entries stem grouped) : grouped = true ∧
      ∃ name, start = stem ++ name ++ [separator] ∧
        Entry.ofListed suffix stem (.group start) = ⟨name, true⟩ ∧
        (name ≠ [] → contents.Groups stem name) := by
  obtain rfl := grouped_of_group listed
  have permitted : (Listed.group start).Permitted (· ∈ contents) stem false :=
    (mem_entries true).mp listed
  obtain ⟨name, first, rfl, key, present, below⟩ := permitted.group_start
  exact ⟨rfl, name, rfl, Entry.ofListed_cut suffix stem first,
    fun named => ⟨named, first, key, present, below⟩⟩

/-- Of the objects of a grouped listing only the marker shows a directory. -/
theorem marker_of_listed (given : suffix ≠ []) {key : Key}
    (listed : .object key ∈ contents.entries stem true)
    (shown : Entry.ofListed suffix stem (.object key) = ⟨name, true⟩) :
    key = stem ++ name ++ suffix ∧ key ∈ contents := by
  have permitted : (Listed.object key).Permitted (· ∈ contents) stem false :=
    (mem_entries true).mp listed
  obtain ⟨rest, whole, rfl, present⟩ := permitted.object_rest
  rw [← ofKey_append_whole stem (!false) whole] at shown
  cases (Entry.told_iff given).mpr shown.symm with
  | group _ _ => exact absurd (by simp) whole
  | marker _ => exact ⟨(List.append_assoc ..).symm, present⟩
  | placeholder deep _ => cases deep

end Contents

namespace Root
variable {root : Root} {path : Path}

theorem head?_stem_ne (root : Root) (path : Path) : (root.stem path).head? ≠ some separator := by
  by_cases below : root.relative path = []
  · simp [stem_root below]
  · obtain ⟨_, _, first⟩ := (root.relative_normal path).resolve_left below
    obtain ⟨c, rest, key⟩ := List.exists_cons_of_ne_nil below
    rw [key, List.head?_cons] at first
    rw [stem_eq below, key]
    unfold Path.withSeparator
    split
    · exact first
    · exact first

end Root

namespace FileSystem
variable {fs : FileSystem} {memory : Memory} {path : Path} {recursive : Bool} {contents : Contents}

/-- Where no key spells the root, the marker of a group replaces its separator by the suffix. -/
theorem markerKey_group {name : Path} (groups : contents.Groups (fs.root.stem path) name)
    (rootless : ∀ key ∈ contents, fs.root.stem path <+: key → ¬ fs.root.start <+: key) :
    fs.markerKey (fs.root.stem path ++ name ++ [separator]) =
      fs.root.stem path ++ name ++ fs.suffix := by
  obtain ⟨named, first, key, present, below⟩ := groups
  have behind : fs.root.stem path <+: key := Contents.prefix_of_grouped below
  have outside : ¬ fs.root.start <+: fs.root.stem path ++ name ++ [separator] := fun within =>
    rootless key present behind (within.trans below)
  have same : fs.root.relative (fs.root.stem path ++ name ++ [separator]) =
      fs.root.stem path ++ name ++ [separator] := by
    apply Root.relative_eq_self_of
    · intro spelled
      unfold Path.withSeparator at spelled
      rw [if_pos List.getLast?_concat] at spelled
      exact outside (spelled ▸ List.prefix_refl _)
    · exact outside
    · have lead := fs.root.head?_stem_ne path
      generalize fs.root.stem path = stem at lead ⊢
      cases stem with
      | nil =>
        obtain ⟨c, rest, rfl⟩ := List.exists_cons_of_ne_nil named
        intro cut
        exact first (by simp [Option.some.inj cut])
      | cons c rest => exact lead
  unfold markerKey markerOf Path.dropSeparator
  rw [same, if_pos List.getLast?_concat, List.dropLast_concat]

/-- A listing has put in nothing but markers of groups, and has one for each group that it knows. -/
structure Marking (fs : FileSystem) (stem : Key) (recursive : Bool) (before : Contents)
    (children : List Entry) (now : Contents) : Prop where
  bound : ∀ key : Key, now[key]? = before[key]? ∨ now[key]? = some [] ∧ recursive = false ∧
    ∃ name, before.Groups stem name ∧ key = stem ++ name ++ fs.suffix
  marked : recursive = false → ∀ name, separator ∉ name → ⟨name, true⟩ ∈ children →
    stem ++ name ++ fs.suffix ∈ now

namespace Marking
variable {stem : Key} {before now : Contents} {children : List Entry}

theorem refl (fs : FileSystem) (stem : Key) (recursive : Bool) (before : Contents) :
    Marking fs stem recursive before [] before :=
  ⟨fun _ => .inl rfl, fun _ _ _ member => by cases member⟩

theorem mem (marking : Marking fs stem recursive before children now) {key : Key}
    (present : key ∈ before) : key ∈ now := by
  obtain same | ⟨fresh, _⟩ := marking.bound key
  · exact (Contents.mem_of_lookup_eq same).mpr present
  · exact Contents.mem_iff_lookup.mpr ⟨[], fresh⟩

/-- An object brings its own marker if it makes a name a directory. -/
theorem record_object (given : fs.suffix ≠ [])
    (marking : Marking fs stem recursive before children now) {key : Key}
    (listed : .object key ∈ before.entries stem (!recursive)) :
    Marking fs stem recursive before
      ((Entry.ofListed fs.suffix stem (.object key)).record children) now := by
  refine ⟨marking.bound, fun single name first member => ?_⟩
  subst single
  obtain known | shown := Entry.directory_of_mem_record member
  · exact marking.marked rfl name first known
  · obtain ⟨rfl, present⟩ := Contents.marker_of_listed given listed shown
    exact marking.mem present

/-- A group gets its marker. -/
theorem record_group (marking : Marking fs stem recursive before children now) {name : Path}
    (groups : before.Groups stem name) (single : recursive = false) :
    Marking fs stem recursive before (Entry.record ⟨name, true⟩ children)
      (now.insert (stem ++ name ++ fs.suffix) []) := by
  constructor
  · intro key
    rw [Contents.lookup_insert]
    split
    · rename_i same
      exact .inr ⟨rfl, single, name, groups, same.symm⟩
    · exact marking.bound key
  · intro _ other first member
    obtain known | same := Entry.directory_of_mem_record member
    · exact Std.ExtTreeMap.mem_insert.mpr (.inr (marking.marked single other first known))
    · rw [(Entry.mk.inj same).1]
      exact Std.ExtTreeMap.mem_insert_self

end Marking

/-- What the walk of a listing keeps up, as long as it knows no entry without a name. -/
theorem upholds_marking (given : fs.suffix ≠ [])
    (rootless : ∀ key ∈ contents, fs.root.stem path <+: key → ¬ fs.root.start <+: key) :
    Upholds fs (fun _ => False) (fs.root.stem path)
      (contents.entries (fs.root.stem path) !recursive) fun children now =>
        [] ∉ children.map Entry.name →
          Marking fs (fs.root.stem path) recursive contents children now.contents := by
  constructor
  · intro key listed children now kept named
    exact (kept (Entry.named_of_record named).2).record_object given listed
  · intro start listed children now kept named
    obtain ⟨grouped, name, rfl, reads, groups⟩ := Contents.groups_of_listed listed
    rw [reads] at named ⊢
    obtain ⟨given, earlier⟩ := Entry.named_of_record named
    rw [markerKey_group (groups given) rootless]
    exact (kept earlier).record_group (groups given) (by simpa using grouped)
  · intro _ _ hit
    exact hit.elim

/-- The keys that a listing leaves: those that were there, the marker of the path and, unless it is
recursive, the markers of all names that are cut from longer keys. -/
def Leaves (fs : FileSystem) (path : Path) (recursive : Bool) (before : Contents) (key : Key) :
    Prop :=
  key ∈ before ∨ (fs.root.isRoot path = false ∧ key = fs.markerKey path) ∨
    (recursive = false ∧ ∃ name, before.Groups (fs.root.stem path) name ∧
      key = fs.root.stem path ++ name ++ fs.suffix)

theorem Marking.mem_iff {probed : Memory} {children : List Entry} {now : Contents}
    (whole : separator ∉ fs.suffix) (sought : Sought fs path memory true probed)
    (marking : Marking fs (fs.root.stem path) recursive probed.contents children now)
    (shown : ∀ name, probed.contents.Groups (fs.root.stem path) name → recursive = false →
      ⟨name, true⟩ ∈ children) (key : Key) :
    key ∈ now ↔ fs.Leaves path recursive memory.contents key := by
  have groups_iff : ∀ name, probed.contents.Groups (fs.root.stem path) name ↔
      memory.contents.Groups (fs.root.stem path) name :=
    fun name => Contents.groups_congr fun _ => sought.lookup_below whole
  constructor
  · intro present
    obtain same | ⟨_, single, name, groups, rfl⟩ := marking.bound key
    · have stored := (Contents.mem_of_lookup_eq same).mp present
      obtain old | ⟨_, below, rfl, _⟩ := sought.bound key
      · exact .inl ((Contents.mem_of_lookup_eq old).mp stored)
      · exact .inr (.inl ⟨below, rfl⟩)
    · exact .inr (.inr ⟨single, name, (groups_iff name).mp groups, rfl⟩)
  · rintro (old | ⟨below, rfl⟩ | ⟨single, name, groups, rfl⟩)
    · exact marking.mem (sought.mem old)
    · exact marking.mem (sought.marked rfl below)
    · have there := (groups_iff name).mpr groups
      exact marking.marked single name groups.first (shown name there single)

section listing
variable {pageSize : Nat} (whole : separator ∉ fs.suffix) (given : fs.suffix ≠ [])
  (rootless : ∀ key ∈ memory.contents, ¬ fs.root.start <+: key)
  (read : fs.settings.pageSize = .ok pageSize) (room : memory.contents.size < fs.limits.pages)
include whole given rootless read room

/-- A listing is always answered, and its answer and what it leaves are told by the keys. -/
theorem returns_children_told (path : Path) (recursive : Bool) :
    (fs.children path recursive).Returns (Memory.may fun _ => False) memory fun answer later =>
      (answer = none ∧ ¬ fs.DirectoryAt memory.contents path ∧ later = memory) ∨
      ∃ children, answer = some children ∧ fs.DirectoryAt memory.contents path ∧
        Merged children (memory.contents.Tells fs.suffix (fs.root.stem path) recursive) ∧
        ∀ key, key ∈ later.contents ↔ fs.Leaves path recursive memory.contents key := by
  have listing : (fs.children path recursive).Ensures (Memory.may fun _ => False) memory
      (Exposed fs (fun _ => False) path recursive (fun before children now =>
        [] ∉ children.map Entry.name →
          Marking fs (fs.root.stem path) recursive before children now.contents) memory) :=
    ensures_children_at onlyDeletes_false
      (fun probed sought => upholds_marking given fun key present below => rootless key
        ((Contents.mem_of_lookup_eq (sought.lookup_below whole below)).mp present))
      fun _ _ _ => .refl ..
  apply Ensures.mono listing
  rintro (failure | _ | children) later exposed
  · obtain ⟨_, ⟨_, ⟨⟩⟩ | ⟨_, unread⟩ | ⟨probed, sought, long⟩⟩ := exposed.stopped failure rfl
    · cases read.symm.trans unread
    · have short : (probed.contents.entries (fs.root.stem path) !recursive).length ≤
          memory.contents.keys.length :=
        Contents.length_entries_le _ fun key present below => Std.ExtTreeMap.mem_keys.mpr
          ((Contents.mem_of_lookup_eq (sought.lookup_below whole below)).mp present)
      rw [Std.ExtTreeMap.length_keys] at short
      omega
  · obtain ⟨missing, rfl⟩ := exposed.absent rfl
    exact ⟨none, rfl, .inl ⟨rfl, missing, rfl⟩⟩
  · obtain ⟨there, probed, sought, marking, merged⟩ := exposed.listed children rfl
    have tells : ∀ entry, probed.contents.Shown fs.suffix (fs.root.stem path) (!recursive) entry ↔
        memory.contents.Tells fs.suffix (fs.root.stem path) recursive entry := fun entry =>
      (Contents.Shown.congr fun _ => sought.lookup_below whole).trans
        (Contents.shown_iff_tells given)
    have named : [] ∉ children.map Entry.name := by
      intro bare
      obtain ⟨entry, member, same⟩ := List.mem_map.mp bare
      exact merged.named entry member same
    refine ⟨some children, rfl, .inr ⟨children, rfl, there, merged.congr fun entry _ => tells entry,
      (marking named).mem_iff whole sought fun name groups single => ?_⟩⟩
    subst single
    exact merged.directory_iff.mpr ⟨groups.named, (Contents.shown_iff_tells given).mpr groups.tells⟩

/-- A listing answers nothing exactly where no directory is found, and leaves all as it was there.
Else it has each name once that some key tells of, as a directory where some key tells of one, and
it adds to the keys the marker of the path and the markers of the names that it has cut. -/
theorem children_told (path : Path) (recursive : Bool) :
    let asked := (fs.isDirectory path).run Memory.serve memory
    let ended := (fs.children path recursive).run Memory.serve memory
    let tells := memory.contents.Tells fs.suffix (fs.root.stem path) recursive
    (asked.result = .ok false ∧ ended.result = .ok none ∧
      ended.state.contents = memory.contents) ∨
    (asked.result = .ok true ∧ ∃ children, ended.result = .ok (some children) ∧
      (children.map Entry.name).Nodup ∧
      (∀ name, ⟨name, true⟩ ∈ children ↔ name ≠ [] ∧ tells ⟨name, true⟩) ∧
      (∀ name, ⟨name, false⟩ ∈ children ↔
        name ≠ [] ∧ tells ⟨name, false⟩ ∧ ¬ tells ⟨name, true⟩) ∧
      ∀ key, key ∈ ended.state.contents ↔ fs.Leaves path recursive memory.contents key) := by
  intro asked ended tells
  have looks : ∃ found, asked.result = .ok found ∧ Sought fs path memory found asked.state :=
    Memory.run_of_ensures (returns_isDirectory_at onlyDeletes_false path)
  obtain ⟨found, answered, sought⟩ := looks
  have lists : ∃ answer, ended.result = .ok answer ∧ _ :=
    Memory.run_of_ensures (returns_children_told whole given rootless read room path recursive)
  obtain ⟨_, shows, ⟨rfl, missing, same⟩ | ⟨children, rfl, there, merged, leaves⟩⟩ := lists
  · have unfound : found = false := by simpa using sought.there.not.mpr missing
    exact .inl ⟨unfound ▸ answered, shows, congrArg Memory.contents same⟩
  · refine .inr ⟨sought.there.mpr there ▸ answered, children, shows, merged.once, ?_, ?_, leaves⟩
    · exact fun _ => merged.directory_iff
    · exact fun _ => merged.file_iff

end listing

theorem children_told_grouped :
    let memory := Memory.holding
      [("a//".toList, []), ("a/x/y".toList, [121]), ("a/z".toList, [122]), ("b".toList, [])]
    let ended := (usual.children "/a/".toList false).run Memory.serve memory
    (∀ key ∈ memory.contents, ¬ usual.root.start <+: key) ∧
      ∃ children, ended.result = .ok (some children) ∧ ⟨"x".toList, true⟩ ∈ children ∧
        "a/x_$folder$".toList ∈ ended.state.contents := by
  intro memory ended
  have apart : ∀ key ∈ memory.contents.keys, ¬ usual.root.start <+: key := by decide +kernel
  have rootless : ∀ key ∈ memory.contents, ¬ usual.root.start <+: key := fun key present =>
    apart key (Std.ExtTreeMap.mem_keys.mpr present)
  have stored : "a/x/y".toList ∈ memory.contents := by decide +kernel
  refine ⟨rootless, ?_⟩
  obtain ⟨missing, _⟩ | ⟨_, children, shows, _, directory, _, keys⟩ :=
    children_told (by decide) (by decide) rootless (Settings.pageSize_integer rfl)
      (by decide +kernel) "/a/".toList false
  · exact absurd missing (by decide +kernel)
  · have stem : usual.root.stem "/a/".toList = "a/".toList := by decide +kernel
    have groups : memory.contents.Groups (usual.root.stem "/a/".toList) "x".toList := by
      rw [stem]
      exact ⟨by decide, by decide, _, stored, by decide⟩
    refine ⟨children, shows, (directory _).mpr ⟨by decide, groups.tells⟩, (keys _).mpr ?_⟩
    exact .inr (.inr ⟨rfl, "x".toList, groups, by rw [stem]; rfl⟩)

end FileSystem
end KeyTree
