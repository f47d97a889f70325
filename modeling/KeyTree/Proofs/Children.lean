import KeyTree.Proofs.Probe
import KeyTree.Proofs.Walk

/-!
The children of a directory of neat contents. The grouped listing names what stands
directly below the path: a directory has a marker or keys below it, and everything else is
a file. The recursive listing names all paths below, but knows a directory only by its
marker or its placeholder.
-/
namespace KeyTree

open KeyTree.Path (separator)
open Program (Ensures Returns)

namespace Entry
variable {suffix : Key} {name rest : Path}

theorem ofObject_nil (given : suffix ≠ []) : ofObject suffix [] = ⟨[], false⟩ := by
  rw [ofObject, if_neg given, if_neg (fun ends => given (List.suffix_nil.mp ends)), if_neg (by simp)]

theorem ofObject_plain (whole : separator ∉ suffix) (given : suffix ≠ [])
    (plain : Path.Plain suffix name) : ofObject suffix name = ⟨name, false⟩ := by
  rw [ofObject, if_neg given, if_neg (plain.not_suffix whole), if_neg plain.getLast?_ne]

theorem ofObject_marker (given : suffix ≠ []) (name : Path) :
    ofObject suffix (name ++ suffix) = ⟨name, true⟩ := by
  rw [ofObject, if_neg given, if_pos (List.suffix_append _ _), List.length_append,
    Nat.add_sub_cancel, List.take_left]

theorem ofObject_placeholder (whole : separator ∉ suffix) (given : suffix ≠ []) (name : Path) :
    ofObject suffix (name ++ [separator]) = ⟨name, true⟩ := by
  have other : ¬ suffix <:+ name ++ [separator] := by
    rintro ⟨before, same⟩
    exact marker_ne_stem whole given before name same
  rw [ofObject, if_neg given, if_neg other, List.getLast?_concat, if_pos rfl, List.dropLast_concat]

end Entry

theorem Path.firstName_cut {name rest : Path} (whole : separator ∉ name) :
    Path.firstName (name ++ separator :: rest) = name := by
  rw [Path.firstName, List.takeWhile_append_of_pos, List.takeWhile_cons_of_neg (by simp),
    List.append_nil]
  intro c member
  exact decide_eq_true fun same => whole (same ▸ member)

/-- A marker shows its directory. -/
theorem Entry.ofListed_marker {suffix : Key} (given : suffix ≠ []) (stem name : Key) :
    ofListed suffix stem (.object (stem ++ name ++ suffix)) = ⟨name, true⟩ := by
  rw [ofListed, List.append_assoc, List.drop_left, ofObject_marker given]

/-- So does a group. -/
theorem Entry.ofListed_cut {name : Path} (suffix stem : Key) (first : separator ∉ name) :
    ofListed suffix stem (.group (stem ++ name ++ [separator])) = ⟨name, true⟩ := by
  rw [ofListed, List.append_assoc, List.drop_left, Path.firstName_cut first]

namespace Contents
variable {suffix stem : Key} {contents : Contents} {path name rest : Path} {key : Key}

/-- The contents show the entry in a listing below a stem. -/
def Shown (suffix stem : Key) (grouped : Bool) (contents : Contents) (entry : Entry) : Prop :=
  ∃ key ∈ contents, stem <+: key ∧ entry = .ofListed suffix stem (Listed.ofKey stem grouped key)

theorem Shown.congr {grouped : Bool} {other : Contents} {entry : Entry}
    (same : ∀ key, stem <+: key → other[key]? = contents[key]?) :
    other.Shown suffix stem grouped entry ↔ contents.Shown suffix stem grouped entry := by
  refine exists_congr fun key => and_congr_left fun ⟨below, _⟩ => ?_
  exact mem_of_lookup_eq (same key below)

theorem drop_stem : (path ++ separator :: rest).drop (path ++ [separator]).length = rest := by
  rw [List.append_cons path separator rest, List.drop_left]

/-- A rest without a separator is listed as an object. -/
theorem ofKey_append_whole (stem : Key) (grouped : Bool) (whole : separator ∉ rest) :
    Listed.ofKey stem grouped (stem ++ rest) = .object (stem ++ rest) := by
  simp only [Listed.ofKey, List.drop_left, whole, decide_false, Bool.and_false, Bool.false_eq_true,
    if_false]

theorem not_mem_marker (whole : separator ∉ suffix) (first : separator ∉ name) :
    separator ∉ name ++ suffix := by
  rw [List.mem_append]
  exact fun cut => cut.elim first whole

/-- So is the marker of a name right below the stem. -/
theorem ofKey_marker (stem : Key) (grouped : Bool) (whole : separator ∉ suffix)
    (first : separator ∉ name) :
    Listed.ofKey stem grouped (stem ++ name ++ suffix) = .object (stem ++ name ++ suffix) := by
  rw [List.append_assoc]
  exact ofKey_append_whole stem grouped (not_mem_marker whole first)

theorem ofKey_append_group (stem : Key) (first : separator ∉ name) :
    Listed.ofKey stem true (stem ++ (name ++ separator :: rest)) =
      .group (stem ++ name ++ [separator]) := by
  have cut : separator ∈ name ++ separator :: rest := by simp
  simp only [Listed.ofKey, List.drop_left, cut, decide_true, Bool.and_self, if_true,
    Path.firstName_cut first]

/-- A grouped listing shows a neat key as the placeholder of the stem, as a file or a marker right
below it, or in the group of the directory right below it. -/
theorem Neat.ofKey_cases (neat : contents.Neat suffix) (whole : separator ∉ suffix)
    (at_stem : Path.Stem suffix stem) (present : key ∈ contents) (below : stem <+: key) :
    (Listed.ofKey stem true key = .object key ∧
      (key = stem ∨ ∃ name, separator ∉ name ∧ Path.Plain suffix name ∧
        (key = stem ++ name ∨ key = stem ++ name ++ suffix))) ∨
    ∃ name, separator ∉ name ∧ Path.Plain suffix name ∧ stem ++ name ++ [separator] <+: key ∧
      Listed.ofKey stem true key = .group (stem ++ name ++ [separator]) := by
  rcases neat.named whole at_stem present below with rfl | ⟨name, first, plain, rfl | rfl | inside⟩
  · have object := ofKey_append_whole key true List.not_mem_nil
    rw [List.append_nil] at object
    exact .inl ⟨object, .inl rfl⟩
  · exact .inl ⟨ofKey_append_whole stem true first, .inr ⟨name, first, plain, .inl rfl⟩⟩
  · exact .inl ⟨ofKey_marker stem true whole first, .inr ⟨name, first, plain, .inr rfl⟩⟩
  · refine .inr ⟨name, first, plain, inside, ?_⟩
    obtain ⟨rest, rfl⟩ := inside
    have shape : stem ++ name ++ [separator] ++ rest = stem ++ (name ++ separator :: rest) := by simp
    rw [shape, ofKey_append_group stem first]

/-- An object of a grouped listing is the placeholder of the stem, or a file or a marker right
below it. -/
theorem Neat.listed_object (neat : contents.Neat suffix) (whole : separator ∉ suffix)
    (at_stem : Path.Stem suffix stem) (listed : .object key ∈ contents.entries stem true) :
    key ∈ contents ∧ (key = stem ∨ ∃ name, separator ∉ name ∧ Path.Plain suffix name ∧
      (key = stem ++ name ∨ key = stem ++ name ++ suffix)) := by
  obtain ⟨other, present, below, same⟩ := (mem_entries true).mp listed
  rcases neat.ofKey_cases whole at_stem present below with ⟨object, kind⟩ | ⟨_, _, _, _, group⟩
  · cases same.trans object
    exact ⟨present, kind⟩
  · cases same.trans group

theorem grouped_of_group {start : Key} {grouped : Bool}
    (listed : .group start ∈ contents.entries stem grouped) : grouped = true := by
  obtain ⟨key, _, _, same⟩ := (mem_entries grouped).mp listed
  cases grouped with
  | true => rfl
  | false => cases same

/-- A group of a listing shows a directory right below the stem. -/
theorem Neat.listed_group (neat : contents.Neat suffix) (whole : separator ∉ suffix)
    (at_stem : Path.Stem suffix stem) {start : Key} {grouped : Bool}
    (listed : .group start ∈ contents.entries stem grouped) :
    ∃ name, separator ∉ name ∧ Path.Plain suffix name ∧ contents.Under (stem ++ name) ∧
      start = stem ++ name ++ [separator] := by
  obtain rfl := grouped_of_group listed
  obtain ⟨key, present, below, same⟩ := (mem_entries true).mp listed
  rcases neat.ofKey_cases whole at_stem present below with
    ⟨object, _⟩ | ⟨name, first, plain, inside, group⟩
  · cases same.trans object
  · exact ⟨name, first, plain, ⟨key, present, inside⟩, Listed.group.inj (same.trans group)⟩

theorem ofKey_whole (grouped : Bool) (whole : separator ∉ rest) :
    Listed.ofKey (path ++ [separator]) grouped (path ++ separator :: rest) =
      .object (path ++ separator :: rest) := by
  rw [List.append_cons path separator rest, ofKey_append_whole _ grouped whole]

theorem ofKey_ungrouped (stem key : Key) : Listed.ofKey stem false key = .object key := rfl

theorem ofKey_group (first : separator ∉ name) :
    Listed.ofKey (path ++ [separator]) true (path ++ separator :: (name ++ separator :: rest)) =
      .group (path ++ separator :: name ++ [separator]) := by
  rw [List.append_cons path separator (name ++ _), ofKey_append_group _ first,
    List.append_cons path separator name]

theorem ofListed_object :
    Entry.ofListed suffix (path ++ [separator]) (.object (path ++ separator :: rest)) =
      Entry.ofObject suffix rest := by
  rw [Entry.ofListed, drop_stem]

theorem ofListed_group (first : separator ∉ name) :
    Entry.ofListed suffix (path ++ [separator]) (.group (path ++ separator :: name ++ [separator])) =
      ⟨name, true⟩ := by
  rw [Entry.ofListed, List.append_assoc, List.cons_append, drop_stem, Path.firstName_cut first]

variable (whole : separator ∉ suffix) (given : suffix ≠ [])
include whole given

/-- What a grouped listing shows of neat contents. -/
theorem shown_grouped_iff (neat : contents.Neat suffix) {entry : Entry} (named : entry.name ≠ []) :
    contents.Shown suffix (path ++ [separator]) true entry ↔
      separator ∉ entry.name ∧ Path.Plain suffix entry.name ∧
        if entry.isDirectory then contents.HasDirectory suffix (path ++ separator :: entry.name)
        else path ++ separator :: entry.name ∈ contents := by
  constructor
  · rintro ⟨key, present, below, rfl⟩
    rcases neat.child whole present below with rfl | ⟨name, first, plain, rfl | rfl | inside⟩
    · rw [ofKey_whole true List.not_mem_nil, ofListed_object, Entry.ofObject_nil given] at named
      exact absurd rfl named
    · rw [ofKey_whole true first, ofListed_object, Entry.ofObject_plain whole given plain]
      exact ⟨first, plain, present⟩
    · rw [List.append_assoc, List.cons_append, ofKey_whole true (not_mem_marker whole first),
        ofListed_object, Entry.ofObject_marker given]
      exact ⟨first, plain, .inl present⟩
    · obtain ⟨rest, rfl⟩ := inside
      have shape : path ++ separator :: name ++ [separator] ++ rest =
          path ++ separator :: (name ++ separator :: rest) := by simp
      rw [shape] at present ⊢
      rw [ofKey_group first, ofListed_group first]
      exact ⟨first, plain, .inr ⟨_, present, rest, shape⟩⟩
  · obtain ⟨name, isDirectory⟩ := entry
    rintro ⟨first, plain, there⟩
    cases isDirectory with
    | false =>
      refine ⟨_, there, stem_prefix_append, ?_⟩
      rw [ofKey_whole true first, ofListed_object, Entry.ofObject_plain whole given plain]
    | true =>
      rcases there with marked | ⟨key, present, rest, rfl⟩
      · rw [List.append_assoc, List.cons_append] at marked
        refine ⟨_, marked, stem_prefix_append, ?_⟩
        rw [ofKey_whole true (not_mem_marker whole first), ofListed_object,
          Entry.ofObject_marker given]
      · have shape : path ++ separator :: name ++ [separator] ++ rest =
            path ++ separator :: (name ++ separator :: rest) := by simp
        dsimp only at present
        rw [shape] at present
        refine ⟨_, present, stem_prefix_append, ?_⟩
        rw [ofKey_group first, ofListed_group first]

/-- What a recursive listing shows of neat contents. -/
theorem shown_recursive_iff (neat : contents.Neat suffix) {entry : Entry}
    (named : entry.name ≠ []) :
    contents.Shown suffix (path ++ [separator]) false entry ↔
      Path.Plain suffix entry.name ∧
        if entry.isDirectory then
          path ++ separator :: entry.name ++ suffix ∈ contents ∨
            path ++ separator :: entry.name ++ [separator] ∈ contents
        else path ++ separator :: entry.name ∈ contents := by
  constructor
  · rintro ⟨key, present, below, rfl⟩
    rw [ofKey_ungrouped] at named ⊢
    rcases neat.below whole present below with rfl | ⟨rest, plain, rfl | rfl | rfl⟩
    · rw [ofListed_object, Entry.ofObject_nil given] at named
      exact absurd rfl named
    · rw [ofListed_object, Entry.ofObject_plain whole given plain]
      exact ⟨plain, present⟩
    · have marked := present
      rw [List.append_assoc, List.cons_append, ofListed_object, Entry.ofObject_marker given]
      exact ⟨plain, .inl marked⟩
    · have held := present
      rw [List.append_assoc, List.cons_append, ofListed_object,
        Entry.ofObject_placeholder whole given]
      exact ⟨plain, .inr held⟩
  · obtain ⟨name, isDirectory⟩ := entry
    rintro ⟨plain, there⟩
    cases isDirectory with
    | false =>
      refine ⟨_, there, stem_prefix_append, ?_⟩
      rw [ofKey_ungrouped, ofListed_object, Entry.ofObject_plain whole given plain]
    | true =>
      simp only [List.append_assoc, List.cons_append, if_true] at there
      rcases there with marked | held
      · refine ⟨_, marked, stem_prefix_append, ?_⟩
        rw [ofKey_ungrouped, ofListed_object, Entry.ofObject_marker given]
      · refine ⟨_, held, stem_prefix_append, ?_⟩
        rw [ofKey_ungrouped, ofListed_object, Entry.ofObject_placeholder whole given]

end Contents

namespace Merged
variable {suffix : Key} {contents : Contents} {path name : Path} {children : List Entry}
  (whole : separator ∉ suffix) (given : suffix ≠ []) (neat : contents.Neat suffix)
include whole given neat

theorem grouped_directory_iff
    (merged : Merged children (contents.Shown suffix (path ++ [separator]) true)) :
    ⟨name, true⟩ ∈ children ↔ separator ∉ name ∧ Path.Plain suffix name ∧
      contents.HasDirectory suffix (path ++ separator :: name) := by
  have read := merged.congr fun _ named => Contents.shown_grouped_iff whole given neat named
  rw [read.directory_iff]
  exact and_iff_right_of_imp fun there => there.2.1.ne_nil

theorem grouped_file_iff
    (merged : Merged children (contents.Shown suffix (path ++ [separator]) true)) :
    ⟨name, false⟩ ∈ children ↔ separator ∉ name ∧ Path.Plain suffix name ∧
      path ++ separator :: name ∈ contents ∧
        ¬ contents.HasDirectory suffix (path ++ separator :: name) := by
  have read := merged.congr fun _ named => Contents.shown_grouped_iff whole given neat named
  rw [read.file_iff]
  constructor
  · rintro ⟨_, ⟨first, plain, present⟩, single⟩
    exact ⟨first, plain, present, fun directory => single ⟨first, plain, directory⟩⟩
  · rintro ⟨first, plain, present, single⟩
    exact ⟨plain.ne_nil, ⟨first, plain, present⟩, fun shown => single shown.2.2⟩

theorem recursive_directory_iff
    (merged : Merged children (contents.Shown suffix (path ++ [separator]) false)) :
    ⟨name, true⟩ ∈ children ↔ Path.Plain suffix name ∧
      contents.Obscured suffix (path ++ separator :: name) := by
  have read := merged.congr fun _ named => Contents.shown_recursive_iff whole given neat named
  rw [read.directory_iff]
  exact and_iff_right_of_imp fun there => there.1.ne_nil

theorem recursive_file_iff
    (merged : Merged children (contents.Shown suffix (path ++ [separator]) false)) :
    ⟨name, false⟩ ∈ children ↔ Path.Plain suffix name ∧ path ++ separator :: name ∈ contents ∧
      ¬ contents.Obscured suffix (path ++ separator :: name) := by
  have read := merged.congr fun _ named => Contents.shown_recursive_iff whole given neat named
  rw [read.file_iff]
  constructor
  · rintro ⟨_, ⟨plain, present⟩, single⟩
    exact ⟨plain, present, fun obscured => single ⟨plain, obscured⟩⟩
  · rintro ⟨plain, present, single⟩
    exact ⟨plain.ne_nil, ⟨plain, present⟩, fun shown => single shown.2⟩

end Merged

theorem Settings.pageSize_pos {settings : Settings} {pageSize : Nat}
    (read : settings.pageSize = .ok pageSize) : 0 < pageSize := by
  rw [Settings.pageSize, Settings.readListingLength] at read
  cases length : settings.listingLength.toInt with
  | error defect =>
    rw [length] at read
    cases read
  | ok value =>
    rw [length] at read
    cases read
    exact (Settings.capListingLength_bounds value).1

namespace FileSystem
variable {fs : FileSystem} {fallible : Store.Request Memory.Cursor → Prop} {memory : Memory}
  {path : Path}

/-- What can stop a listing below a path: a request that may fail, a page size that cannot
be read, or more pages than the limits allow. -/
def Obstructed (fs : FileSystem) (fallible : Store.Request Memory.Cursor → Prop)
    (contents : Contents) (path : Path) : Prop :=
  (∃ query, fallible query) ∨ (∃ defect, fs.settings.pageSize = .error defect) ∨
    ∀ keys : List Key, (∀ key ∈ contents, path ++ [separator] <+: key → key ∈ keys) →
      fs.limits.pages ≤ keys.length

/-- What a listing of children leaves. -/
structure Enumerated (fs : FileSystem) (fallible : Store.Request Memory.Cursor → Prop)
    (path : Path) (recursive : Bool) (before : Memory)
    (result : Except Failure (Option (List Entry))) (after : Memory) : Prop where
  heals : Heals fs.suffix path before.contents after.contents
  flat : recursive = true → ∀ key, key ≠ path ++ fs.suffix →
    after.contents[key]? = before.contents[key]?
  absent : result = .ok none →
    (before.contents.HasDirectory fs.suffix path → ∃ query, fallible query) ∧
      ((∀ key, ¬ fallible (.status key)) → after = before)
  listed : ∀ children, result = .ok (some children) → path ++ fs.suffix ∈ after.contents ∧
    Merged children (before.contents.Shown fs.suffix (path ++ [separator]) !recursive)
  stopped : ∀ failure, result = .error failure → fs.Obstructed fallible before.contents path

variable (proper : fs.Proper) (plain : Path.Plain fs.suffix path)
include proper plain

/-- Marking a group of a listing heals the directory that it shows. -/
theorem heals_markGroup {before now : Contents} (neat : before.Neat fs.suffix) {start : Key}
    (listed : .group start ∈ before.entries (path ++ [separator]) true)
    (heals : Heals fs.suffix path before now) :
    Heals fs.suffix path before (now.insert (fs.markerKey start) []) := by
  have whole := proper.suffix_whole
  have at_stem : Path.Stem fs.suffix (path ++ [separator]) := .inr ⟨path, plain, rfl⟩
  obtain ⟨name, _, named, under, rfl⟩ := neat.listed_group whole at_stem listed
  have child := at_stem.append_plain named
  rw [proper.markerKey_stem child]
  exact heals.trans whole (Heals.insert child ((heals.under_iff whole).mpr under)
    (.inr (prefix_behind _ name fs.suffix)))

omit proper plain in
theorem shows_entries {contents : Contents} {stem : Key} {grouped : Bool} {entry : Entry} :
    fs.Shows stem (contents.entries stem grouped) entry ↔
      contents.Shown fs.suffix stem grouped entry := by
  simp only [Shows, Contents.mem_entries]
  constructor
  · rintro ⟨_, ⟨key, present, below, rfl⟩, rfl⟩
    exact ⟨key, present, below, rfl⟩
  · rintro ⟨key, present, below, rfl⟩
    exact ⟨_, ⟨key, present, below, rfl⟩, rfl⟩

/-- What holds while a listing is walked: it heals, and a recursive one changes nothing. -/
structure Listing (fs : FileSystem) (path : Path) (recursive : Bool) (before now : Memory) :
    Prop where
  heals : Heals fs.suffix path before.contents now.contents
  flat : recursive = true → ∀ key : Key, now.contents[key]? = before.contents[key]?

omit proper plain in
theorem Listing.refl (recursive : Bool) : Listing fs path recursive memory memory :=
  ⟨.refl _ _ _, fun _ _ => rfl⟩

theorem Listing.mark {recursive : Bool} {now : Memory} (neat : memory.contents.Neat fs.suffix)
    {start : Key}
    (listed : .group start ∈ memory.contents.entries (path ++ [separator]) !recursive)
    (listing : Listing fs path recursive memory now) :
    Listing fs path recursive memory (now.insert (fs.markerKey start) []) := by
  cases recursive with
  | true => cases Contents.grouped_of_group listed
  | false => exact ⟨heals_markGroup proper plain neat listed listing.heals, nofun⟩

omit proper plain in
/-- A walk of the whole listing below a stem. -/
theorem ensures_walk_entries {contents : Contents} {stem : Key} {grouped : Bool} {pageSize : Nat}
    {inv : List Entry → Memory → Prop} (read : fs.settings.pageSize = .ok pageSize)
    (upholds : Upholds fs fallible stem (contents.entries stem grouped) inv)
    (begun : inv [] memory) :
    (Store.Page.walk (fs.mergePage stem) fs.limits.pages []
        (Memory.firstPage (contents.entries stem grouped) pageSize)).Ensures
      (Memory.may fallible) memory fun result later => (∃ known, inv known later) ∧
        (∀ children, result = .ok children → inv children later ∧
          Merged children (contents.Shown fs.suffix stem grouped)) ∧
        (∀ failure, result = .error failure → (∃ query, fallible query) ∨
          fs.limits.pages ≤ (contents.entries stem grouped).length) := by
  have positive := Settings.pageSize_pos read
  rw [Memory.firstPage, if_pos (by omega), Int.toNat_natCast]
  apply Ensures.mono (ensures_walk upholds fs.limits.pages positive .nil begun
    fun _ => Contents.prefix_start_of_mem_entries)
  rintro result later ⟨known, merges, stops⟩
  refine ⟨known, fun children same => ?_, stops⟩
  refine (merges children same).imp_right fun merged => merged.congr fun entry _ => ?_
  rw [false_or, shows_entries]

theorem ensures_children (neat : memory.contents.Neat fs.suffix) (recursive : Bool) :
    (fs.children path recursive).Ensures (Memory.may fallible) memory
      (Enumerated fs fallible path recursive memory) := by
  rw [children, proper.stem_plain plain]
  refine Returns.bind (returns_isDirectory proper plain) ?_
  rintro found probed look
  cases found with
  | false =>
    refine ⟨look.heals, fun _ => look.only, fun _ => ⟨look.missed rfl, fun truthful =>
      (look.unmarked rfl truthful).1⟩, ?_, ?_⟩
    · rintro _ ⟨⟩
    · rintro _ ⟨⟩
  | true =>
    have marked := look.marked rfl
    have stem_same : ∀ key, path ++ [separator] <+: key →
        probed.contents[key]? = memory.contents[key]? := by
      intro key below
      refine look.only key ?_
      rintro rfl
      exact not_stem_prefix_marker proper.suffix_whole below
    dsimp only
    rw [if_pos rfl]
    cases read : fs.settings.pageSize with
    | error defect =>
      refine ⟨look.heals, fun _ => look.only, ?_, ?_, fun _ _ => .inr (.inl ⟨defect, read⟩)⟩
      · rintro ⟨⟩
      · rintro _ ⟨⟩
    | ok pageSize =>
      refine Ensures.bind_done (Ensures.bind (Memory.ensures_list fallible _ _ _ _) ?_ ?_)
      · rintro page later ⟨rfl, ⟨⟨⟩⟩ | ⟨_, _, ⟨⟩⟩⟩
        have upholds : Upholds fs fallible (path ++ [separator])
            (later.contents.entries (path ++ [separator]) !recursive)
            fun _ => Listing fs path recursive later :=
          .of_memory fun start member now =>
            Listing.mark proper plain (look.heals.neat neat) member
        refine Ensures.bind (ensures_walk_entries read upholds (.refl recursive)) ?_ ?_
        · rintro final now ⟨⟨_, heals, flat⟩, merges, _⟩
          refine ⟨look.heals.trans proper.suffix_whole heals, fun flatly key other => ?_, ?_, ?_, ?_⟩
          · rw [flat flatly, look.only key other]
          · rintro ⟨⟩
          · rintro _ ⟨⟩
            refine ⟨heals.mem marked, (merges final rfl).2.congr fun entry _ => ?_⟩
            rw [Contents.Shown.congr stem_same]
          · rintro _ ⟨⟩
        · rintro failure now ⟨⟨_, heals, flat⟩, _, stops⟩
          refine ⟨look.heals.trans proper.suffix_whole heals, fun flatly key other => ?_, ?_, ?_, ?_⟩
          · rw [flat flatly, look.only key other]
          · rintro ⟨⟩
          · rintro _ ⟨⟩
          · rintro _ ⟨⟩
            refine (stops failure rfl).imp_right fun long => .inr fun keys covered => ?_
            refine Nat.le_trans long (Contents.length_entries_le _ fun key present below => ?_)
            exact covered key ((Contents.mem_of_lookup_eq (stem_same key below)).mp present) below
      · rintro failure later ⟨rfl, ⟨⟨⟩⟩ | ⟨hit, _⟩⟩
        refine ⟨look.heals, fun _ => look.only, ?_, ?_, fun _ _ => .inl ⟨_, hit⟩⟩
        · rintro ⟨⟩
        · rintro _ ⟨⟩

end FileSystem
end KeyTree
