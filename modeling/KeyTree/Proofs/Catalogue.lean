import KeyTree.Proofs.Room
import KeyTree.Proofs.Upkeep

/-!
What a listing of children leaves, to the last key. The entries are the merge of what the
contents show, and the markers of all directories that only the listing has shown are there
afterwards, whatever the size of the pages. So neither the entries nor what is left depends
on how the listing was cut into pages (`Catalogued.agree`).
-/
namespace KeyTree

open KeyTree.Path (separator)
open Program (Ensures Returns)

/-- The keys hold nothing afterwards, and every other key is as it was. -/
def Blanks (keys : Key → Prop) : Contents → Contents → Prop :=
  Rewrites keys fun key content => keys key ∧ content = []

/-- Some of the keys may hold nothing afterwards, and every other key is as it was. -/
def Strewn (keys : Key → Prop) (before after : Contents) : Prop :=
  ∀ key : Key, after[key]? = before[key]? ∨ after[key]? = some [] ∧ keys key

theorem Strewn.mono {keys wider : Key → Prop} {before after : Contents}
    (strewn : Strewn keys before after) (widens : ∀ key, keys key → wider key) :
    Strewn wider before after :=
  fun key => (strewn key).imp_right (And.imp_right (widens key))

theorem Blanks.of_present {keys : Key → Prop} {before after : Contents}
    (bound : Strewn keys before after)
    (blank : ∀ key content, keys key → before[key]? = some content → content = [])
    (present : ∀ key, keys key → key ∈ after) : Blanks keys before after where
  lands _ _ := And.left
  lookup_iff key content := by
    by_cases member : keys key
    · have fresh : after[key]? = some [] := by
        rcases bound key with same | ⟨fresh, _⟩
        · obtain ⟨kept, stored⟩ := Contents.mem_iff_lookup.mp (present key member)
          rw [stored, blank key kept member (same ▸ stored)]
        · exact fresh
      simp [fresh, member, eq_comm]
    · have same := (bound key).resolve_right fun fresh => member fresh.2
      simp [same, member]

theorem Blanks.bound {keys : Key → Prop} {before after : Contents}
    (blanks : Blanks keys before after) : Strewn keys before after := by
  intro key
  by_cases member : keys key
  · exact .inr ⟨(blanks.lookup_iff key []).mpr (.inr ⟨member, rfl⟩), member⟩
  · exact .inl (blanks.same member)

namespace Contents
variable {suffix stem : Key} {contents : Contents} {key : Key}

/-- The marker of a directory with keys below it, which is the one at the stem or, in a grouped
listing, right below it. -/
def Inferred (suffix stem : Key) (grouped : Bool) (contents : Contents) (key : Key) : Prop :=
  ∃ path, Path.Plain suffix path ∧ contents.Under path ∧ key = path ++ suffix ∧
    (stem = path ++ [separator] ∨
      grouped = true ∧ ∃ name, separator ∉ name ∧ Path.Plain suffix name ∧ path = stem ++ name)

theorem Inferred.mono {grouped : Bool} (inferred : contents.Inferred suffix stem false key) :
    contents.Inferred suffix stem grouped key := by
  obtain ⟨path, plain, under, same, own | ⟨⟨⟩, _⟩⟩ := inferred
  exact ⟨path, plain, under, same, .inl own⟩

/-- Below a plain path, a listing that is not grouped infers the one marker of the path. -/
theorem inferred_iff {path : Path} (plain : Path.Plain suffix path) :
    contents.Inferred suffix (path ++ [separator]) false key ↔
      contents.Under path ∧ key = path ++ suffix := by
  constructor
  · rintro ⟨other, _, under, same, stem | ⟨⟨⟩, _⟩⟩
    cases List.append_cancel_right stem
    exact ⟨under, same⟩
  · rintro ⟨under, same⟩
    exact ⟨path, plain, under, same, .inl rfl⟩

/-- The directory right below the stem is shown. -/
theorem shown_of_under {name : Path} (first : separator ∉ name)
    (under : contents.Under (stem ++ name)) : contents.Shown suffix stem true ⟨name, true⟩ := by
  obtain ⟨key, present, rest, rfl⟩ := under
  have shape : stem ++ name ++ [separator] ++ rest = stem ++ (name ++ separator :: rest) := by simp
  rw [shape] at present
  refine ⟨_, present, List.prefix_append _ _, ?_⟩
  rw [ofKey_append_group stem first, Entry.ofListed_cut suffix stem first]

theorem entries_subset {other : Contents} {grouped : Bool}
    (same : ∀ key, stem <+: key → other[key]? = contents[key]?) :
    other.entries stem grouped ⊆ contents.entries stem grouped := by
  intro entry listed
  obtain ⟨key, present, below, shown⟩ := (mem_entries grouped).mp listed
  exact (mem_entries grouped).mpr
    ⟨key, (mem_of_lookup_eq (same key below)).mp present, below, shown⟩

end Contents

/-- The marker of the directory itself is not below its stem. -/
theorem Strewn.below {suffix stem key : Key} {before after : Contents} (whole : separator ∉ suffix)
    (strewn : Strewn (before.Inferred suffix stem false) before after) (below : stem <+: key) :
    after[key]? = before[key]? := by
  apply (strewn key).resolve_right
  rintro ⟨_, other, _, _, rfl, rfl | ⟨⟨⟩, _⟩⟩
  exact not_stem_prefix_marker whole below

/-- The same entries, in one order or another. -/
def SameEntries : Option (List Entry) → Option (List Entry) → Prop
  | some one, some other => ∀ entry, entry ∈ one ↔ entry ∈ other
  | none, none => True
  | _, _ => False

namespace FileSystem
variable {fs : FileSystem} {path : Path} {memory : Memory} {stem : Key} {recursive : Bool}

/-- The page size can be read, and the limits leave room for all that a listing below the stem
could ever show. -/
structure Listable (fs : FileSystem) (stem : Key) (contents : Contents) : Prop where
  readable : ∃ pageSize, fs.settings.pageSize = .ok pageSize
  pages : ∃ keys : List Key, keys.length < fs.limits.pages ∧
    ∀ key, stem <+: key → contents.Potential fs.suffix key → key ∈ keys

theorem Listable.of_reach {contents : Contents} (stem : Key)
    (readable : ∃ pageSize, fs.settings.pageSize = .ok pageSize)
    (room : contents.reach ≤ fs.limits.pages) : fs.Listable stem contents where
  readable := readable
  pages := ⟨contents.candidates fs.suffix,
    Nat.lt_of_lt_of_le (Contents.length_candidates_lt fs.suffix contents) room,
    fun _ _ potential => potential.mem_candidates⟩

theorem Roomy.listable {depth : Nat} {contents : Contents} (roomy : fs.Roomy depth path contents) :
    fs.Listable (path ++ [separator]) contents :=
  ⟨roomy.readable, roomy.pages⟩

/-- The path is the root, or a directory of the contents. -/
def Holds (fs : FileSystem) (contents : Contents) (path : Path) : Prop :=
  fs.root.isRoot path = true ∨ contents.HasDirectory fs.suffix path

/-- What a listing of children answers and leaves. -/
def Catalogued (fs : FileSystem) (path : Path) (recursive : Bool) (before : Contents) :
    Option (List Entry) → Contents → Prop
  | none, after => ¬ fs.Holds before path ∧ after = before
  | some children, after => fs.Holds before path ∧
    Merged children (before.Shown fs.suffix (fs.root.stem path) !recursive) ∧
    Blanks (before.Inferred fs.suffix (fs.root.stem path) !recursive) before after

/-- There is only one outcome but for the order of the entries. -/
theorem Catalogued.agree {before after final : Contents} {listed other : Option (List Entry)}
    (one : Catalogued fs path recursive before listed after)
    (also : Catalogued fs path recursive before other final) :
    after = final ∧ SameEntries listed other := by
  cases listed with
  | none =>
    cases other with
    | none => exact ⟨one.2.trans also.2.symm, trivial⟩
    | some others => exact absurd also.1 one.1
  | some children =>
    cases other with
    | none => exact absurd one.1 also.1
    | some others => exact ⟨one.2.2.unique also.2.2, fun _ => one.2.1.mem_iff also.2.1⟩

/-- What holds while a listing is walked: only markers of inferred directories are new, and
the directory itself and those that are known by now have theirs. -/
structure Underlined (fs : FileSystem) (stem : Key) (grouped : Bool) (before : Contents)
    (children : List Entry) (now : Memory) : Prop where
  bound : ∀ key : Key, now.contents[key]? = before[key]? ∨
    now.contents[key]? = some [] ∧ before.Inferred fs.suffix stem grouped key
  own : ∀ key, before.Inferred fs.suffix stem false key → key ∈ now.contents
  marked : grouped = true → ∀ name, ⟨name, true⟩ ∈ children →
    stem ++ name ++ fs.suffix ∈ now.contents

theorem Underlined.mem {before : Contents} {grouped : Bool} {children : List Entry} {key : Key}
    (underlined : Underlined fs stem grouped before children memory) (present : key ∈ before) :
    key ∈ memory.contents := by
  rcases underlined.bound key with same | ⟨fresh, _⟩
  · exact (Contents.mem_of_lookup_eq same).mpr present
  · exact Contents.mem_iff_lookup.mpr ⟨[], fresh⟩

theorem Underlined.of_blanks {before : Contents} {grouped : Bool}
    (blanks : Blanks (before.Inferred fs.suffix stem false) before memory.contents) :
    Underlined fs stem grouped before [] memory where
  bound key := (blanks.bound key).imp_right (And.imp_right .mono)
  own key inferred := Contents.mem_iff_lookup.mpr
    ⟨[], (blanks.lookup_iff key []).mpr (.inr ⟨inferred, rfl⟩)⟩
  marked _ _ := nofun

section
variable (proper : fs.Proper)
include proper

/-- The marker of a group that is listed is inferred. -/
theorem strewn_markGroup {before now : Contents} {grouped : Bool} {start : Key}
    (at_stem : Path.Stem fs.suffix stem) (neat : before.Neat fs.suffix)
    (listed : .group start ∈ before.entries stem grouped)
    (strewn : Strewn (before.Inferred fs.suffix stem grouped) before now) :
    Strewn (before.Inferred fs.suffix stem grouped) before
      (now.insert (fs.markerKey start) []) := by
  obtain ⟨name, first, plain, under, rfl⟩ := neat.listed_group proper.suffix_whole at_stem listed
  have child := at_stem.append_plain plain
  intro key
  rw [proper.markerKey_stem child, Contents.lookup_insert]
  split
  · rename_i same
    exact .inr ⟨rfl, _, child, under, same.symm,
      .inr ⟨Contents.grouped_of_group listed, name, first, plain, rfl⟩⟩
  · exact strewn key

/-- Each entry of a listing keeps this up. -/
theorem upholds_underlined {before : Contents} {grouped : Bool}
    (at_stem : Path.Stem fs.suffix stem) (neat : before.Neat fs.suffix) :
    Upholds fs (fun _ => False) stem (before.entries stem grouped)
      (Underlined fs stem grouped before) where
  object key listed children now underlined := by
    have whole := proper.suffix_whole
    refine ⟨underlined.bound, underlined.own, fun isGrouped name member => ?_⟩
    subst isGrouped
    rcases Entry.directory_of_mem_record member with known | shown
    · exact underlined.marked rfl name known
    · obtain ⟨present, rfl | ⟨other, _, plain, rfl | rfl⟩⟩ :=
        neat.listed_object whole at_stem listed
      · rw [Entry.ofListed, List.drop_length, Entry.ofObject_nil proper.suffix_ne_nil] at shown
        cases shown
      · rw [Entry.ofListed, List.drop_left,
          Entry.ofObject_plain whole proper.suffix_ne_nil plain] at shown
        cases shown
      · rw [Entry.ofListed_marker proper.suffix_ne_nil] at shown
        cases shown
        exact underlined.mem present
  made start listed children now underlined := by
    have bound := strewn_markGroup proper at_stem neat listed underlined.bound
    obtain rfl := Contents.grouped_of_group listed
    obtain ⟨other, first, plain, under, rfl⟩ :=
      neat.listed_group proper.suffix_whole at_stem listed
    rw [proper.markerKey_stem (at_stem.append_plain plain)] at bound ⊢
    refine ⟨bound, ?_, ?_⟩
    · exact fun key inferred => Std.ExtTreeMap.mem_insert.mpr (.inr (underlined.own key inferred))
    · intro _ name member
      rw [Memory.insert, Std.ExtTreeMap.mem_insert]
      rcases Entry.directory_of_mem_record member with known | shown
      · exact .inr (underlined.marked rfl name known)
      · rw [Entry.ofListed_cut _ _ first] at shown
        cases shown
        exact .inl (Std.LawfulEqCmp.compare_eq_iff_eq.mpr rfl)
  unmade _ _ := False.elim

omit proper in
/-- A look puts in no marker but the one that was inferred. -/
theorem Probed.strewn {fallible : Store.Request Memory.Cursor → Prop} {found : Bool}
    {probed : Memory} (plain : Path.Plain fs.suffix path)
    (look : Probed fs fallible path memory found probed) :
    Strewn (memory.contents.Inferred fs.suffix (path ++ [separator]) false) memory.contents
      probed.contents := by
  intro key
  by_cases own : key = path ++ fs.suffix
  · apply (look.heals key).imp_right
    rintro ⟨fresh, healed, _, under, marker, _⟩
    rw [own] at marker
    rw [← List.append_cancel_right marker] at under
    exact ⟨fresh, (Contents.inferred_iff plain).mpr ⟨under, own⟩⟩
  · exact .inl (look.only key own)

omit proper in
/-- The marker that a look finds is the one that was inferred. -/
theorem Probed.blanks {probed : Memory} (plain : Path.Plain fs.suffix path)
    (hollow : memory.contents.Hollow fs.suffix)
    (look : Probed fs (fun _ => False) path memory true probed) :
    Blanks (memory.contents.Inferred fs.suffix (path ++ [separator]) false) memory.contents
      probed.contents := by
  apply Blanks.of_present (look.strewn plain)
  · intro key content inferred stored
    exact hollow path plain key (.inl ((Contents.inferred_iff plain).mp inferred).2) content stored
  · intro key inferred
    rw [((Contents.inferred_iff plain).mp inferred).2]
    exact look.marked rfl

/-- A look for a directory gives it its marker if it has none. -/
theorem returns_isDirectory_place (place : fs.Place path)
    (hollow : memory.contents.Hollow fs.suffix) :
    (fs.isDirectory path).Returns (Memory.may fun _ => False) memory fun found later =>
      (found = true ↔ fs.Holds memory.contents path) ∧
      (found = false → later.contents = memory.contents) ∧
      (found = true → Blanks (memory.contents.Inferred fs.suffix (fs.root.stem path) false)
        memory.contents later.contents) := by
  cases place with
  | inl plain =>
    rw [proper.stem_plain plain]
    apply Returns.mono (returns_isDirectory proper plain)
    intro found later look
    cases found with
    | true =>
      refine ⟨iff_of_true rfl (.inr ?_), nofun, fun _ => look.blanks plain hollow⟩
      exact (look.heals.hasDirectory_iff proper.suffix_whole).mp (.inl (look.marked rfl))
    | false =>
      refine ⟨iff_of_false Bool.false_ne_true ?_, fun _ => ?_, nofun⟩
      · rintro (root | there)
        · cases root.symm.trans (proper.isRoot_plain plain)
        · exact (look.missed rfl there).elim fun _ => id
      · rw [(look.unmarked rfl fun _ => id).1]
  | inr root =>
    rw [isDirectory_root root, stem_root root]
    have none_inferred : ∀ key, ¬ memory.contents.Inferred fs.suffix [] false key := by
      rintro key ⟨other, _, _, _, stem | ⟨⟨⟩, _⟩⟩
      simp at stem
    refine ⟨true, rfl, iff_of_true rfl (.inl root), nofun, fun _ => .of_present ?_ ?_ ?_⟩
    · exact fun _ => .inl rfl
    · exact fun key _ inferred => absurd inferred (none_inferred key)
    · exact fun key inferred => absurd inferred (none_inferred key)

omit proper in
/-- What a walk of the whole listing leaves. -/
theorem Catalogued.of_underlined {before : Contents} {children : List Entry}
    (hollow : before.Hollow fs.suffix) (there : fs.Holds before path)
    (merged : Merged children (before.Shown fs.suffix (fs.root.stem path) !recursive))
    (underlined : Underlined fs (fs.root.stem path) (!recursive) before children memory) :
    Catalogued fs path recursive before (some children) memory.contents := by
  refine ⟨there, merged, .of_present underlined.bound ?_ ?_⟩
  · rintro key content ⟨other, plain, _, rfl, _⟩ stored
    exact hollow other plain _ (.inl rfl) content stored
  · rintro key ⟨other, plain, under, rfl, stem | ⟨grouped, name, first, named, rfl⟩⟩
    · exact underlined.own _ ⟨other, plain, under, rfl, .inl stem⟩
    · rw [grouped] at merged
      exact underlined.marked grouped name
        (merged.directory_iff.mpr ⟨named.ne_nil, Contents.shown_of_under first under⟩)

/-- Without faults, and with room, a listing answers in the one way there is. -/
theorem returns_children_catalogued (place : fs.Place path)
    (neat : memory.contents.Neat fs.suffix) (hollow : memory.contents.Hollow fs.suffix)
    (listable : fs.Listable (fs.root.stem path) memory.contents) (recursive : Bool) :
    (fs.children path recursive).Returns (Memory.may fun _ => False) memory fun listed later =>
      Catalogued fs path recursive memory.contents listed later.contents := by
  have at_stem := place.stem proper
  obtain ⟨⟨pageSize, read⟩, keys, room, covers⟩ := listable
  apply Returns.bind (returns_isDirectory_place proper place hollow)
  rintro found probed ⟨there, unchanged, opened⟩
  cases found with
  | false =>
    have missing : ¬ fs.Holds memory.contents path := fun held => nomatch there.mpr held
    exact ⟨none, rfl, missing, unchanged rfl⟩
  | true =>
    have blanks := opened rfl
    have same : ∀ key, fs.root.stem path <+: key →
        probed.contents[key]? = memory.contents[key]? :=
      fun key => blanks.bound.below proper.suffix_whole
    have short := Contents.length_entries_le (!recursive) fun key present below =>
      covers key below (.inl ((Contents.mem_of_lookup_eq (same key below)).mp present))
    have upholds : Upholds fs (fun _ => False) (fs.root.stem path)
        (probed.contents.entries (fs.root.stem path) !recursive)
        (Underlined fs (fs.root.stem path) (!recursive) memory.contents) :=
      (upholds_underlined proper at_stem neat).mono (Contents.entries_subset same)
    dsimp only
    rw [if_pos rfl, read]
    apply Ensures.bind_done
    apply Ensures.bind (Memory.ensures_list _ probed _ _ _)
    · rintro page later ⟨rfl, ⟨⟨⟩⟩ | ⟨⟨⟩, _⟩⟩
      apply Ensures.bind (ensures_walk_entries read upholds (.of_blanks blanks))
      · rintro children final ⟨_, merges, _⟩
        obtain ⟨underlined, merged⟩ := merges children rfl
        have shown : Merged children
            (memory.contents.Shown fs.suffix (fs.root.stem path) !recursive) :=
          merged.congr fun entry _ => by rw [Contents.Shown.congr same]
        exact ⟨_, rfl, .of_underlined hollow (there.mp rfl) shown underlined⟩
      · rintro failure final ⟨_, _, stops⟩
        rcases stops failure rfl with ⟨_, ⟨⟩⟩ | long
        omega
    · rintro failure later ⟨_, ⟨⟨⟩⟩ | ⟨⟨⟩, _⟩⟩

end
end FileSystem
end KeyTree
