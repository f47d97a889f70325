import KeyTree.Proofs.Healing

/-!
Trees that are listed level by level. A descent lists a path, then every directory that this has
shown, and so on. What it finds is what the keys have below the path, whatever makes a directory
one of them. A recursive listing reads the same keys at once, but it knows a directory only by its
marker or its placeholder, so it lacks those that have nothing but keys below them.
-/
namespace KeyTree

open KeyTree.Path (separator)
open Program (Ensures Returns)

/-- What keeps an invariant for each item keeps it for all of them, one after the other. -/
theorem Program.Returns.mapM {I : Interface} {σ α β : Type} {may : Behaviour I σ} (inv : σ → Prop)
    (post : β → α → Prop) {next : β → Program I α} (items : List β)
    (each : ∀ item ∈ items, ∀ state, inv state → (next item).Returns may state
      fun value later => post item value ∧ inv later) {state : σ} (holds : inv state) :
    (items.mapM next).Returns may state fun values later =>
      List.Forall₂ post items values ∧ inv later := by
  induction items generalizing state with
  | nil => exact ⟨[], rfl, .nil, holds⟩
  | cons item later ih =>
    rw [List.mapM_cons]
    refine Returns.bind (each item List.mem_cons_self state holds) ?_
    rintro value reached ⟨first, kept⟩
    refine Returns.bind (ih (fun other member => each other (List.mem_cons_of_mem _ member)) kept) ?_
    rintro values final ⟨rest, still⟩
    exact ⟨_, rfl, .cons first rest, still⟩

/-- The members of all lists that were made for the items are told item by item. -/
theorem mem_flatten_of_forall₂ {α β : Type} {tells : β → α → Prop} {items : List β}
    {values : List (List α)}
    (made : List.Forall₂ (fun item value => ∀ entry, entry ∈ value ↔ tells item entry) items values)
    {entry : α} : entry ∈ values.flatten ↔ ∃ item ∈ items, tells item entry := by
  induction made with
  | nil => simp
  | cons first _ ih => simp [first, ih]

/-- An entry of a directory, named from outside it. -/
def Entry.inside (outer : Path) (entry : Entry) : Entry :=
  ⟨outer ++ separator :: entry.name, entry.isDirectory⟩

namespace Contents
variable {suffix stem : Key} {contents : Contents} {path name rest : Path}

/-- What the keys of a tree have below a stem: its directories, and the files that are none. -/
def Beneath (suffix stem : Key) (contents : Contents) : Entry → Prop
  | ⟨name, true⟩ => Path.Plain suffix name ∧ contents.HasDirectory suffix (stem ++ name)
  | ⟨name, false⟩ => Path.Plain suffix name ∧ stem ++ name ∈ contents ∧
      ¬ contents.HasDirectory suffix (stem ++ name)

theorem Beneath.plain {entry : Entry} (beneath : contents.Beneath suffix stem entry) :
    Path.Plain suffix entry.name := by
  obtain ⟨name, isDirectory⟩ := entry
  cases isDirectory with
  | true => exact beneath.1
  | false => exact beneath.1

theorem append_inner (stem : Key) (name rest : Path) :
    stem ++ (name ++ separator :: rest) = stem ++ name ++ [separator] ++ rest := by simp

/-- What is beneath a directory that is beneath the stem is beneath the stem. -/
theorem beneath_inside_iff (plain : Path.Plain suffix name) {entry : Entry} :
    contents.Beneath suffix stem (entry.inside name) ↔
      contents.Beneath suffix (stem ++ name ++ [separator]) entry := by
  obtain ⟨rest, isDirectory⟩ := entry
  cases isDirectory with
  | true => simp only [Entry.inside, Beneath, Path.Plain.append_iff, plain, true_and, append_inner]
  | false => simp only [Entry.inside, Beneath, Path.Plain.append_iff, plain, true_and, append_inner]

/-- What is beneath the stem has directories above it. -/
theorem Beneath.above {entry : Entry} (beneath : contents.Beneath suffix stem (entry.inside name)) :
    contents.Beneath suffix stem ⟨name, true⟩ := by
  have plain := beneath.plain
  obtain ⟨rest, isDirectory⟩ := entry
  have within : ∀ key, stem ++ (name ++ separator :: rest) <+: key →
      stem ++ name ++ [separator] <+: key := by
    intro key longer
    rw [append_inner] at longer
    exact (List.prefix_append _ rest).trans longer
  refine ⟨(Path.Plain.append_iff.mp plain).1, .inr ?_⟩
  cases isDirectory with
  | true =>
    obtain ⟨key, present, longer⟩ := beneath.2.exists_behind
    exact ⟨key, present, within key longer⟩
  | false => exact ⟨_, beneath.2.1, within _ (List.prefix_refl _)⟩

/-- What a descent finds at a child: the child itself, and what is beneath it if it is a directory. -/
def Through (suffix stem : Key) (contents : Contents) (child entry : Entry) : Prop :=
  entry = child ∨ child.isDirectory = true ∧ ∃ inner, entry = inner.inside child.name ∧
    contents.Beneath suffix (stem ++ child.name ++ [separator]) inner

/-- Whatever is beneath the stem is found at one of the names that are right beneath it. -/
theorem through_child_iff {children : List Entry}
    (child_iff : ∀ entry, entry ∈ children ↔
      separator ∉ entry.name ∧ contents.Beneath suffix stem entry) {entry : Entry} :
    (∃ child ∈ children, contents.Through suffix stem child entry) ↔
      contents.Beneath suffix stem entry := by
  constructor
  · rintro ⟨child, member, rfl | ⟨_, inner, rfl, beneath⟩⟩
    · exact ((child_iff entry).mp member).2
    · exact (beneath_inside_iff ((child_iff child).mp member).2.plain).mpr beneath
  · intro beneath
    obtain ⟨name, first, plain, single | ⟨rest, _, below⟩⟩ := beneath.plain.cut
    · exact ⟨entry, (child_iff entry).mpr ⟨single ▸ first, beneath⟩, .inl rfl⟩
    · obtain ⟨inner, rfl⟩ : ∃ inner, entry = Entry.inside name inner :=
        ⟨⟨rest, entry.isDirectory⟩, by rw [Entry.inside, ← below]⟩
      exact ⟨⟨name, true⟩, (child_iff _).mpr ⟨first, beneath.above⟩,
        .inr ⟨rfl, _, rfl, (beneath_inside_iff plain).mp beneath⟩⟩

section neat
variable (whole : separator ∉ suffix) (given : suffix ≠ []) (neat : contents.Neat suffix)
include whole given neat

/-- Nothing but plain paths are directories of a tree. -/
theorem Neat.plain_of_hasDirectory (there : contents.HasDirectory suffix path) :
    Path.Plain suffix path := by
  obtain marked | ⟨key, present, below⟩ := there
  · obtain ⟨other, plain, same | same | same⟩ := neat _ marked (by simp [given])
    · exact absurd same (marker_ne whole plain path)
    · rwa [List.append_cancel_right same]
    · exact absurd same (marker_ne_stem whole given path other)
  · obtain ⟨other, plain, kind⟩ := neat key present (by rintro rfl; simp at below)
    have inner : path ++ [separator] <+: other → Path.Plain suffix path := by
      intro within
      obtain ⟨rest, rfl⟩ := stem_prefix_iff.mp within
      exact (Path.Plain.append_iff.mp plain).1
    obtain rfl | rfl | rfl := kind
    · exact inner below
    · exact inner ((stem_prefix_marker whole).mp below)
    · obtain rfl | within := stem_prefix_stem.mp below
      · exact plain
      · exact inner within

omit whole given in
/-- Nothing but plain paths are files of a tree. -/
theorem Neat.plain_of_mem (present : path ∈ contents) (named : path ≠ [])
    (unmarked : ¬ suffix <:+ path) (last : path.getLast? ≠ some separator) :
    Path.Plain suffix path := by
  obtain ⟨other, plain, rfl | rfl | rfl⟩ := neat path present named
  · exact plain
  · exact absurd (List.suffix_append other suffix) unmarked
  · exact absurd List.getLast?_concat last

omit given in
theorem Neat.file_plain (at_stem : Path.Stem suffix stem) (present : stem ++ name ∈ contents)
    (named : name ≠ []) (unmarked : ¬ suffix <:+ name) (last : name.getLast? ≠ some separator) :
    Path.Plain suffix name := by
  apply at_stem.of_append
  apply neat.plain_of_mem present (fun bare => named (List.append_eq_nil_iff.mp bare).2)
  · exact fun ends => unmarked (suffix_of_stem whole at_stem.shape ends)
  · rw [List.getLast?_append]
    rw [List.getLast?_eq_some_getLast named] at last ⊢
    exact last

/-- A listing shows the names that stand right beneath the stem. -/
theorem Neat.child_iff (at_stem : Path.Stem suffix stem) {children : List Entry}
    (merged : Merged children (contents.Tells suffix stem false)) {entry : Entry} :
    entry ∈ children ↔ separator ∉ entry.name ∧ contents.Beneath suffix stem entry := by
  obtain ⟨name, isDirectory⟩ := entry
  cases isDirectory with
  | true =>
    rw [merged.directory_iff, tells_directory_iff whole]
    constructor
    · rintro ⟨_, first, there⟩
      exact ⟨first, at_stem.of_append (neat.plain_of_hasDirectory whole given there), there⟩
    · rintro ⟨first, plain, there⟩
      exact ⟨plain.ne_nil, first, there⟩
  | false =>
    rw [merged.file_iff, tells_file_iff, tells_directory_iff whole]
    constructor
    · rintro ⟨named, ⟨present, uncut, unmarked, last⟩, single⟩
      have first : separator ∉ name := uncut.resolve_left Bool.false_ne_true
      exact ⟨first, neat.file_plain whole at_stem present named unmarked last, present,
        fun there => single ⟨first, there⟩⟩
    · rintro ⟨first, plain, present, single⟩
      exact ⟨plain.ne_nil, ⟨present, .inr first, plain.not_suffix whole, plain.getLast?_ne⟩,
        fun both => single both.2⟩

/-- A recursive listing shows those directories beneath the stem that are obscured. -/
theorem Neat.deep_directory_iff (at_stem : Path.Stem suffix stem) {listed : List Entry}
    (merged : Merged listed (contents.Tells suffix stem true)) :
    ⟨name, true⟩ ∈ listed ↔
      contents.Beneath suffix stem ⟨name, true⟩ ∧ contents.Obscured suffix (stem ++ name) := by
  rw [merged.directory_iff, tells_deep_directory_iff whole given]
  constructor
  · rintro ⟨_, obscured⟩
    have there := obscured.hasDirectory
    exact ⟨⟨at_stem.of_append (neat.plain_of_hasDirectory whole given there), there⟩, obscured⟩
  · rintro ⟨beneath, obscured⟩
    exact ⟨beneath.plain.ne_nil, obscured⟩

/-- It shows every other object beneath the stem as a file. -/
theorem Neat.deep_file_iff (at_stem : Path.Stem suffix stem) {listed : List Entry}
    (merged : Merged listed (contents.Tells suffix stem true)) :
    ⟨name, false⟩ ∈ listed ↔ contents.Beneath suffix stem ⟨name, false⟩ ∨
      contents.Beneath suffix stem ⟨name, true⟩ ∧ stem ++ name ∈ contents ∧
        ¬ contents.Obscured suffix (stem ++ name) := by
  rw [merged.file_iff, tells_file_iff, tells_deep_directory_iff whole given]
  constructor
  · rintro ⟨named, ⟨present, _, unmarked, last⟩, free⟩
    have plain := neat.file_plain whole at_stem present named unmarked last
    by_cases there : contents.HasDirectory suffix (stem ++ name)
    · exact .inr ⟨⟨plain, there⟩, present, free⟩
    · exact .inl ⟨plain, present, there⟩
  · rintro (⟨plain, present, single⟩ | ⟨⟨plain, _⟩, present, free⟩)
    · exact ⟨plain.ne_nil, ⟨present, .inl rfl, plain.not_suffix whole, plain.getLast?_ne⟩,
        fun obscured => single obscured.hasDirectory⟩
    · exact ⟨plain.ne_nil, ⟨present, .inl rfl, plain.not_suffix whole, plain.getLast?_ne⟩, free⟩

end neat
end Contents

namespace FileSystem
variable {Cursor : Type} {fs : FileSystem} {memory : Memory} {base : Contents} {path : Path}

/-- Lists the path, then every directory that is shown, with all names seen from the path. -/
def descend (fs : FileSystem) : (depth : Nat) → Path → Store.Action Cursor (List Entry)
  | 0, _ => .fail .tooDeep
  | depth + 1, path => do
    let children ← fs.requireChildren path false
    let found ← children.mapM fun child => do
      if child.isDirectory then
        let below ← fs.descend depth (Path.join path child.name)
        pure (child :: below.map (Entry.inside child.name))
      else pure [child]
    pure found.flatten

/-- A path that has a plain key leads to a stem. -/
theorem stem_of_relative
    (place : fs.root.relative path = [] ∨ Path.Plain fs.suffix (fs.root.relative path)) :
    Path.Stem fs.suffix (fs.root.stem path) := by
  obtain top | plain := place
  · exact .inl (Root.stem_root top)
  · exact .inr ⟨_, plain, by rw [Root.stem_eq plain.ne_nil, plain.withSeparator_eq]⟩

section descend
variable {pageSize depth : Nat} (proper : fs.Proper) (neat : base.Neat fs.suffix)
  (read : fs.settings.pageSize = .ok pageSize) (room : base.reach ≤ fs.limits.pages)
include proper neat read room

theorem returns_requireChildren_healed (healed : base.Healed fs.suffix memory.contents)
    (there : fs.DirectoryAt base path) :
    (fs.requireChildren path false).Returns (Memory.may fun _ => False) memory
      fun children later => base.Healed fs.suffix later.contents ∧
        Merged children (base.Tells fs.suffix (fs.root.stem path) false) := by
  apply Returns.bind (returns_children_healed proper.suffix_whole proper.suffix_ne_nil
    (proper.rootless neat) read room healed path)
  rintro answer later ⟨still, ⟨_, missing⟩ | ⟨children, rfl, _, merged⟩⟩
  · exact absurd there missing
  · exact ⟨children, rfl, still, merged⟩

/-- A descent finds what is beneath the path, if it may go deep enough. -/
theorem returns_descend (clean : fs.root.Clean) (healed : base.Healed fs.suffix memory.contents)
    (place : fs.root.relative path = [] ∨ Path.Plain fs.suffix (fs.root.relative path))
    (there : fs.DirectoryAt base path) (deep : 0 < depth)
    (levels : ∀ name, base.Beneath fs.suffix (fs.root.stem path) ⟨name, true⟩ →
      name.length < depth) :
    (fs.descend depth path).Returns (Memory.may fun _ => False) memory fun found later =>
      (∀ entry, entry ∈ found ↔ base.Beneath fs.suffix (fs.root.stem path) entry) ∧
        base.Healed fs.suffix later.contents := by
  have whole := proper.suffix_whole
  have given := proper.suffix_ne_nil
  -- On the depth; the directories of a level are the paths of the next one.
  induction depth generalizing path memory with
  | zero => cases deep
  | succ depth ih =>
    have at_stem := stem_of_relative place
    refine Returns.bind (returns_requireChildren_healed proper neat read room healed there) ?_
    rintro children listed ⟨still, merged⟩
    have child_iff : ∀ entry, entry ∈ children ↔
        separator ∉ entry.name ∧ base.Beneath fs.suffix (fs.root.stem path) entry := fun _ =>
      neat.child_iff whole given at_stem merged
    refine Returns.bind (Returns.mapM (fun now => base.Healed fs.suffix now.contents)
      (fun child value => ∀ entry,
        entry ∈ value ↔ base.Through fs.suffix (fs.root.stem path) child entry) children ?_ still) ?_
    · rintro ⟨name, isDirectory⟩ member now kept
      obtain ⟨_, beneath⟩ := (child_iff _).mp member
      cases isDirectory with
      | false => exact ⟨_, rfl, by simp [Contents.Through], kept⟩
      | true =>
        have plain := beneath.plain
        have key := proper.relative_join_named clean (place.imp_right Path.Plain.named) plain.named
        have child := at_stem.append_plain plain
        rw [← key] at child
        have stem : fs.root.stem (Path.join path name) =
            fs.root.stem path ++ name ++ [separator] := by
          rw [Root.stem_eq child.ne_nil, child.withSeparator_eq, key]
        have inside : fs.DirectoryAt base (Path.join path name) := by
          rw [directoryAt_iff, child.dropSeparator_eq, key]
          exact .inr beneath.2
        have shorter : name.length < depth + 1 := levels name beneath
        have some_name : 0 < name.length := List.length_pos_iff.mpr plain.ne_nil
        refine Returns.bind (ih kept (.inr child) inside (by omega) ?_) ?_
        · intro rest inner
          rw [stem, ← Contents.beneath_inside_iff plain] at inner
          have longer : (name ++ separator :: rest).length < depth + 1 := levels _ inner
          rw [List.length_append, List.length_cons] at longer
          omega
        · rintro below later ⟨beneath_iff, kept⟩
          rw [stem] at beneath_iff
          refine ⟨_, rfl, fun entry => ?_, kept⟩
          simp only [Contents.Through, List.mem_cons, List.mem_map, beneath_iff, true_and, eq_comm,
            and_comm]
    · rintro values later ⟨made, kept⟩
      refine ⟨_, rfl, fun entry => ?_, kept⟩
      rw [mem_flatten_of_forall₂ made]
      exact Contents.through_child_iff child_iff

omit neat read room in
theorem directoryAt_place (place : fs.Place path) :
    fs.DirectoryAt base path ↔ fs.Holds base path := by
  rw [directoryAt_iff, Holds]
  obtain plain | root := place
  · rw [proper.relative_plain plain, plain.dropSeparator_eq]
  · exact iff_of_true (.inl root) (.inl root)

end descend

/-- A descent of a tree finds what is beneath the path, and a recursive listing differs from it only
in directories that have neither a marker nor a placeholder: the listing leaves them out, and shows
an object of that name as a file. So they agree exactly if the descent finds no such directory. -/
theorem children_descend_iff {pageSize depth : Nat} (proper : fs.Proper) (clean : fs.root.Clean)
    (tidy : memory.contents.Tidy fs.suffix) (read : fs.settings.pageSize = .ok pageSize)
    (room : memory.contents.reach ≤ fs.limits.pages) (deep : memory.contents.reach ≤ depth)
    (place : fs.Place path) (there : fs.Holds memory.contents path) :
    let stem := fs.root.stem path
    let obscured (name : Path) := memory.contents.Obscured fs.suffix (stem ++ name)
    ∃ listed found, ((fs.children path true).run Memory.serve memory).result = .ok (some listed) ∧
      ((fs.descend depth path).run Memory.serve memory).result = .ok found ∧
      (∀ entry, entry ∈ found ↔ memory.contents.Beneath fs.suffix stem entry) ∧
      (∀ name, ⟨name, true⟩ ∈ listed ↔ ⟨name, true⟩ ∈ found ∧ obscured name) ∧
      (∀ name, ⟨name, false⟩ ∈ listed ↔ ⟨name, false⟩ ∈ found ∨
        ⟨name, true⟩ ∈ found ∧ stem ++ name ∈ memory.contents ∧ ¬ obscured name) ∧
      ((∀ entry, entry ∈ listed ↔ entry ∈ found) ↔
        ∀ name, ⟨name, true⟩ ∈ found → obscured name) := by
  intro stem obscured
  have whole := proper.suffix_whole
  have given := proper.suffix_ne_nil
  have neat := tidy.neat
  have at_stem := place.stem proper
  have inside := (directoryAt_place proper place).mpr there
  have start : memory.contents.Healed fs.suffix memory.contents := .refl _ _
  obtain ⟨answer, shows, ⟨rfl, missing, _⟩ | ⟨listed, rfl, _, merged, _⟩⟩ :=
    Memory.run_of_ensures (returns_children_told whole given (proper.rootless neat) read
      (start.size_lt_reach.trans_le room) path true)
  · exact absurd inside missing
  have key : fs.root.relative path = [] ∨ Path.Plain fs.suffix (fs.root.relative path) := by
    obtain plain | root := place
    · exact .inr (by rwa [proper.relative_plain plain])
    · exact .inl (of_decide_eq_true root)
  have levels : ∀ name, memory.contents.Beneath fs.suffix (fs.root.stem path) ⟨name, true⟩ →
      name.length < depth := by
    intro name beneath
    obtain ⟨longer, present, within⟩ := beneath.2.exists_behind
    have bound := Contents.length_lt_reach present
    have length := within.length_le
    rw [List.length_append] at length
    omega
  obtain ⟨found, walks, beneath_iff, _⟩ := Memory.run_of_ensures
    (returns_descend proper neat read room clean start key inside
      (Nat.zero_lt_of_lt (start.size_lt_reach.trans_le deep)) levels)
  have directory_iff : ∀ name, ⟨name, true⟩ ∈ listed ↔ ⟨name, true⟩ ∈ found ∧ obscured name := by
    intro name
    rw [neat.deep_directory_iff whole given at_stem merged, beneath_iff]
  have file_iff : ∀ name, ⟨name, false⟩ ∈ listed ↔ ⟨name, false⟩ ∈ found ∨
      ⟨name, true⟩ ∈ found ∧ stem ++ name ∈ memory.contents ∧ ¬ obscured name := by
    intro name
    rw [neat.deep_file_iff whole given at_stem merged, beneath_iff, beneath_iff]
  refine ⟨listed, found, shows, walks, beneath_iff, directory_iff, file_iff,
    fun same name member => ?_, fun marked entry => ?_⟩
  · exact ((directory_iff name).mp ((same _).mpr member)).2
  · obtain ⟨name, isDirectory⟩ := entry
    cases isDirectory with
    | true => exact (directory_iff name).trans (and_iff_left_of_imp (marked name))
    | false =>
      exact (file_iff name).trans (or_iff_left fun both => both.2.2 (marked name both.1))

theorem children_descend_iff_inferred :
    let memory := Memory.holding
      [("a/b/c".toList, [99]), ("a/d/e".toList, [101]), ("a/d_$folder$".toList, [])]
    memory.contents.Tidy usual.suffix ∧ memory.contents.reach ≤ usual.limits.pages ∧
      memory.contents.reach ≤ 40 ∧ usual.Place "a".toList ∧
      usual.Holds memory.contents "a".toList ∧
      ∃ listed found,
        ((usual.children "a".toList true).run Memory.serve memory).result = .ok (some listed) ∧
        ((usual.descend 40 "a".toList).run Memory.serve memory).result = .ok found ∧
        ⟨"d".toList, true⟩ ∈ listed ∧ ⟨"b".toList, true⟩ ∈ found ∧ ⟨"b".toList, true⟩ ∉ listed := by
  intro memory
  have tidy : memory.contents.Tidy usual.suffix := by decide +kernel
  have room : memory.contents.reach ≤ usual.limits.pages := by decide +kernel
  have deep : memory.contents.reach ≤ 40 := by decide +kernel
  have place : usual.Place "a".toList := .inl (by decide +kernel)
  have there : usual.Holds memory.contents "a".toList := by
    unfold Holds
    decide +kernel
  obtain ⟨listed, found, shows, walks, _, directory_iff, _⟩ := children_descend_iff usual_proper
    usual_clean tidy (Settings.pageSize_integer rfl) room deep place there
  have walked : ((usual.descend 40 "a".toList).run Memory.serve memory).result =
      .ok [⟨"d".toList, true⟩, ⟨"d/e".toList, false⟩, ⟨"b".toList, true⟩, ⟨"b/c".toList, false⟩] := by
    decide +kernel
  cases walks.symm.trans walked
  refine ⟨tidy, room, deep, place, there, listed, _, shows, walked, ?_, by simp, ?_⟩
  · refine (directory_iff _).mpr ⟨by simp, ?_⟩
    unfold Contents.Obscured
    decide +kernel
  · intro member
    have obscured := ((directory_iff _).mp member).2
    unfold Contents.Obscured at obscured
    revert obscured
    decide +kernel

/-- A recursive listing leaves out a directory that is known only by the keys below it. -/
theorem not_children_descend : ¬ ∀ (fs : FileSystem) (path : Path) (memory : Memory) (depth : Nat)
      (listed found : List Entry), fs.Proper → fs.root.Clean → memory.contents.Tidy fs.suffix →
    fs.Place path → fs.Holds memory.contents path →
    ((fs.children path true).run Memory.serve memory).result = .ok (some listed) →
    ((fs.descend depth path).run Memory.serve memory).result = .ok found →
    ∀ entry, entry ∈ listed ↔ entry ∈ found := by
  intro agree
  have same := agree usual "a".toList (.holding [("a/b/c".toList, [99])]) 9
    [⟨"b/c".toList, false⟩] [⟨"b".toList, true⟩, ⟨"b/c".toList, false⟩] usual_proper usual_clean
    (by decide +kernel) (.inl (by decide +kernel)) (.inr (by decide +kernel)) (by decide +kernel)
    (by decide +kernel) ⟨"b".toList, true⟩
  revert same
  decide +kernel

end FileSystem
end KeyTree
