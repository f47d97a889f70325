import KeyTree.FileSystem.Operation
import KeyTree.Proofs.Children
import KeyTree.Proofs.Making
import KeyTree.Proofs.Removal

/-!
What operations keep up where nothing fails. An invariant of the contents that new markers do
not break is kept by every operation that only looks or makes directories, and one that lost
keys do not break either by every deletion, on plain paths and on the root.
-/
namespace KeyTree

open KeyTree.Path (separator)
open Program (Ensures Returns)

/-- New markers do not break the invariant, which holds of neat contents only. -/
structure Markable (suffix : Key) (inv : Contents → Prop) : Prop where
  neat : ∀ {contents : Contents}, inv contents → contents.Neat suffix
  marks : ∀ {region : Path → Prop} {before after : Contents}, inv before →
    Marks suffix region before after → inv after

/-- Lost keys do not break it either. -/
structure Stable (suffix : Key) (inv : Contents → Prop) : Prop extends Markable suffix inv where
  loses : ∀ {before after : Contents}, inv before →
    (∀ key : Key, after[key]? = before[key]? ∨ key ∉ after) → inv after

namespace Contents
variable {suffix : Key} {before after : Contents}
  (lost : ∀ key : Key, after[key]? = before[key]? ∨ key ∉ after)
include lost

theorem lookup_of_lost {key : Key} (present : key ∈ after) : after[key]? = before[key]? :=
  (lost key).resolve_right fun gone => gone present

theorem mem_of_lost {key : Key} (present : key ∈ after) : key ∈ before :=
  (mem_of_lookup_eq (lookup_of_lost lost present)).mp present

theorem Neat.loses (neat : before.Neat suffix) : after.Neat suffix :=
  fun key present => neat key (mem_of_lost lost present)

omit lost in
/-- A file, a marker or a placeholder may be put in. -/
theorem Neat.insert (neat : before.Neat suffix) {key : Key} {content : Content}
    (named : key ≠ [] → ∃ path, Path.Plain suffix path ∧
      (key = path ∨ key = path ++ suffix ∨ key = path ++ [separator])) :
    Neat suffix (before.insert key content) := by
  intro other present given
  rcases Std.ExtTreeMap.mem_insert.mp present with same | kept
  · obtain rfl := Std.LawfulEqCmp.compare_eq_iff_eq.mp same
    exact named given
  · exact neat other kept given

theorem Hollow.loses (hollow : before.Hollow suffix) : after.Hollow suffix := by
  intro path plain key kind content stored
  have same := lookup_of_lost lost (mem_iff_lookup.mpr ⟨content, stored⟩)
  exact hollow path plain key kind content (same.symm.trans stored)

theorem IsTree.loses (tree : before.IsTree suffix) : after.IsTree suffix where
  tidy key present := tree.tidy key (mem_of_lost lost present)
  hollow := tree.hollow.loses lost
  apart path plain present there := by
    refine tree.apart path plain (mem_of_lost lost present) (there.imp (mem_of_lost lost) ?_)
    exact fun ⟨key, stored, below⟩ => ⟨key, mem_of_lost lost stored, below⟩

end Contents

theorem Stable.isTree {suffix : Key} (whole : separator ∉ suffix) :
    Stable suffix (Contents.IsTree suffix) where
  neat tree := tree.tidy.neat
  marks tree marks := marks.isTree whole tree
  loses tree loses := tree.loses loses

theorem Stable.erase {suffix : Key} {inv : Contents → Prop} (stable : Stable suffix inv)
    (key : Key) (contents : Contents) (holds : inv contents) : inv (contents.erase key) := by
  apply stable.loses holds
  intro other
  rw [Contents.not_mem_iff_lookup, Contents.lookup_erase]
  by_cases same : key = other
  · exact .inr (if_pos same)
  · exact .inl (if_neg same)

namespace Program

/-- Where nothing fails, the program keeps the invariant, however it ends. -/
def Keeps {α : Type} (inv : Contents → Prop) (program : Store.Action Memory.Cursor α) : Prop :=
  ∀ memory : Memory, inv memory.contents →
    program.Ensures (Memory.may fun _ => False) memory fun _ later => inv later.contents

namespace Keeps
variable {α β : Type} {inv : Contents → Prop}

theorem done (value : α) : Keeps inv (.done value) := fun _ holds => holds

theorem fail (failure : Failure) : Keeps inv (.fail failure : Store.Action Memory.Cursor α) :=
  fun _ holds => holds

theorem notify (notice : Notice) : Keeps inv (notify notice) := fun _ holds => holds

theorem ite {condition : Prop} [Decidable condition] {first second : Store.Action Memory.Cursor α}
    (yes : Keeps inv first) (no : Keeps inv second) :
    Keeps inv (if condition then first else second) := by
  split
  · exact yes
  · exact no

theorem bind {program : Store.Action Memory.Cursor α} {next : α → Store.Action Memory.Cursor β}
    (first : Keeps inv program) (second : ∀ value, Keeps inv (next value)) :
    Keeps inv (program.bind next) := by
  intro memory holds
  apply Ensures.bind (first memory holds)
  · exact fun value later kept => second value later kept
  · exact fun failure later kept => kept

theorem forM {next : β → Store.Action Memory.Cursor Unit} (items : List β)
    (each : ∀ item ∈ items, Keeps inv (next item)) : Keeps inv (items.forM next) := by
  induction items with
  | nil => exact done ()
  | cons item later ih =>
    exact bind (each item List.mem_cons_self) fun _ =>
      ih fun other member => each other (List.mem_cons_of_mem _ member)

theorem succeeds {program : Store.Action Memory.Cursor Unit} (keeps : Keeps inv program)
    (notice : Cause → Notice) : Keeps inv (program.succeeds notice) :=
  fun memory holds => Ensures.succeeds_leaves (keeps memory holds) notice

theorem of_returns {program : Store.Action Memory.Cursor α}
    (returns : ∀ memory : Memory, inv memory.contents →
      program.Returns (Memory.may fun _ => False) memory fun _ later => inv later.contents) :
    Keeps inv program := by
  intro memory holds
  apply Ensures.mono (returns memory holds)
  rintro result later ⟨_, _, kept⟩
  exact kept

theorem status (key : Key) : Keeps inv (Store.status key) := by
  apply of_returns
  intro memory holds
  apply Returns.mono (Memory.returns_status _ memory key)
  rintro status later ⟨rfl, _⟩
  exact holds

theorem delete {key : Key} (erases : ∀ contents, inv contents → inv (contents.erase key)) :
    Keeps inv (Store.delete key) := by
  apply of_returns
  intro memory holds
  apply Returns.mono (Memory.returns_delete _ memory key)
  rintro made later (⟨_, rfl⟩ | ⟨_, _, ⟨⟩⟩)
  exact erases memory.contents holds

/-- An object that is copied keeps up what putting it in keeps up. -/
theorem copy {source destination : Key}
    (inserts : ∀ contents content, inv contents → contents[source]? = some content →
      inv (contents.insert destination content)) :
    Keeps inv (Store.copy source destination) := by
  apply of_returns
  intro memory holds
  apply Returns.mono (Memory.returns_copy _ memory source destination)
  rintro made later (⟨content, stored, rfl, rfl⟩ | ⟨rfl, rfl, _⟩)
  · exact inserts memory.contents content holds stored
  · exact holds

end Keeps
end Program

namespace FileSystem

open Program (Keeps)

variable {fs : FileSystem} {inv : Contents → Prop} {path : Path} {memory : Memory}

/-- A plain path, or the root. -/
def Place (fs : FileSystem) (path : Path) : Prop :=
  Path.Plain fs.suffix path ∨ fs.root.isRoot path = true

theorem stem_root (root : fs.root.isRoot path = true) : fs.root.stem path = [] := by
  rw [Root.isRoot, decide_eq_true_eq] at root
  rw [Root.stem, root]
  rfl

theorem Place.stem (proper : fs.Proper) (place : fs.Place path) :
    Path.Stem fs.suffix (fs.root.stem path) := by
  cases place with
  | inl plain => exact .inr ⟨path, plain, proper.stem_plain plain⟩
  | inr root => exact .inl (stem_root root)

theorem isDirectory_root (root : fs.root.isRoot path = true) :
    (fs.isDirectory path : Store.Action Memory.Cursor Bool) = .done true := by
  rw [isDirectory, if_pos root]
  rfl

/-- What a walk adds for the groups of a listing are markers. -/
theorem marks_group (proper : fs.Proper) {stem : Key} {before now : Contents} {grouped : Bool}
    (at_stem : Path.Stem fs.suffix stem) (neat : before.Neat fs.suffix) {start : Key}
    (listed : .group start ∈ before.entries stem grouped)
    (marks : Marks fs.suffix (fun _ => True) before now) :
    Marks fs.suffix (fun _ => True) before (now.insert (fs.markerKey start) []) := by
  have whole := proper.suffix_whole
  obtain ⟨name, _, named, under, rfl⟩ := neat.listed_group whole at_stem listed
  have plain := at_stem.append_plain named
  rw [proper.markerKey_stem plain]
  exact marks.trans whole
    (.insert trivial plain (Contents.HasDirectory.admits (.inr (marks.under under))))

variable (proper : fs.Proper)

theorem keeps_isFile (path : Path) : Keeps inv (fs.isFile path) :=
  .bind (.status _) fun _ => .done _

section markable
variable (markable : Markable fs.suffix inv)
include proper markable

theorem keeps_isDirectory (place : fs.Place path) : Keeps inv (fs.isDirectory path) := by
  cases place with
  | inl plain =>
    apply Keeps.of_returns
    intro memory holds
    apply Returns.mono (returns_isDirectory_found proper plain)
    exact fun _ later look => markable.marks holds look.marks
  | inr root =>
    rw [isDirectory_root root]
    exact .done true

theorem keeps_makeDirectories (place : fs.Place path) (createParents : Bool) :
    Keeps inv (fs.makeDirectories path createParents) := by
  apply Keeps.succeeds
  cases place with
  | inl plain =>
    intro memory holds
    apply Ensures.mono (ensures_makeDirectory proper plain createParents)
    exact fun _ later furnished => markable.marks holds furnished.1.marks
  | inr root =>
    rw [makeDirectory, if_pos root, isDirectory_root root]
    exact .done ()

/-- Listing the children only puts markers. -/
theorem keeps_children (place : fs.Place path) (recursive : Bool) :
    Keeps inv (fs.children path recursive) := by
  apply Keeps.bind (keeps_isDirectory proper markable place)
  intro found
  cases found with
  | false => exact .done none
  | true =>
    dsimp only
    cases read : fs.settings.pageSize with
    | error defect => exact .fail _
    | ok pageSize =>
      intro memory holds
      have neat := markable.neat holds
      apply Ensures.bind_done
      apply Ensures.bind (Memory.ensures_list _ memory _ _ _)
      · rintro page later ⟨rfl, ⟨⟨⟩⟩ | ⟨⟨⟩, _⟩⟩
        have upholds : Upholds fs (fun _ => False) (fs.root.stem path)
            (later.contents.entries (fs.root.stem path) !recursive)
            fun _ now => Marks fs.suffix (fun _ => True) later.contents now.contents :=
          .of_memory fun start member now => marks_group proper (place.stem proper) neat member
        apply Ensures.bind (ensures_walk_entries read upholds (.refl _))
        · rintro children final ⟨⟨_, marks⟩, _⟩
          exact markable.marks holds marks
        · rintro failure final ⟨⟨_, marks⟩, _⟩
          exact markable.marks holds marks
      · rintro failure later ⟨rfl, _⟩
        exact holds

theorem keeps_requireChildren (place : fs.Place path) (recursive : Bool) :
    Keeps inv (fs.requireChildren path recursive) := by
  apply Keeps.bind (keeps_children proper markable place recursive)
  intro listed
  cases listed with
  | none => exact .fail _
  | some children => exact .done children

end markable

/-- Deleting a key keeps up what taking it out keeps up. -/
theorem keeps_removePlaceholder
    (erases : ∀ contents, inv contents → inv (contents.erase (fs.root.stem path))) :
    Keeps inv (fs.removePlaceholder path) := by
  unfold removePlaceholder
  apply Keeps.ite (.done ())
  apply Keeps.bind (.status _)
  intro status
  cases status with
  | none => exact .done ()
  | some status => exact .bind (.delete erases) fun _ => .ite (.notify _) (.fail _)

theorem keeps_removeEntry {entry : Entry} (erases : ∀ contents key, fs.Doomed path entry key →
      inv contents → inv (contents.erase key)) : Keeps inv (fs.removeEntry path entry) := by
  apply Keeps.bind (.delete fun contents => erases contents _ (.inl rfl))
  intro deleted
  apply Keeps.ite
  · apply Keeps.bind (.notify _)
    intro _
    by_cases bare : fs.root.stem (Path.join path entry.name) = []
    · exact .ite (by rw [removePlaceholder, if_pos bare]; exact .done ()) (.done ())
    · by_cases directory : entry.isDirectory = true
      · rw [if_pos directory]
        exact keeps_removePlaceholder fun contents =>
          erases contents _ (.inr ⟨directory, bare, rfl⟩)
      · rw [if_neg directory]
        exact .done ()
  · exact .fail _

theorem keeps_removeMarker
    (erases : ∀ contents, inv contents → inv (contents.erase (fs.markerKey path))) :
    Keeps inv (fs.removeMarker path) :=
  .bind (.delete erases) fun _ => .ite (.done ()) (.fail _)

section stable
variable (stable : Stable fs.suffix inv)
include proper stable

omit proper in
theorem keeps_deleteFile (path : Path) : Keeps inv (fs.deleteFile path) :=
  .delete (stable.erase _)

theorem keeps_removeDirectory (place : fs.Place path) (recursive : Bool) :
    Keeps inv (fs.removeDirectory path recursive) := by
  have below : Keeps inv (fs.removeBelow path recursive) := by
    apply Keeps.bind (keeps_requireChildren proper stable.toMarkable place recursive)
    intro children
    apply Keeps.ite (.forM children fun entry _ => ?_) (.ite (.done ()) (.fail _))
    exact keeps_removeEntry fun contents key _ => stable.erase key contents
  exact .bind below fun _ => .bind (keeps_removePlaceholder (stable.erase _)) fun _ =>
    keeps_removeMarker (stable.erase _)

theorem keeps_deleteDirectory (place : fs.Place path) (recursive : Bool) :
    Keeps inv (fs.deleteDirectory path recursive) :=
  .succeeds (keeps_removeDirectory proper stable place recursive) _

end stable
end FileSystem
end KeyTree
