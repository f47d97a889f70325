import KeyTree.Proofs.Catalogue
import KeyTree.Proofs.Mirroring
import KeyTree.Proofs.Orderly
import KeyTree.Proofs.Relocation

/-!
Listings and removals beside each other. One file system runs on a memory, the other, which
may differ from it in settings and limits, on any backend that answers for single objects as
its contents say and whose listings are complete. Both then list the same entries and leave
the same markers, and a removal takes away what the entries stand for in whatever order.
-/
namespace KeyTree

open KeyTree.Path (separator)
open Program (Ensures Returns Agrees Mirrors)

/-- What can be chosen for a file system without changing the tree that it shows. -/
structure Tuning where
  settings : Settings
  limits : Limits

/-- The page size can be read, and the limits leave the room. -/
def Tuning.Ample (tuning : Tuning) (room : Nat) : Prop :=
  (∃ pageSize, tuning.settings.pageSize = .ok pageSize) ∧
    room ≤ min tuning.limits.pages tuning.limits.depth

theorem Tuning.Ample.mono {tuning : Tuning} {room less : Nat} (ample : tuning.Ample room)
    (fewer : less ≤ room) : tuning.Ample less :=
  ⟨ample.1, Nat.le_trans fewer ample.2⟩

/-- A tuning with pages of a thousand entries and just this room. -/
def Tuning.wide (room : Nat) : Tuning := ⟨{}, ⟨room, room⟩⟩

theorem Tuning.wide_ample (room : Nat) : (wide room).Ample room :=
  ⟨⟨_, Settings.pageSize_integer rfl⟩, Nat.le_of_eq (Nat.min_self _).symm⟩

namespace FileSystem

def tuned (fs : FileSystem) (tuning : Tuning) : FileSystem where
  root := fs.root
  suffix := fs.suffix
  settings := tuning.settings
  limits := tuning.limits

variable {fs : FileSystem} {tuning one other : Tuning} {contents : Contents} {path : Path}

theorem Proper.tuned (proper : fs.Proper) (tuning : Tuning) : (fs.tuned tuning).Proper :=
  ⟨proper.scheme, proper.suffix_ne_nil, proper.suffix_whole⟩

theorem missing_tuned {Cursor : Type} (paths : List Path) :
    ((fs.tuned tuning).missing paths : Store.Action Cursor (List Path)) = fs.missing paths := by
  induction paths with
  | nil => rfl
  | cons path above ih =>
    rw [missing, missing, ih]
    rfl

theorem makeDirectories_tuned {Cursor : Type} (path : Path) (createParents : Bool) :
    ((fs.tuned tuning).makeDirectories path createParents : Store.Action Cursor Bool) =
      fs.makeDirectories path createParents := by
  have makes : ∀ path, ((fs.tuned tuning).makeMissing path createParents :
      Store.Action Cursor Unit) = fs.makeMissing path createParents := by
    intro path
    rw [makeMissing, makeMissing, missing_tuned]
    rfl
  rw [makeDirectories, makeDirectories, makeDirectory, makeDirectory, makes]
  rfl

theorem writeFile_tuned {Cursor : Type} (path : Path) (contents : List Content) :
    ((fs.tuned tuning).writeFile path contents : Store.Action Cursor (Option (List Nat))) =
      fs.writeFile path contents := by
  have creates : ((fs.tuned tuning).create path : Store.Action Cursor (Option Upload)) =
      fs.create path := by
    simp only [create, makeDirectories_tuned]
    rfl
  rw [writeFile, writeFile, creates]

theorem Listable.of_ample (stem : Key) (ample : tuning.Ample contents.reach) :
    (fs.tuned tuning).Listable stem contents :=
  .of_reach stem ample.1 (Nat.le_trans ample.2 (Nat.min_le_left _ _))

theorem Roomy.of_ample (path : Path) (ample : tuning.Ample contents.reach) :
    (fs.tuned tuning).Roomy tuning.limits.depth path contents := by
  obtain ⟨⟨pageSize, read⟩, room⟩ := ample
  exact .of_reach read (Nat.le_trans room (Nat.min_le_left _ _))
    (Nat.le_trans room (Nat.min_le_right _ _))

/-- The listings of a backend are complete: wherever there is room, they answer and leave what
the contents say. -/
def Complete (fs : FileSystem) (backend : Backend) : Prop :=
  ∀ (tuning : Tuning) contents path recursive, fs.Place path → contents.Orderly fs.suffix →
    (fs.tuned tuning).Listable (fs.root.stem path) contents →
    backend.Ends ((fs.tuned tuning).children path recursive) contents fun result later =>
      ∃ listed, result = .ok listed ∧ fs.Catalogued path recursive contents listed later

theorem complete_memory (proper : fs.Proper) : fs.Complete Memory.backend := by
  intro tuning contents path recursive place orderly listable
  apply Memory.ends_of_ensures
  rintro memory rfl
  exact returns_children_catalogued (proper.tuned tuning) place orderly.neat orderly.hollow
    listable recursive

variable {right : Backend} {refusable : Prop} (proper : fs.Proper) (faithful : right.Faithful)
  (complete : fs.Complete right) (orderly : contents.Orderly fs.suffix) (place : fs.Place path)

section children
variable (here : (fs.tuned one).Listable (fs.root.stem path) contents)
  (there : (fs.tuned other).Listable (fs.root.stem path) contents)
include proper complete orderly place here there

theorem agrees_children (recursive : Bool) :
    Agrees Memory.backend right refusable ((fs.tuned one).children path recursive)
      ((fs.tuned other).children path recursive) contents fun later listed told =>
        fs.Catalogued path recursive contents listed later ∧
          fs.Catalogued path recursive contents told later := by
  apply Agrees.of_ends (complete_memory proper one contents path recursive place orderly here)
    (complete other contents path recursive place orderly there)
  rintro result reached answer met ⟨listed, rfl, lists⟩ ⟨told, rfl, tells⟩
  obtain ⟨rfl, _⟩ := lists.agree tells
  exact ⟨rfl, .value ⟨lists, tells⟩⟩

theorem agrees_requireChildren (recursive : Bool) :
    Agrees Memory.backend right True ((fs.tuned one).requireChildren path recursive)
      ((fs.tuned other).requireChildren path recursive) contents fun later children told =>
        fs.Catalogued path recursive contents (some children) later ∧
          fs.Catalogued path recursive contents (some told) later := by
  apply Agrees.bind (agrees_children proper complete orderly place here there recursive)
  rintro later listed told ⟨lists, tells⟩
  cases listed with
  | none =>
    cases told with
    | none => exact .refuse trivial _ _
    | some others => exact absurd tells.1 lists.1
  | some children =>
    cases told with
    | none => exact absurd lists.1 tells.1
    | some others => exact .done ⟨lists, tells⟩

end children

include faithful in
omit orderly place in
/-- Entries that are the same but for their order stand for the same keys. -/
theorem agrees_removeEntries {entries others : List Entry}
    (same : ∀ entry, entry ∈ entries ↔ entry ∈ others) :
    Agrees Memory.backend right True (entries.forM (fs.removeEntry path))
      (others.forM (fs.removeEntry path)) contents fun _ _ _ => True := by
  have removes : ∀ list : List Entry, (∀ entry, entry ∈ list ↔ entry ∈ entries) →
      Memory.backend.Ends (list.forM (fs.removeEntry path)) contents fun result later =>
        result = .ok () ∧ Rewrites (fun key => ∃ entry ∈ entries, fs.Doomed path entry key)
          (fun _ _ => False) contents later := by
    intro list members
    apply Memory.ends_of_ensures
    rintro memory rfl
    apply Ensures.mono (ensures_removeEntries list)
    intro result later deleted
    apply deleted.rewrites.imp_right
    exact fun rewrites => rewrites.congr (fun key => exists_congr fun entry =>
      and_congr_left fun _ => members entry) fun _ _ => Iff.rfl
  have mirrors : Mirrors Memory.backend right True (others.forM (fs.removeEntry path))
      (others.forM (fs.removeEntry path)) :=
    .forM (mirrors_removeEntry Memory.backend_faithful faithful fs path) others
  apply Agrees.instead ((mirrors contents).mono fun _ _ _ _ => trivial)
    (removes entries fun _ => Iff.rfl) (removes others fun entry => (same entry).symm)
  rintro result reached answer met ⟨rfl, removed⟩ ⟨rfl, also⟩
  exact ⟨removed.unique also, rfl⟩

include proper faithful complete orderly place in
theorem agrees_removeDirectory (here : (fs.tuned one).Listable (fs.root.stem path) contents)
    (there : (fs.tuned other).Listable (fs.root.stem path) contents) (recursive : Bool) :
    Agrees Memory.backend right True ((fs.tuned one).removeDirectory path recursive)
      ((fs.tuned other).removeDirectory path recursive) contents fun _ _ _ => True := by
  have below : Agrees Memory.backend right True ((fs.tuned one).removeBelow path recursive)
      ((fs.tuned other).removeBelow path recursive) contents fun _ _ _ => True := by
    apply Agrees.bind (agrees_requireChildren proper complete orderly place here there recursive)
    rintro later children told ⟨lists, tells⟩
    have same : ∀ entry, entry ∈ children ↔ entry ∈ told := fun _ => lists.2.1.mem_iff tells.2.1
    cases recursive with
    | true => exact agrees_removeEntries faithful same
    | false =>
      have bare : children = [] ↔ told = [] := by
        simp only [List.eq_nil_iff_forall_not_mem, same]
      by_cases empty : children = []
      · rw [if_neg Bool.false_ne_true, if_neg Bool.false_ne_true, if_pos empty,
          if_pos (bare.mp empty)]
        exact .done trivial
      · rw [if_neg Bool.false_ne_true, if_neg Bool.false_ne_true, if_neg empty,
          if_neg (mt bare.mpr empty)]
        exact .refuse trivial _ _
  have rest : Mirrors Memory.backend right True
      ((fs.removePlaceholder path).bind fun _ => fs.removeMarker path)
      ((fs.removePlaceholder path).bind fun _ => fs.removeMarker path) :=
    .bind (mirrors_removePlaceholder Memory.backend_faithful faithful fs path) fun _ =>
      mirrors_removeMarker Memory.backend_faithful faithful fs path
  apply Agrees.bind below
  intro later _ _ _
  exact (rest later).mono fun _ _ _ _ => trivial

end FileSystem
end KeyTree
