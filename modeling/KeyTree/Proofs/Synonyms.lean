import KeyTree.Proofs.Echo
import KeyTree.Proofs.Moves
import KeyTree.Proofs.Spelling

/-!
Operations on two texts for the same thing. Where only the key of a path counts, or its marker
and its stem, an operation asks the same requests for any two texts that agree in these. Where
names are joined to a path on the way, the texts that come out have to agree as well.
-/
namespace KeyTree

open Program (Echoes)

namespace FileSystem
variable {Cursor : Type} {fs : FileSystem}

/-- Both texts name one directory, and below it the same keys. -/
structure SameDirectory (fs : FileSystem) (one other : Path) : Prop where
  isRoot : fs.root.isRoot one = fs.root.isRoot other
  stem : fs.root.stem one = fs.root.stem other
  markerKey : fs.markerKey one = fs.markerKey other
  below : ∀ name, fs.root.Synonyms (Path.join one name) (Path.join other name)

theorem SameDirectory.refl {fs : FileSystem} (path : Path) : fs.SameDirectory path path :=
  ⟨rfl, rfl, rfl, fun _ _ => rfl⟩

end FileSystem

theorem Root.Synonyms.directory {fs : FileSystem} {one other : Path}
    (same : fs.root.Synonyms one other) : fs.SameDirectory one other where
  isRoot := by simp only [Root.isRoot, same.here]
  stem := by simp only [Root.stem, same.here]
  markerKey := by simp only [FileSystem.markerKey, same.here]
  below := same.child

namespace FileSystem
variable {Cursor : Type} {fs : FileSystem}

section directory
variable {one other : Path} (same : fs.SameDirectory one other)
include same

theorem echoes_probeBelow :
    Echoes (I := Store.interface Cursor) Eq (fs.probeBelow one) (fs.probeBelow other) := by
  rw [probeBelow, probeBelow, same.stem, same.markerKey]
  apply Echoes.bind_refl
  intro answer
  cases answer with
  | error cause =>
    apply Echoes.ite
    · exact fun _ => .bind_eq (.notify rfl) fun _ => .done rfl
    · exact fun _ => .refuse rfl
  | ok page =>
    cases page with
    | none => exact .done rfl
    | some page => exact .refl _

theorem echoes_isDirectory :
    Echoes (I := Store.interface Cursor) Eq (fs.isDirectory one) (fs.isDirectory other) := by
  rw [isDirectory, isDirectory, probe, probe, same.isRoot, same.markerKey]
  apply Echoes.ite
  · exact fun _ => .done rfl
  · intro below
    simp only [if_neg below]
    refine Echoes.bind_eq (Echoes.bind_refl fun status => ?_) fun _ => .done rfl
    cases status with
    | none => exact echoes_probeBelow same
    | some status => exact .done rfl

theorem echoes_requireMarker :
    Echoes (I := Store.interface Cursor) Eq (fs.requireMarker one) (fs.requireMarker other) := by
  rw [requireMarker, requireMarker, createMarker, createMarker, same.markerKey]
  exact .refl _

theorem echoes_children (recursive : Bool) :
    Echoes (I := Store.interface Cursor) Eq (fs.children one recursive)
      (fs.children other recursive) := by
  rw [children, children, same.stem]
  exact .bind_eq (echoes_isDirectory same) fun _ => .refl _

theorem echoes_requireChildren (recursive : Bool) :
    Echoes (I := Store.interface Cursor) Eq (fs.requireChildren one recursive)
      (fs.requireChildren other recursive) := by
  apply Echoes.bind_eq (echoes_children same recursive)
  intro listed
  cases listed with
  | none => exact .refuse rfl
  | some children => exact .done rfl

theorem echoes_removePlaceholder :
    Echoes (I := Store.interface Cursor) Eq (fs.removePlaceholder one)
      (fs.removePlaceholder other) := by
  rw [removePlaceholder, removePlaceholder, same.stem]
  exact .refl _

theorem echoes_removeMarker :
    Echoes (I := Store.interface Cursor) Eq (fs.removeMarker one) (fs.removeMarker other) := by
  rw [removeMarker, removeMarker, same.markerKey]
  exact .refl _

theorem echoes_removeEntry (entry : Entry) :
    Echoes (I := Store.interface Cursor) Eq (fs.removeEntry one entry)
      (fs.removeEntry other entry) := by
  simp only [removeEntry, entryKey, (same.below entry.name).here]
  apply Echoes.bind_refl
  intro deleted
  apply Echoes.ite
  · intro _
    apply Echoes.bind_refl
    intro _
    exact .ite (fun _ => echoes_removePlaceholder (same.below entry.name).directory)
      fun _ => .done rfl
  · exact fun _ => .refl _

theorem echoes_removeDirectory (recursive : Bool) :
    Echoes (I := Store.interface Cursor) Eq (fs.removeDirectory one recursive)
      (fs.removeDirectory other recursive) := by
  have below : Echoes (I := Store.interface Cursor) Eq (fs.removeBelow one recursive)
      (fs.removeBelow other recursive) := by
    apply (echoes_requireChildren same recursive).bind_eq
    intro children
    apply Echoes.ite
    · exact fun _ => .forM (fun entry => echoes_removeEntry same entry) children
    · exact fun _ => .ite (fun _ => .done rfl) fun _ => .refuse rfl
  exact below.bind_eq fun _ => (echoes_removePlaceholder same).bind_eq fun _ =>
    echoes_removeMarker same

theorem echoes_deleteDirectory (recursive : Bool) :
    Echoes (I := Store.interface Cursor) Eq (fs.deleteDirectory one recursive)
      (fs.deleteDirectory other recursive) := by
  apply (echoes_removeDirectory same recursive).succeeds
  intro one another same
  simp only [Notice.unquoted, same]

end directory

section key
variable {one other : Path} (same : fs.root.Synonyms one other)
include same

theorem echoes_isFile :
    Echoes (I := Store.interface Cursor) Eq (fs.isFile one) (fs.isFile other) := by
  rw [isFile, isFile, same.here]
  exact .refl _

theorem echoes_makeAncestor :
    Echoes (I := Store.interface Cursor) Eq (fs.makeAncestor one) (fs.makeAncestor other) :=
  .bind_eq (echoes_isFile same) fun _ =>
    .ite (fun _ => .refuse rfl) fun _ => echoes_requireMarker same.directory

theorem echoes_requireAbsent :
    Echoes (I := Store.interface Cursor) Eq (fs.requireAbsent one) (fs.requireAbsent other) :=
  .bind_eq (echoes_isFile same) fun _ => .ite (fun _ => .refuse rfl) fun _ =>
    .bind_eq (echoes_isDirectory same.directory) fun _ =>
      .ite (fun _ => .refuse rfl) fun _ => .done rfl

theorem echoes_requireStatus :
    Echoes (I := Store.interface Cursor) Eq (fs.requireStatus one) (fs.requireStatus other) := by
  rw [requireStatus, requireStatus, same.here]
  apply Echoes.bind_refl
  intro status
  cases status with
  | none => exact .bind_eq (.notify rfl) fun _ => .refuse rfl
  | some status => exact .done rfl

theorem echoes_moveFile {first second : Path} (also : fs.root.Synonyms first second) :
    Echoes (I := Store.interface Cursor) Eq (fs.moveFile one first)
      (fs.moveFile other second) := by
  rw [moveFile, moveFile, same.here, also.here]
  exact .bind_eq (echoes_isFile same) fun _ => .ite
    (fun _ => .bind_eq (echoes_requireAbsent also) fun _ => .refl _) fun _ => .refuse rfl

theorem echoes_renameFile {first second : Path} (also : fs.root.Synonyms first second) :
    Echoes (I := Store.interface Cursor) Eq (fs.renameFile one first)
      (fs.renameFile other second) := by
  apply (echoes_moveFile same also).succeeds
  intro one another same
  simp only [Notice.unquoted, same]

end key

section move
variable {one other first second : Path} (same : fs.SameDirectory one other)
  (also : fs.SameDirectory first second)
include same also

/-- The rest of a move, once nothing is at the destination. -/
theorem echoes_moveVacant {depth : Nat} (children : List Entry)
    (nested : ∀ {one other first second : Path}, fs.SameDirectory one other →
      fs.root.Synonyms first second →
      Echoes (I := Store.interface Cursor) Eq (fs.moveDirectory depth one first)
        (fs.moveDirectory depth other second)) :
    Echoes (I := Store.interface Cursor) Eq
      ((fs.copyMarker one first).bind fun _ =>
        (children.forM (fs.moveEntry depth one first)).bind fun _ => fs.removeDirectory one true)
      ((fs.copyMarker other second).bind fun _ =>
        (children.forM (fs.moveEntry depth other second)).bind fun _ =>
          fs.removeDirectory other true) := by
  have copies : Echoes (I := Store.interface Cursor) Eq (fs.copyMarker one first)
      (fs.copyMarker other second) := by
    rw [copyMarker, copyMarker, same.markerKey, also.markerKey]
    exact .refl _
  have entries : ∀ entry, Echoes (I := Store.interface Cursor) Eq
      (fs.moveEntry depth one first entry) (fs.moveEntry depth other second entry) := by
    intro entry
    have here := same.below entry.name
    have there := also.below entry.name
    exact .ite (fun _ => nested here.directory there) fun _ => echoes_moveFile here there
  exact copies.bind_eq fun _ => (Echoes.forM entries children).bind_eq fun _ =>
    echoes_removeDirectory same true

/-- A move goes the same way if both places are the same directories and the demand that
nothing is at the destination is the same. -/
theorem echoes_moveDirectory (absent : Echoes (I := Store.interface Cursor) Eq
      (fs.requireAbsent first) (fs.requireAbsent second)) (depth : Nat) :
    Echoes (I := Store.interface Cursor) Eq (fs.moveDirectory depth one first)
      (fs.moveDirectory depth other second) := by
  induction depth generalizing one other first second with
  | zero => exact .refl _
  | succ depth ih =>
    rw [moveDirectory_succ, moveDirectory_succ, same.stem, also.stem]
    apply Echoes.ite
    · exact fun _ => .refuse rfl
    · intro _
      apply (echoes_requireChildren same false).bind_eq
      intro children
      refine absent.bind_eq fun _ => echoes_moveVacant same also children ?_
      exact fun here there => ih here there.directory (echoes_requireAbsent there)

theorem echoes_renameDirectory (absent : Echoes (I := Store.interface Cursor) Eq
      (fs.requireAbsent first) (fs.requireAbsent second)) :
    Echoes (I := Store.interface Cursor) Eq (fs.renameDirectory one first)
      (fs.renameDirectory other second) := by
  apply (echoes_moveDirectory same also absent fs.limits.depth).succeeds
  intro one another same
  simp only [Notice.unquoted, same]

end move

end FileSystem
end KeyTree
