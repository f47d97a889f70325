import KeyTree.Proofs.Moves
import KeyTree.Proofs.Upkeep

/-!
What removing and moving keep up, however they end. An invariant is kept if it is not broken
where a removal takes a key that its directory holds, or where a move takes a key that the
source holds and puts a file or a marker where the destination is.
-/
namespace KeyTree

open KeyTree.Path (separator)
open Program (Ensures Returns Keeps)

theorem Merged.plain_of_mem {suffix : Key} {contents : Contents} {path : Path}
    {children : List Entry} {entry : Entry} (whole : separator ∉ suffix) (given : suffix ≠ [])
    (neat : contents.Neat suffix)
    (merged : Merged children (contents.Shown suffix (path ++ [separator]) true))
    (member : entry ∈ children) : Path.Plain suffix entry.name := by
  obtain ⟨named, shown⟩ := merged.shown_of_mem member
  exact ((Contents.shown_grouped_iff whole given neat named).mp shown).2.1

/-- Moving from the source to the destination does not break the invariant. -/
structure Carries (suffix : Key) (source destination : Path) (inv : Contents → Prop) : Prop
    extends Markable suffix inv where
  erases : ∀ {contents : Contents} {key : Key}, inv contents → source.Holds suffix key →
    inv (contents.erase key)
  files : ∀ {contents : Contents} {path : Path} {content : Content}, inv contents →
    Path.Plain suffix path → destination ++ [separator] <+: path →
    inv (contents.insert path content)
  markers : ∀ {contents : Contents} {old new : Path} {content : Content}, inv contents →
    Path.Plain suffix old → Path.Plain suffix new →
    destination.Holds suffix (new ++ suffix) → contents[old ++ suffix]? = some content →
    inv (contents.insert (new ++ suffix) content)

theorem Carries.child {suffix : Key} {source destination name : Path} {inv : Contents → Prop}
    (carries : Carries suffix source destination inv) :
    Carries suffix (source ++ separator :: name) (destination ++ separator :: name) inv where
  toMarkable := carries.toMarkable
  erases holds held := carries.erases holds (.below held.of_child)
  files holds plain below := carries.files holds plain (stem_prefix_trans stem_prefix_append below)
  markers holds old new held := carries.markers holds old new (.below held.of_child)

namespace FileSystem
variable {fs : FileSystem} {inv : Contents → Prop} {path source destination : Path}
  (proper : fs.Proper)
include proper

theorem keeps_requireAbsent (markable : Markable fs.suffix inv) (place : fs.Place path) :
    Keeps inv (fs.requireAbsent path) :=
  .bind (keeps_isFile path) fun _ => .ite (.fail _)
    (.bind (keeps_isDirectory proper markable place) fun _ => .ite (.fail _) (.done ()))

/-- The names of a listing lead only to keys that the directory holds. -/
theorem keeps_removeHeld (markable : Markable fs.suffix inv) (plain : Path.Plain fs.suffix path)
    (erases : ∀ {contents : Contents} {key : Key}, inv contents → path.Holds fs.suffix key →
      inv (contents.erase key)) (recursive : Bool) :
    Keeps inv (fs.removeDirectory path recursive) := by
  have whole := proper.suffix_whole
  have given := proper.suffix_ne_nil
  have finish : Keeps inv ((fs.removePlaceholder path).bind fun _ => fs.removeMarker path) := by
    apply Keeps.bind (keeps_removePlaceholder fun contents holds => ?_)
    · refine fun _ => keeps_removeMarker fun contents holds => ?_
      rw [proper.markerKey_plain plain]
      exact erases holds .marker
    · rw [proper.stem_plain plain]
      exact erases holds (.below (List.prefix_refl _))
  apply Keeps.bind _ fun _ => finish
  intro memory holds
  have neat := markable.neat holds
  apply Ensures.bind ((ensures_requireChildren proper plain neat recursive).and
    (keeps_requireChildren proper markable (.inl plain) recursive memory holds))
  · intro children listed ⟨gathered, kept⟩
    obtain ⟨_, merged⟩ := gathered.listed children rfl
    cases recursive with
    | false => exact Keeps.ite (.done ()) (.fail _) listed kept
    | true =>
      refine Keeps.forM children (fun entry member => ?_) listed kept
      obtain ⟨named, shown⟩ := merged.shown_of_mem member
      have below := ((Contents.shown_recursive_iff whole given neat named).mp shown).1
      refine keeps_removeEntry fun contents key doomed holds => erases holds (.below ?_)
      exact ((doomed_iff proper plain below).mp doomed).below
  · exact fun _ _ both => both.2

theorem keeps_moveTo (markable : Markable fs.suffix inv) (place : fs.Place destination)
    (inserts : ∀ contents content, inv contents →
      inv (contents.insert (fs.root.relative destination) content))
    (erases : ∀ contents, inv contents → inv (contents.erase (fs.root.relative source))) :
    Keeps inv (fs.moveFile source destination) := by
  apply Keeps.bind (keeps_isFile source)
  intro found
  apply Keeps.ite
  · apply Keeps.bind (keeps_requireAbsent proper markable place)
    intro _
    apply Keeps.bind (.copy fun contents content holds _ => inserts contents content holds)
    exact fun _ => .ite (.bind (.delete erases) fun _ => .ite (.done ()) (.fail _)) (.fail _)
  · exact .fail _

variable (old : Path.Plain fs.suffix source) (new : Path.Plain fs.suffix destination)
include old new

/-- A child is moved from below the source to below the destination. -/
theorem keeps_moveEntry {depth : Nat} {entry : Entry} (named : Path.Plain fs.suffix entry.name)
    (carries : Carries fs.suffix source destination inv)
    (nested : ∀ {source destination : Path}, Path.Plain fs.suffix source →
      Path.Plain fs.suffix destination → Carries fs.suffix source destination inv →
      Keeps inv (fs.moveDirectory depth source destination)) :
    Keeps inv (fs.moveEntry depth source destination entry) := by
  have oldChild : Path.Plain fs.suffix (source ++ separator :: entry.name) :=
    Path.Plain.append_iff.mpr ⟨old, named⟩
  have newChild : Path.Plain fs.suffix (destination ++ separator :: entry.name) :=
    Path.Plain.append_iff.mpr ⟨new, named⟩
  rw [moveEntry, old.join_eq named, new.join_eq named]
  apply Keeps.ite (nested oldChild newChild carries.child)
  apply keeps_moveTo proper carries.toMarkable (.inl newChild)
  · intro contents content holds
    rw [proper.relative_plain newChild]
    exact carries.files holds newChild stem_prefix_append
  · intro contents holds
    rw [proper.relative_plain oldChild]
    exact carries.erases holds (.below stem_prefix_append)

/-- The rest of a move, once the marker of the destination is there. -/
theorem keeps_moveListed {depth : Nat} {children : List Entry}
    (named : ∀ entry ∈ children, Path.Plain fs.suffix entry.name)
    (carries : Carries fs.suffix source destination inv)
    (nested : ∀ {source destination : Path}, Path.Plain fs.suffix source →
      Path.Plain fs.suffix destination → Carries fs.suffix source destination inv →
      Keeps inv (fs.moveDirectory depth source destination)) :
    Keeps inv ((children.forM (fs.moveEntry depth source destination)).bind fun _ =>
      fs.removeDirectory source true) := by
  apply Keeps.bind (.forM children fun entry member => ?_)
  · intro _
    exact keeps_removeHeld proper carries.toMarkable old carries.erases true
  · exact keeps_moveEntry proper old new (named entry member) carries nested

theorem keeps_moveDirectory (depth : Nat) (carries : Carries fs.suffix source destination inv) :
    Keeps inv (fs.moveDirectory depth source destination) := by
  induction depth generalizing source destination with
  | zero => exact .fail _
  | succ depth ih =>
    rw [moveDirectory_succ]
    apply Keeps.ite (.fail _)
    intro memory holds
    have neat := carries.neat holds
    apply Ensures.bind ((ensures_requireChildren proper old neat false).and
      (keeps_requireChildren proper carries.toMarkable (.inl old) false memory holds))
    · intro children listed ⟨gathered, kept⟩
      obtain ⟨_, merged⟩ := gathered.listed children rfl
      refine Keeps.bind (keeps_requireAbsent proper carries.toMarkable (.inl new)) (fun _ => ?_)
        listed kept
      have copies : Keeps inv (fs.copyMarker source destination) := by
        rw [copyMarker, proper.markerKey_plain old, proper.markerKey_plain new]
        apply Keeps.bind (.copy fun contents content holds stored => ?_)
        · exact fun _ => .ite (.done ()) (.fail _)
        · exact carries.markers holds old new .marker stored
      refine .bind copies fun _ => keeps_moveListed proper old new (fun entry member => ?_) carries ih
      exact merged.plain_of_mem proper.suffix_whole proper.suffix_ne_nil neat member
    · exact fun _ _ both => both.2

end FileSystem
end KeyTree
