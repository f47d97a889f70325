import KeyTree.FileSystem.Operation
import KeyTree.Proofs.Agreement
import KeyTree.Proofs.Making

/-!
The operations that list nothing page by page. They see of the objects only which there are
and what they hold, and they do not read the settings, so they do the same on every backend
that answers for single objects as its contents say.
-/
namespace KeyTree.FileSystem

open Program (Agrees Mirrors)

variable {left right : Backend} {fs : FileSystem} {refusable : Prop} {contents : Contents}
  (faithful : left.Faithful) (also : right.Faithful)
include faithful also

theorem mirrors_isFile (fs : FileSystem) (path : Path) :
    Mirrors left right refusable (fs.isFile path) (fs.isFile path) :=
  .look faithful also (.done false) fun _ _ => .done true

theorem agrees_probeBelow (fs : FileSystem) (path : Path) :
    Agrees left right refusable (fs.probeBelow path) (fs.probeBelow path) contents
      fun _ one other => one.isSome = other.isSome := by
  have heals : ∀ marker contents, Agrees left right refusable (healMarker marker)
      (healMarker marker) contents fun _ one other => one.isSome = other.isSome := by
    intro marker contents
    apply Agrees.bind (Agrees.notify _ _)
    intro later _ _ _
    apply Agrees.bind (Mirrors.createEmpty faithful also marker later)
    intro healed _ _ _
    exact (Agrees.status faithful also marker).mono fun _ _ _ looked => looked.2
  -- The first page is empty on one side if and only if it is on the other.
  have peeks : Agrees left right False (Store.list (fs.root.stem path) true 1)
      (Store.list (fs.root.stem path) true 1) contents fun later one other => later = contents ∧
        ∃ page met, one = some page ∧ other = some met ∧ (page.objects = [] ↔ met.objects = []) := by
    apply Agrees.of_ends (faithful.peek contents _) (also.peek contents _)
    rintro result reached answer ends ⟨rfl, page, rfl, here⟩ ⟨rfl, met, rfl, there⟩
    exact ⟨rfl, .value ⟨rfl, page, met, rfl, rfl, here.trans there.symm⟩⟩
  apply Agrees.bind peeks.attempt
  rintro later _ _ ⟨_, _, rfl, rfl, rfl, page, met, rfl, rfl, same⟩
  dsimp only
  by_cases bare : page.objects = []
  · rw [if_pos bare, if_pos (same.mp bare)]
    exact .done rfl
  · rw [if_neg bare, if_neg (mt same.mpr bare)]
    exact heals _ later

theorem mirrors_isDirectory (fs : FileSystem) (path : Path) :
    Mirrors left right refusable (fs.isDirectory path) (fs.isDirectory path) := by
  rw [isDirectory, isDirectory]
  split
  · exact .done true
  · rename_i below
    intro contents
    have probes : Agrees left right refusable (fs.probe path) (fs.probe path) contents
        fun _ one other => one.isSome = other.isSome := by
      rw [probe, probe, if_neg below, if_neg below]
      exact .look faithful also (agrees_probeBelow faithful also fs path) fun _ _ => .done rfl
    apply Agrees.bind probes
    exact fun _ _ _ same => .done same

theorem mirrors_parentExists (fs : FileSystem) (path : Path) :
    Mirrors left right refusable (fs.parentExists path) (fs.parentExists path) := by
  rw [parentExists, parentExists]
  cases fs.root.parent? path with
  | none => exact .done true
  | some parent => exact mirrors_isDirectory faithful also fs parent

theorem mirrors_missing (fs : FileSystem) (paths : List Path) :
    Mirrors left right refusable (fs.missing paths) (fs.missing paths) := by
  induction paths with
  | nil => exact .done []
  | cons path above ih =>
    exact .bind (mirrors_isDirectory faithful also fs path) fun _ =>
      .ite (.done []) (.bind ih fun _ => .done _)

theorem mirrors_requireMarker (fs : FileSystem) (path : Path) :
    Mirrors left right True (fs.requireMarker path) (fs.requireMarker path) :=
  .bind (.createEmpty faithful also _) fun _ => .ite (.done ()) (.refuse trivial _)

theorem mirrors_makeDirectories (fs : FileSystem) (path : Path) (createParents : Bool) :
    Mirrors left right refusable (fs.makeDirectories path createParents)
      (fs.makeDirectories path createParents) := by
  have marks := mirrors_requireMarker faithful also fs
  have ancestors : ∀ ancestor,
      Mirrors left right True (fs.makeAncestor ancestor) (fs.makeAncestor ancestor) :=
    fun ancestor => .bind (mirrors_isFile faithful also fs ancestor) fun _ =>
      .ite (.refuse trivial _) (marks ancestor)
  have makes : ∀ path, Mirrors left right True (fs.makeMissing path createParents)
      (fs.makeMissing path createParents) := by
    intro path
    apply Mirrors.ite
    · exact .bind (mirrors_missing faithful also fs _) fun _ =>
        .bind (.forM ancestors _) fun _ => marks path
    · exact .bind (mirrors_parentExists faithful also fs path) fun _ =>
        .ite (marks path) (.refuse trivial _)
  apply Mirrors.succeeds
  exact .bind (mirrors_isDirectory faithful also fs _) fun _ => .ite (.done ())
    (.bind (mirrors_isFile faithful also fs _) fun _ => .ite (.refuse trivial _) (makes _))

/-- An upload that was just opened is stored as it was written. -/
theorem mirrors_writeOpened (key : Key) (written : List Content) :
    Mirrors left right refusable
      (do let (counts, upload) ← Program.ofExcept
            ((Upload.writeAll ⟨key, [], false⟩ written).mapError .defect)
          let (answer, _) ← upload.close
          Program.ofExcept (answer.map fun _ => some counts) :
        Store.Action left.Cursor (Option (List Nat)))
      (do let (counts, upload) ← Program.ofExcept
            ((Upload.writeAll ⟨key, [], false⟩ written).mapError .defect)
          let (answer, _) ← upload.close
          Program.ofExcept (answer.map fun _ => some counts)) := by
  rw [Upload.writeAll_open key [] written]
  intro contents
  have stores : Agrees left right False (Store.store key written.flatten)
      (Store.store key written.flatten) contents fun _ => Eq :=
    Mirrors.store faithful also key written.flatten contents
  have closes : Agrees left right refusable (Upload.close ⟨key, written.flatten, false⟩)
      (Upload.close ⟨key, written.flatten, false⟩) contents fun _ one other =>
        one.1 = .ok () ∧ other.1 = .ok () := by
    apply Agrees.bind stores.outcome
    rintro later _ _ ⟨_, _, rfl, rfl, _⟩
    exact .done ⟨rfl, rfl⟩
  apply Agrees.bind closes
  rintro later ⟨_, one⟩ ⟨_, other⟩ ⟨rfl, rfl⟩
  exact .done rfl

theorem mirrors_writeFile (fs : FileSystem) (path : Path) (contents : List Content) :
    Mirrors left right refusable (fs.writeFile path contents) (fs.writeFile path contents) := by
  let opened : Upload := ⟨fs.root.relative path, [], false⟩
  have starts : ∀ before, Agrees left right refusable
      (some <$> Upload.start (fs.root.relative path)) (some <$> Upload.start (fs.root.relative path))
      before fun _ one other => one = some opened ∧ other = one := by
    intro before
    apply Agrees.bind (Agrees.bind (Mirrors.openUpload faithful also _ before) ?_)
    · exact fun _ _ _ both => .done both
    · exact fun _ _ _ _ => .done ⟨rfl, rfl⟩
  have creates : ∀ before, Agrees left right refusable (fs.create path) (fs.create path) before
      fun _ one other => (one = none ∨ one = some opened) ∧ other = one := by
    intro before
    rw [create, create]
    cases fs.root.parent? path with
    | none => exact (starts before).mono fun _ _ _ both => both.imp_left .inr
    | some parent =>
      apply Agrees.bind (mirrors_makeDirectories faithful also fs parent true before)
      rintro later made _ rfl
      exact .ite (fun _ => (starts later).mono fun _ _ _ both => both.imp_left .inr)
        fun _ => .done ⟨.inl rfl, rfl⟩
  intro before
  apply Agrees.bind (creates before)
  rintro later upload _ ⟨rfl | rfl, rfl⟩
  · exact .done rfl
  · exact mirrors_writeOpened faithful also _ contents later

theorem mirrors_deleteFile (fs : FileSystem) (path : Path) :
    Mirrors left right refusable (fs.deleteFile path) (fs.deleteFile path) :=
  .delete faithful also _

theorem mirrors_requireAbsent (fs : FileSystem) (path : Path) :
    Mirrors left right True (fs.requireAbsent path) (fs.requireAbsent path) :=
  .bind (mirrors_isFile faithful also fs path) fun _ => .ite (.refuse trivial _)
    (.bind (mirrors_isDirectory faithful also fs path) fun _ => .ite (.refuse trivial _) (.done ()))

theorem mirrors_moveFile (fs : FileSystem) (source destination : Path) :
    Mirrors left right True (fs.moveFile source destination) (fs.moveFile source destination) :=
  .bind (mirrors_isFile faithful also fs source) fun _ => .ite
    (.bind (mirrors_requireAbsent faithful also fs destination) fun _ =>
      .bind (.copy faithful also _ _) fun _ => .ite
        (.bind (.delete faithful also _) fun _ => .ite (.done ()) (.refuse trivial _))
        (.refuse trivial _))
    (.refuse trivial _)

theorem mirrors_copyMarker (fs : FileSystem) (source destination : Path) :
    Mirrors left right True (fs.copyMarker source destination) (fs.copyMarker source destination) :=
  .bind (.copy faithful also _ _) fun _ => .ite (.done ()) (.refuse trivial _)

theorem mirrors_removePlaceholder (fs : FileSystem) (path : Path) :
    Mirrors left right True (fs.removePlaceholder path) (fs.removePlaceholder path) := by
  unfold removePlaceholder
  apply Mirrors.ite (.done ())
  apply Mirrors.look faithful also (.done ())
  intro _ _
  exact .bind (.delete faithful also _) fun _ => .ite (.notify _) (.refuse trivial _)

theorem mirrors_removeMarker (fs : FileSystem) (path : Path) :
    Mirrors left right True (fs.removeMarker path) (fs.removeMarker path) :=
  .bind (.delete faithful also _) fun _ => .ite (.done ()) (.refuse trivial _)

theorem mirrors_removeEntry (fs : FileSystem) (path : Path) (entry : Entry) :
    Mirrors left right True (fs.removeEntry path entry) (fs.removeEntry path entry) :=
  .bind (.delete faithful also _) fun _ => .ite
    (.bind (.notify _) fun _ =>
      .ite (mirrors_removePlaceholder faithful also fs _) (.done ()))
    (.refuse trivial _)

end KeyTree.FileSystem
