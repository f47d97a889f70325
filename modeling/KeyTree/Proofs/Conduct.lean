import KeyTree.Proofs.Allowance
import KeyTree.Proofs.Joining
import KeyTree.Proofs.Making
import KeyTree.Proofs.Moves

/-!
What makes, removes, moves, measures and writes, within an allowance. While only allowed keys are in
a tame store, whatever fails, each of these operations ends with an answer or in one of the failures
that are expected of it, and again only allowed keys are there.
-/
namespace KeyTree

theorem Root.length_of_mem_ancestors {root : Root} {path place : Path}
    (member : place ∈ root.ancestors path) : place.length < path.length := by
  fun_induction Root.ancestors root path with
  | case1 path top => exact absurd member List.not_mem_nil
  | case2 path parent up ih =>
    have above := Root.parent?_length up
    rcases List.mem_cons.mp member with rfl | outer
    · exact above
    · exact (ih outer).trans above

namespace FileSystem

open Program (Settles)
open Store (Tame)

variable {Cursor : Type} [Tame Cursor] {fs : FileSystem} {kinds : Kind → Prop} {endless : Prop}
  {allowed : Key → Prop} {path : Path}

section making

theorem contained_requireMarker (here : allowed (fs.markerKey path)) :
    Contained Cursor (fun _ => True) endless allowed (fs.requireMarker path) fun _ => True :=
  .bind (contained_createEmpty here) fun _ _ => .ite (fun _ => .done trivial) fun _ => .fail trivial

theorem contained_missing {paths : List Path}
    (marked : ∀ path ∈ paths, allowed (fs.markerKey path)) :
    Contained Cursor (fun _ => True) endless allowed (fs.missing paths)
      fun outer => outer ⊆ paths := by
  induction paths with
  | nil => exact .done (List.Subset.refl [])
  | cons path above ih =>
    obtain ⟨here, rest⟩ := List.forall_mem_cons.mp marked
    apply Settles.bind (contained_isDirectory fun _ => here)
    intro found _
    apply Settles.ite
    · exact fun _ => .done (List.nil_subset _)
    · intro _
      apply Settles.bind (ih rest)
      intro outer within
      apply Settles.done
      intro place member
      rcases List.mem_append.mp member with further | last
      · exact List.mem_cons_of_mem path (within further)
      · exact List.mem_singleton.mp last ▸ List.mem_cons_self

variable (marked : ∀ place : Path, place.length ≤ path.length → allowed (fs.markerKey place))
include marked

theorem contained_parentExists :
    Contained Cursor kinds endless allowed (fs.parentExists path) fun _ => True := by
  rw [parentExists]
  cases up : fs.root.parent? path with
  | none => exact .done trivial
  | some parent =>
    exact (contained_isDirectory fun _ =>
      marked parent (Nat.le_of_lt (Root.parent?_length up))).mono fun _ _ => trivial

theorem contained_makeMissing (createParents : Bool) :
    Contained Cursor (fun _ => True) endless allowed (fs.makeMissing path createParents)
      fun _ => True := by
  have last : Contained Cursor (fun _ => True) endless allowed (fs.requireMarker path)
      fun _ => True := contained_requireMarker (marked path (Nat.le_refl _))
  apply Settles.ite
  · intro _
    apply Settles.bind (contained_missing fun place member =>
      marked place (Nat.le_of_lt (Root.length_of_mem_ancestors member)))
    intro outer within
    apply Settles.bind (.forM _) fun _ _ => last
    intro place member
    apply Settles.bind (contained_isFile place)
    intro found _
    exact .ite (fun _ => .fail trivial) fun _ => contained_requireMarker
      (marked place (Nat.le_of_lt (Root.length_of_mem_ancestors (within member))))
  · exact fun _ => .bind (contained_parentExists marked) fun _ _ =>
      .ite (fun _ => last) fun _ => .fail trivial

theorem contained_makeDirectory (createParents : Bool) :
    Contained Cursor (fun _ => True) endless allowed (fs.makeDirectory path createParents)
      fun _ => True := by
  rw [makeDirectory]
  generalize trimmed : (if fs.root.isRoot path = true then path else Path.trimEnd path) = place
  have short : place.length ≤ path.length := by
    rw [← trimmed]
    split
    · exact Nat.le_refl _
    · exact Path.length_trimEnd_le path
  have marks : ∀ inner : Path, inner.length ≤ place.length → allowed (fs.markerKey inner) :=
    fun inner within => marked inner (Nat.le_trans within short)
  apply Settles.bind (contained_isDirectory fun _ => marks place (Nat.le_refl _))
  intro found _
  apply Settles.ite (fun _ => .done trivial)
  intro _
  apply Settles.bind (contained_isFile place)
  intro file _
  exact .ite (fun _ => .fail trivial) fun _ => contained_makeMissing marks createParents

end making

section removing

theorem contained_removePlaceholder (path : Path) :
    Contained Cursor (fun _ => True) endless allowed (fs.removePlaceholder path) fun _ => True := by
  apply Settles.ite (fun _ => .done trivial)
  intro _
  apply Settles.bind (contained_status _)
  intro status _
  cases status with
  | none => exact .done trivial
  | some status =>
    exact .bind (contained_delete _) fun _ _ =>
      .ite (fun _ => .notify _) fun _ => .fail trivial

theorem contained_removeEntry (path : Path) (entry : Entry) :
    Contained Cursor (fun _ => True) endless allowed (fs.removeEntry path entry) fun _ => True := by
  apply Settles.bind (contained_delete _)
  intro made _
  apply Settles.ite _ fun _ => .fail trivial
  intro _
  exact .bind (.notify _) fun _ _ =>
    .ite (fun _ => contained_removePlaceholder _) fun _ => .done trivial

variable {good : Entry → Prop} {recursive : Bool} (ample : Ample fs endless allowed)
  (marked : fs.root.isRoot path = false → allowed (fs.markerKey path))
include ample marked

theorem contained_requireChildren
    (welcomes : Welcomes fs allowed (fs.root.stem path) recursive good) :
    Contained Cursor (fun _ => True) endless allowed (fs.requireChildren path recursive)
      fun entries => ∀ entry ∈ entries, good entry := by
  apply Settles.bind (contained_children trivial ample marked welcomes)
  intro answer holds
  cases answer with
  | none => exact .fail trivial
  | some entries => exact .done (holds entries rfl)

theorem contained_removeDirectory
    (welcomes : Welcomes fs allowed (fs.root.stem path) recursive fun _ => True) :
    Contained Cursor (fun _ => True) endless allowed (fs.removeDirectory path recursive)
      fun _ => True := by
  have below : Contained Cursor (fun _ => True) endless allowed (fs.removeBelow path recursive)
      fun _ => True := by
    apply Settles.bind (contained_requireChildren ample marked welcomes)
    intro entries _
    apply Settles.ite
    · exact fun _ => .forM fun entry _ => contained_removeEntry path entry
    · exact fun _ => .ite (fun _ => .done trivial) fun _ => .fail trivial
  exact .bind below fun _ _ => .bind (contained_removePlaceholder path) fun _ _ =>
    .bind (contained_delete _) fun _ _ => .ite (fun _ => .done trivial) fun _ => .fail trivial

end removing

section moving
variable {source destination : Path}

/-- Nothing is grouped in a recursive listing, so it marks nothing. -/
theorem welcomes_recursive (stem : Key) : Welcomes fs allowed stem true fun _ => True where
  entry _ _ _ := trivial
  marker start permitted := by
    obtain ⟨key, _, _, same⟩ := permitted
    cases same

variable (marked : fs.root.isRoot destination = false → allowed (fs.markerKey destination))
include marked

/-- The root is always there. -/
theorem contained_requireAbsent :
    Contained Cursor (fun _ => True) endless allowed (fs.requireAbsent destination)
      fun _ => fs.root.isRoot destination = false := by
  apply Settles.bind (contained_isFile destination)
  intro file _
  apply Settles.ite (fun _ => .fail trivial)
  intro _
  apply Settles.bind (contained_isDirectory marked)
  intro found top
  apply Settles.ite (fun _ => .fail trivial)
  intro free
  exact .done (Bool.eq_false_iff.mpr fun here => free (top here))

theorem contained_moveFile
    (here : fs.root.isRoot destination = false → allowed (fs.root.relative destination)) :
    Contained Cursor (fun _ => True) endless allowed (fs.moveFile source destination)
      fun _ => True := by
  apply Settles.bind (contained_isFile source)
  intro found _
  apply Settles.ite _ fun _ => .fail trivial
  intro _
  apply Settles.bind (contained_requireAbsent marked)
  intro _ below
  apply Settles.bind (contained_copy _ (here below))
  intro copied _
  apply Settles.ite _ fun _ => .fail trivial
  intro _
  exact .bind (contained_delete _) fun _ _ => .ite (fun _ => .done trivial) fun _ => .fail trivial

omit marked in
theorem contained_copyMarker (source : Path) (here : allowed (fs.markerKey destination)) :
    Contained Cursor (fun _ => True) endless allowed (fs.copyMarker source destination)
      fun _ => True :=
  .bind (contained_copy _ here) fun _ _ => .ite (fun _ => .done trivial) fun _ => .fail trivial

/-- What is left of moving a directory once its entries are known. -/
theorem contained_moveListed (ample : Ample fs endless allowed) (depth : Nat)
    (old : fs.root.isRoot source = false → allowed (fs.markerKey source)) {entries : List Entry}
    (nested : fs.root.isRoot destination = false → ∀ entry ∈ entries,
      Contained Cursor (fun _ => True) endless allowed (fs.moveEntry depth source destination entry)
        fun _ => True) :
    Contained Cursor (fun _ => True) endless allowed
      ((fs.requireAbsent destination).bind fun _ =>
        (fs.copyMarker source destination).bind fun _ =>
          (entries.forM (fs.moveEntry depth source destination)).bind fun _ =>
            fs.removeDirectory source true) fun _ => True := by
  apply Settles.bind (contained_requireAbsent marked)
  intro _ below
  exact .bind (contained_copyMarker source (marked below)) fun _ _ =>
    .bind (.forM (nested below)) fun _ _ =>
      contained_removeDirectory ample old (welcomes_recursive _)

end moving

section files

theorem contained_requireStatus (missing : kinds .notFound) (path : Path) :
    Contained Cursor kinds endless allowed (fs.requireStatus path) fun _ => True := by
  apply Settles.bind (contained_status _)
  intro status _
  cases status with
  | some status => exact .done trivial
  | none => exact .bind (.notify _) fun _ _ => .fail missing

theorem contained_size (missing : kinds .notFound) (path : Path) :
    Contained Cursor kinds endless allowed (fs.size path) fun _ => True :=
  .bind (contained_requireStatus missing path) fun _ _ => .done trivial

theorem contained_modificationTimeMs (missing : kinds .notFound) (path : Path) :
    Contained Cursor kinds endless allowed (fs.modificationTimeMs path) fun _ => True :=
  .bind (contained_requireStatus missing path) fun _ _ => .done trivial

theorem contained_startUpload (key : Key) :
    Contained S3.Cursor kinds endless allowed (Upload.start key)
      fun upload => upload = ⟨key, [], false⟩ := by
  rintro state kept answer later ⟨rfl, rfl⟩
  exact ⟨kept, rfl⟩

/-- An upload that is closed stays or becomes closed, and only the store may have failed. -/
theorem contained_closeUpload (upload : Upload) (here : allowed upload.key) :
    Contained S3.Cursor kinds endless allowed upload.close fun closed =>
      closed.2.closed = true ∧ (closed.1 = .ok () ∨ S3.StoreFails closed.1) := by
  have stored : Contained S3.Cursor (· = .storeFailure) False allowed
      (Store.store upload.key upload.content) fun _ => True := contained_store _ rfl here
  apply Settles.ite
  · exact fun closed => .done ⟨closed, .inl rfl⟩
  · intro _
    apply Settles.bind (stored.outcome.allow fun _ => False.elim)
    intro answer ended
    apply Settles.done
    refine ⟨rfl, ?_⟩
    cases answer with
    | ok _ => exact .inl rfl
    | error failure =>
      cases failure with
      | refused cause => exact .inr ⟨cause, rfl, ended⟩
      | defect _ | tooManyPages | tooDeep => exact ended.elim

variable (marked : ∀ place : Path, place.length ≤ path.length → allowed (fs.markerKey place))
include marked

theorem contained_makeDirectories (createParents : Bool) :
    Contained Cursor kinds endless allowed (fs.makeDirectories path createParents) fun _ => True :=
  contained_succeeds _ (contained_makeDirectory marked createParents)

theorem contained_create :
    Contained S3.Cursor kinds endless allowed (fs.create path) fun upload =>
      ∀ opened, upload = some opened → opened = ⟨fs.root.relative path, [], false⟩ := by
  have opens : Contained S3.Cursor kinds endless allowed
      (some <$> Upload.start (fs.root.relative path) : Store.Action S3.Cursor (Option Upload))
      fun upload => ∀ opened, upload = some opened →
        opened = ⟨fs.root.relative path, [], false⟩ := by
    apply Settles.bind (contained_startUpload _)
    rintro upload rfl
    exact .done fun opened same => (Option.some.inj same).symm
  rw [create]
  cases up : fs.root.parent? path with
  | none => exact opens
  | some parent =>
    have short := Root.parent?_length up
    apply Settles.bind (contained_makeDirectories
      (fun place within => marked place (by omega)) true)
    intro made _
    apply Settles.ite
    · exact fun _ => opens
    · intro _
      refine .done ?_
      rintro opened ⟨⟩

theorem contained_writeFile (fails : kinds .storeFailure) (here : allowed (fs.root.relative path))
    (contents : List Content) :
    Contained S3.Cursor kinds endless allowed (fs.writeFile path contents) fun _ => True := by
  apply Settles.bind (contained_create marked)
  intro upload opened
  cases upload with
  | none => exact .done trivial
  | some upload =>
    obtain rfl := opened upload rfl
    dsimp only
    rw [Upload.writeAll_open _ [] contents]
    apply Settles.bind (contained_closeUpload _ here)
    rintro ⟨answer, upload⟩ ⟨_, stored⟩
    obtain rfl | ⟨cause, rfl, kind⟩ := stored
    · exact .done trivial
    · rw [← kind] at fails
      exact .fail fails

end files

end FileSystem
end KeyTree
