import KeyTree.Proofs.Sequence
import KeyTree.Proofs.Synonyms
import KeyTree.Store.Faults

/-!
What stands in front of a path never reaches the store: an operation asks the same requests
whatever it is. The two runs handle different texts all the way, also for the directories above
a path, up to the root.
-/
namespace KeyTree

open KeyTree.Path (separator)
open Program (Echoes)

namespace FileSystem
variable {Cursor : Type} {fs : FileSystem}

section top
variable {path : Path} (top : fs.root.AtTop path)
include top

theorem parentExists_top : (fs.parentExists path : Store.Action Cursor Bool) = .done true := by
  rw [parentExists]
  cases above : fs.root.parent? path with
  | none => rfl
  | some parent => simp [isDirectory, top parent above]

theorem missing_top :
    (fs.missing (fs.root.ancestors path) : Store.Action Cursor (List Path)) = .done [] := by
  rw [Root.ancestors.eq_def]
  cases above : fs.root.parent? path with
  | none => rfl
  | some parent =>
    rw [missing, isDirectory, if_pos (top parent above)]
    rfl

theorem create_top :
    (fs.create path : Store.Action Cursor (Option Upload)) =
      some <$> Upload.start (fs.root.relative path) := by
  rw [create]
  cases above : fs.root.parent? path with
  | none => rfl
  | some parent =>
    have there : (fs.makeDirectories parent true : Store.Action Cursor Bool) = .done true := by
      simp only [makeDirectories, makeDirectory, isDirectory, if_pos (top parent above)]
      rfl
    simp [there, Program.bind]

end top

section lead
variable (clean : fs.root.Clean) {lead path : Path} (led : fs.root.Lead lead)
  (solid : path.Solid)
include clean led solid

theorem echoes_parentExists :
    Echoes (I := Store.interface Cursor) Eq (fs.parentExists (lead ++ path))
      (fs.parentExists path) := by
  obtain ⟨top, above⟩ | ⟨parent, higher, here, there⟩ := Root.parent?_lead clean led solid
  · rw [parentExists_top top, parentExists_top above]
    exact .done rfl
  · rw [parentExists, parentExists, here, there]
    exact echoes_isDirectory (led.synonyms clean higher).directory

omit solid in
/-- The walk upwards meets the same directories and stops at the same one. -/
theorem echoes_missing {path : Path} (solid : path.Solid) :
    Echoes (I := Store.interface Cursor) (List.Forall₂ fs.root.Synonyms)
      (fs.missing (fs.root.ancestors (lead ++ path))) (fs.missing (fs.root.ancestors path)) := by
  obtain ⟨top, above⟩ | ⟨parent, higher, here, there⟩ := Root.parent?_lead clean led solid
  · rw [missing_top top, missing_top above]
    exact .done .nil
  · rw [Root.ancestors_of_parent there, Root.ancestors_of_parent here, missing, missing]
    have same := led.synonyms clean higher
    apply (echoes_isDirectory same.directory).bind_eq
    intro found
    apply Echoes.ite
    · exact fun _ => .done .nil
    · intro _
      apply (echoes_missing higher).bind
      intro outer others alike
      exact .done (List.rel_append alike (.cons same .nil))
termination_by path.length
decreasing_by exact Root.parent?_length here

theorem echoes_makeMissing (createParents : Bool) :
    Echoes (I := Store.interface Cursor) Eq (fs.makeMissing (lead ++ path) createParents)
      (fs.makeMissing path createParents) := by
  have same := (led.synonyms clean solid).directory
  apply Echoes.ite
  · intro _
    apply (echoes_missing clean led solid).bind
    intro ancestors others alike
    refine Echoes.bind_eq (Echoes.forM₂ ?_ alike) fun _ => echoes_requireMarker same
    exact fun _ _ => echoes_makeAncestor
  · intro _
    apply (echoes_parentExists clean led solid).bind_eq
    exact fun _ => .ite (fun _ => echoes_requireMarker same) fun _ => .refuse rfl

theorem echoes_makeDirectory (createParents : Bool) :
    Echoes (I := Store.interface Cursor) Eq (fs.makeDirectory (lead ++ path) createParents)
      (fs.makeDirectory path createParents) := by
  have makes : ∀ {path : Path}, path.Solid → Echoes (I := Store.interface Cursor) Eq
      (do if ← fs.isDirectory (lead ++ path) then pure ()
          else if ← fs.isFile (lead ++ path) then Program.refuse (.alreadyFile (lead ++ path))
          else fs.makeMissing (lead ++ path) createParents)
      (do if ← fs.isDirectory path then pure ()
          else if ← fs.isFile path then Program.refuse (.alreadyFile path)
          else fs.makeMissing path createParents) := by
    intro path solid
    have same := led.synonyms clean solid
    exact .bind_eq (echoes_isDirectory same.directory) fun _ => .ite (fun _ => .done rfl) fun _ =>
      .bind_eq (echoes_isFile same) fun _ => .ite (fun _ => .refuse rfl) fun _ =>
        echoes_makeMissing clean led solid createParents
  rw [makeDirectory, makeDirectory, (led.synonyms clean solid).directory.isRoot]
  by_cases top : fs.root.isRoot path = true
  · simpa only [if_pos top] using makes solid
  · simpa only [if_neg top, Path.trimEnd_append solid] using makes solid.trimEnd

theorem echoes_makeDirectories (createParents : Bool) :
    Echoes (I := Store.interface Cursor) Eq (fs.makeDirectories (lead ++ path) createParents)
      (fs.makeDirectories path createParents) := by
  apply (echoes_makeDirectory clean led solid createParents).succeeds
  intro one another same
  simp only [Notice.unquoted, same]

theorem echoes_create :
    Echoes (I := Store.interface Cursor) Eq (fs.create (lead ++ path)) (fs.create path) := by
  have same := led.relative clean.first path
  obtain ⟨top, above⟩ | ⟨parent, higher, here, there⟩ := Root.parent?_lead clean led solid
  · rw [create_top top, create_top above, same]
    exact .refl _
  · rw [create, create, here, there, same]
    exact .bind_eq (echoes_makeDirectories clean led higher true) fun _ => .refl _

theorem echoes_writeFile (contents : List Content) :
    Echoes (I := Store.interface Cursor) Eq (fs.writeFile (lead ++ path) contents)
      (fs.writeFile path contents) :=
  (echoes_create clean led solid).bind_eq fun _ => .refl _

end lead
end FileSystem

/-- The operation with something in front of its path, and of where a rename goes. -/
def Operation.led (lead front : Path) : Operation → Operation
  | .isDirectory path => .isDirectory (lead ++ path)
  | .isFile path => .isFile (lead ++ path)
  | .parentExists path => .parentExists (lead ++ path)
  | .makeDirectories path createParents => .makeDirectories (lead ++ path) createParents
  | .writeFile path contents => .writeFile (lead ++ path) contents
  | .deleteFile path => .deleteFile (lead ++ path)
  | .deleteDirectory path recursive => .deleteDirectory (lead ++ path) recursive
  | .renameFile source destination => .renameFile (lead ++ source) (front ++ destination)
  | .renameDirectory source destination =>
    .renameDirectory (lead ++ source) (front ++ destination)
  | .children path recursive => .children (lead ++ path) recursive
  | .size path => .size (lead ++ path)
  | .modificationTime path => .modificationTime (lead ++ path)

namespace FileSystem
variable {Cursor σ : Type} {fs : FileSystem} {lead front : Path}

/-- Whatever stands in front of its paths, and whatever the store answers, an operation asks
the same requests and ends the same, up to the path texts that its messages quote. -/
theorem perform_led (clean : fs.root.Clean) (led : fs.root.Lead lead)
    (fronted : fs.root.Lead front) (operation : Operation)
    (solid : ∀ path ∈ operation.paths, path.Solid)
    (handler : Handler (Store.interface Cursor) σ) (state : σ) :
    ((fs.perform (operation.led lead front)).run handler state).unquoted =
      ((fs.perform operation).run handler state).unquoted := by
  have same : ∀ path ∈ operation.paths, fs.root.Synonyms (lead ++ path) path :=
    fun path member => led.synonyms clean (solid path member)
  have directory := fun path member => (same path member).directory
  suffices Echoes (I := Store.interface Cursor) Eq (fs.perform (operation.led lead front))
      (fs.perform operation) from this.run handler state
  cases operation with
  | isDirectory path => exact .bind_eq (echoes_isDirectory (directory path (.head _))) fun _ => .refl _
  | isFile path => exact .bind_eq (echoes_isFile (same path (.head _))) fun _ => .refl _
  | parentExists path =>
    exact .bind_eq (echoes_parentExists clean led (solid path (.head _))) fun _ => .refl _
  | makeDirectories path createParents =>
    exact .bind_eq (echoes_makeDirectories clean led (solid path (.head _)) createParents)
      fun _ => .refl _
  | writeFile path contents =>
    exact .bind_eq (echoes_writeFile clean led (solid path (.head _)) contents) fun _ => .refl _
  | deleteFile path =>
    simp only [Operation.led, perform, deleteFile, (same path (.head _)).here]
    exact .refl _
  | deleteDirectory path recursive =>
    exact .bind_eq (echoes_deleteDirectory (directory path (.head _)) recursive) fun _ => .refl _
  | renameFile source destination =>
    have also := fronted.synonyms clean (solid destination (.tail _ (.head _)))
    exact .bind_eq (echoes_renameFile (same source (.head _)) also) fun _ => .refl _
  | renameDirectory source destination =>
    have also := fronted.synonyms clean (solid destination (.tail _ (.head _)))
    exact .bind_eq (echoes_renameDirectory (directory source (.head _)) also.directory
      (echoes_requireAbsent also)) fun _ => .refl _
  | children path recursive =>
    exact .bind_eq (echoes_children (directory path (.head _)) recursive) fun _ => .refl _
  | size path =>
    exact .bind_eq (.bind_eq (echoes_requireStatus (same path (.head _))) fun _ => .refl _)
      fun _ => .refl _
  | modificationTime path =>
    exact .bind_eq (.bind_eq (echoes_requireStatus (same path (.head _))) fun _ => .refl _)
      fun _ => .refl _

/-- A rename from `/mem://bucket/a` to `mem://bucket//b`, while the first deletion fails. -/
theorem perform_led_renameDirectory :
    let lead := separator :: usual.root.start
    let front := usual.root.start ++ [separator]
    let operation := Operation.renameDirectory "a".toList "b".toList
    let faults : Faults := fun _ query => match query with
      | .delete _ => some "not deleted"
      | _ => none
    let memory := Memory.holding [("a/x".toList, [120])]
    usual.root.Clean ∧ usual.root.Lead lead ∧ usual.root.Lead front ∧
    (∀ path ∈ operation.paths, path.Solid) ∧
    ((usual.perform (operation.led lead front)).run (Memory.serveFaulty faults)
      ⟨memory, 0⟩).unquoted =
        ((usual.perform operation).run (Memory.serveFaulty faults) ⟨memory, 0⟩).unquoted := by
  intro lead front operation faults memory
  have key : usual.root.key =
      "mem".toList ++ [':', separator, separator] ++ "bucket".toList := rfl
  have clean : usual.root.Clean := .of_scheme key (by decide) (by decide) (by decide)
  have led : usual.root.Lead lead := by simpa using Root.Lead.nil.start.separator
  have fronted : usual.root.Lead front := Root.Lead.nil.separator.start
  have plain : ∀ path ∈ operation.paths, Path.Plain usual.suffix path := by decide
  have solid : ∀ path ∈ operation.paths, path.Solid :=
    fun path member => (plain path member).solid
  exact ⟨clean, led, fronted, solid, perform_led clean led fronted operation solid _ _⟩

end FileSystem
end KeyTree
