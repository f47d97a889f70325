import KeyTree.Proofs.Course
import KeyTree.Proofs.Room
import KeyTree.Proofs.Sequence

/-!
No error of a client comes out of a file system. Whichever calls fail, and with whichever
errors, an operation answers, or is refused by the one kind of refusal that it leaves to its
caller; opening an upload answers, and closing one leaves it closed (`errors_contained`).
-/
namespace KeyTree

open KeyTree.Path (separator)
open Program (Ensures Fate Settles)

namespace Operation

/-- The kinds of refusal that an operation leaves to its caller. -/
def refusals : Operation → Kind → Prop
  | .writeFile _ _ | .children _ _ => (· = .storeFailure)
  | .size _ | .modificationTime _ => (· = .notFound)
  | _ => fun _ => False

/-- The form of what an operation answers. -/
def Yields : Operation → Outcome → Prop
  | .writeFile _ _, outcome => ∃ counts, outcome = .written counts
  | .children _ _, outcome => ∃ children, outcome = .entries children
  | .size _, outcome | .modificationTime _, outcome => ∃ value, outcome = .number value
  | _, outcome => ∃ value, outcome = .truth value

/-- The operation answered in its form, or it was refused as it may be. -/
def Answered (operation : Operation) (result : Except Failure Outcome) : Prop :=
  (∃ outcome, result = .ok outcome ∧ operation.Yields outcome) ∨
    ∃ cause, result = .error (.refused cause) ∧ operation.refusals cause.kind

end Operation

namespace FileSystem
variable {fs : FileSystem} {endless : Prop} {allowed : Key → Prop} {bound : Nat}

/-- What operations on paths of at most so many characters need of the allowed keys. -/
structure Provides (fs : FileSystem) (endless : Prop) (bound : Nat) (allowed : Key → Prop) :
    Prop where
  ample : Ample fs endless allowed
  marker : ∀ path : Path, path.length ≤ bound → allowed (fs.markerKey path)
  key : ∀ path : Path, path.length ≤ bound → allowed (fs.root.relative path)
  welcomes : ∀ stem recursive, Welcomes fs allowed stem recursive fun _ => True

theorem provides_all (readable : ∃ size, fs.settings.pageSize = .ok size) (forever : endless) :
    Provides fs endless bound fun _ => True where
  ample := ⟨readable, .inl forever⟩
  marker _ _ := trivial
  key _ _ := trivial
  welcomes _ _ := ⟨fun _ _ _ => trivial, fun _ _ => trivial⟩

theorem provides_short (whole : separator ∉ fs.suffix)
    (ample : Ample fs endless (Short fs.suffix bound)) :
    Provides fs endless bound (Short fs.suffix bound) where
  ample := ample
  marker _ := short_markerKey
  key _ := short_relative
  welcomes stem recursive := by
    refine ⟨fun _ _ _ => trivial, fun start permitted => ?_⟩
    obtain ⟨name, _, rfl, key, short, below⟩ := permitted.group_start
    exact short_markerKey (short.stem_le whole below)

/-- Every operation but a rename of a directory keeps to the keys that are provided. -/
theorem contained_perform (provides : Provides fs endless bound allowed) {operation : Operation}
    (fits : ∀ path ∈ operation.paths, path.length ≤ bound)
    (single : ∀ source destination, operation ≠ .renameDirectory source destination) :
    Contained S3.Cursor operation.refusals endless allowed (fs.perform operation)
      operation.Yields := by
  have truth : ∀ {program : Store.Action S3.Cursor Bool} {post : Bool → Prop},
      Contained S3.Cursor (fun _ => False) endless allowed program post →
        Contained S3.Cursor (fun _ => False) endless allowed (Outcome.truth <$> program)
          fun outcome => ∃ value, outcome = .truth value :=
    fun settles => settles.map fun value _ => ⟨value, rfl⟩
  have marked : ∀ path ∈ operation.paths, ∀ place : Path, place.length ≤ path.length →
      allowed (fs.markerKey place) := fun path member place within =>
    provides.marker place (within.trans (fits path member))
  have here : ∀ path ∈ operation.paths, allowed (fs.markerKey path) := fun path member =>
    provides.marker path (fits path member)
  have key : ∀ path ∈ operation.paths, allowed (fs.root.relative path) := fun path member =>
    provides.key path (fits path member)
  cases operation with
  | isDirectory path => exact truth (contained_isDirectory fun _ => here path List.mem_cons_self)
  | isFile path => exact truth (contained_isFile path)
  | parentExists path =>
    exact truth (contained_parentExists (marked path List.mem_cons_self))
  | makeDirectories path createParents =>
    exact truth (contained_makeDirectories (marked path List.mem_cons_self) createParents)
  | writeFile path contents =>
    have fails : (Operation.writeFile path contents).refusals .storeFailure := rfl
    exact Settles.map (contained_writeFile (marked path List.mem_cons_self) fails
      (key path List.mem_cons_self) contents) fun counts _ => ⟨counts, rfl⟩
  | deleteFile path => exact truth (contained_delete _)
  | deleteDirectory path recursive =>
    exact truth (contained_succeeds _ (contained_removeDirectory provides.ample
      (fun _ => here path List.mem_cons_self) (provides.welcomes _ recursive)))
  | renameFile source destination =>
    have last : destination ∈ [source, destination] := List.mem_cons_of_mem _ List.mem_cons_self
    exact truth (contained_succeeds _ (contained_moveFile (fun _ => here destination last)
      fun _ => key destination last))
  | renameDirectory source destination => exact absurd rfl (single source destination)
  | children path recursive =>
    have fails : (Operation.children path recursive).refusals .storeFailure := rfl
    exact Settles.map (contained_children fails provides.ample (fun _ => here path List.mem_cons_self)
      (provides.welcomes _ recursive)) fun children _ => ⟨children, rfl⟩
  | size path =>
    have missing : (Operation.size path).refusals .notFound := rfl
    exact Settles.map (contained_size missing path) fun value _ => ⟨value, rfl⟩
  | modificationTime path =>
    have missing : (Operation.modificationTime path).refusals .notFound := rfl
    exact Settles.map (contained_modificationTimeMs missing path) fun value _ => ⟨value, rfl⟩

/-- Where limits may be reached, nothing has to be known of the keys. -/
theorem contained_moveDirectory (readable : ∃ size, fs.settings.pageSize = .ok size)
    (forever : endless) (depth : Nat) (source destination : Path) :
    Contained S3.Cursor (fun _ => True) endless (fun _ => True)
      (fs.moveDirectory depth source destination) fun _ => True := by
  have provides : Provides fs endless 0 fun _ => True := provides_all readable forever
  induction depth generalizing source destination with
  | zero => exact .fail forever
  | succ depth ih =>
    rw [moveDirectory_succ]
    apply Settles.ite (fun _ => .fail trivial)
    intro _
    apply Settles.bind (contained_requireChildren provides.ample (fun _ => trivial)
      (provides.welcomes _ false))
    intro entries _
    apply contained_moveListed (fun _ => trivial) provides.ample depth fun _ => trivial
    intro _ entry _
    exact .ite (fun _ => ih _ _) fun _ => contained_moveFile (fun _ => trivial) fun _ => trivial

theorem fate_renameDirectory_endless (readable : ∃ size, fs.settings.pageSize = .ok size)
    (forever : endless) {source destination : Path} (contents : Contents) :
    (fs.renameDirectory source destination).Ensures S3.Bucket.may contents fun result _ =>
      Fate (Failure.Expected (fun _ => False) endless) (fun _ => True) result := by
  have settled := contained_moveDirectory readable forever fs.limits.depth source destination
    contents fun _ _ => trivial
  exact Ensures.mono (ensures_succeeds _ settled) fun _ _ ended => ended.2

theorem fate_renameDirectory (whole : separator ∉ fs.suffix)
    (first : fs.root.start.head? ≠ some separator) {source destination : Path}
    (old : source.length ≤ bound) (new : destination.length ≤ bound)
    (deep : 2 * bound + 1 < fs.limits.depth)
    (ample : Ample fs endless (Short fs.suffix (3 * bound + 2))) {contents : Contents}
    (kept : ∀ key ∈ contents, Short fs.suffix bound key) :
    (fs.renameDirectory source destination).Ensures S3.Bucket.may contents fun result _ =>
      Fate (Failure.Expected (fun _ => False) endless) (fun _ => True) result := by
  have settled : (fs.moveDirectory fs.limits.depth source destination).Ensures S3.Bucket.may
      contents _ := settled_moveDirectory whole first old new deep ample kept
  exact Ensures.mono (ensures_succeeds _ settled) fun _ _ ended => ended.2

/-- An operation answers or is refused as it may be if it keeps to the keys that are provided, and a
rename of a directory ends. -/
theorem ensures_perform (provides : Provides fs endless bound allowed) {operation : Operation}
    (fits : ∀ path ∈ operation.paths, path.length ≤ bound) {contents : Contents}
    (kept : ∀ key ∈ contents, allowed key)
    (ends : ∀ source destination, operation = .renameDirectory source destination →
      (fs.renameDirectory source destination).Ensures S3.Bucket.may contents
        fun result _ => Fate (Failure.Expected (fun _ => False) endless) (fun _ => True) result) :
    (fs.perform operation).Ensures S3.Bucket.may contents fun result _ =>
      Fate (Failure.Expected operation.refusals endless) operation.Yields result := by
  by_cases renames : ∃ source destination, operation = .renameDirectory source destination
  · obtain ⟨source, destination, rfl⟩ := renames
    apply Ensures.bind (ends source destination rfl)
    · exact fun value later _ => ⟨value, rfl⟩
    · exact fun failure later fate => fate
  · apply Ensures.mono (contained_perform provides fits
      (fun source destination same => renames ⟨source, destination, same⟩) contents kept)
    exact fun result later ended => ended.2

end FileSystem

theorem Program.Fate.value {α : Type} {post : α → Prop} {result : Except Failure α}
    (fate : Fate (Failure.Expected (fun _ => False) False) post result) :
    ∃ value, result = .ok value ∧ post value := by
  cases result with
  | ok value => exact ⟨value, rfl, fate⟩
  | error failure => cases failure <;> exact fate.elim

/-- What was expected of an operation is its answer, or a limit was reached where it could be. -/
theorem Operation.answered_or_endless {operation : Operation} {endless : Prop}
    {result : Except Failure Outcome}
    (fate : Fate (Failure.Expected operation.refusals endless) operation.Yields result) :
    operation.Answered result ∨
      endless ∧ (result = .error .tooManyPages ∨ result = .error .tooDeep) := by
  cases result with
  | ok outcome => exact .inl (.inl ⟨outcome, rfl, fate⟩)
  | error failure =>
    cases failure with
    | refused cause => exact .inl (.inr ⟨cause, rfl, fate⟩)
    | defect _ => exact fate.elim
    | tooManyPages => exact .inr ⟨fate, .inl rfl⟩
    | tooDeep => exact .inr ⟨fate, .inr rfl⟩

namespace S3.Bucket

theorem start_head?_ne (bucket : Bucket) : bucket.root.start.head? ≠ some separator := by
  rw [Root.start, Path.withSeparator]
  split
  · simp [root, rootKey, scheme, separator]
  · simp [root, rootKey, scheme, separator]

section
variable (bucket : Bucket) {settings : Settings}
  (readable : ∃ size, settings.pageSize = .ok size) (contents : Contents) (operation : Operation)
include readable

/-- Only a limit can keep an operation from answering. -/
theorem answered_or_limit (limits : Limits) (faults : Faults) (turn : Nat) :
    let result := (bucket.runFaulty faults ((bucket.fileSystem settings limits).perform operation)
      contents turn).result
    operation.Answered result ∨ result = .error .tooManyPages ∨ result = .error .tooDeep := by
  intro result
  have provides : (bucket.fileSystem settings limits).Provides True
      operation.paths.flatten.length fun _ => True := FileSystem.provides_all readable trivial
  have fate := bucket.run_of_ensures faults turn (FileSystem.ensures_perform provides
    (fun path member => (List.sublist_flatten_of_mem member).length_le)
    (fun key _ => trivial) fun source destination _ =>
      FileSystem.fate_renameDirectory_endless readable trivial contents)
  exact (Operation.answered_or_endless fate).imp_right And.right

/-- There are limits that no operation reaches, however calls fail. -/
theorem answered_within (whole : separator ∉ bucket.suffix) :
    ∃ room, ∀ limits : Limits, room ≤ limits.pages → room ≤ limits.depth →
      ∀ (faults : Faults) (turn : Nat), operation.Answered (bucket.runFaulty faults
        ((bucket.fileSystem settings limits).perform operation) contents turn).result := by
  have short : ∀ path ∈ operation.paths, path.length ≤ contents.reach + operation.paths.flatten.length :=
    fun path member => (List.sublist_flatten_of_mem member).length_le.trans (Nat.le_add_left _ _)
  have kept : ∀ key ∈ contents, Short bucket.suffix (contents.reach +
      operation.paths.flatten.length) key := fun key present =>
    .plain ((Nat.le_of_lt (Contents.length_lt_reach present)).trans (Nat.le_add_right _ _))
  generalize contents.reach + operation.paths.flatten.length = bound at *
  obtain ⟨keys, covers⟩ := Short.covered bucket.suffix (3 * bound + 2)
  refine ⟨keys.length + 2 * bound + 2, fun limits pages depth faults turn => ?_⟩
  have ample : (bucket.fileSystem settings limits).Ample False (Short bucket.suffix (3 * bound + 2)) :=
    ⟨readable, .inr ⟨keys, by dsimp only [fileSystem]; omega, covers⟩⟩
  have provides : (bucket.fileSystem settings limits).Provides False bound
      (Short bucket.suffix bound) :=
    FileSystem.provides_short whole (ample.mono fun key short => short.mono (by omega))
  have fate := bucket.run_of_ensures faults turn (FileSystem.ensures_perform provides short kept
    fun source destination same => by
      subst same
      exact FileSystem.fate_renameDirectory whole bucket.start_head?_ne
        (short source List.mem_cons_self)
        (short destination (List.mem_cons_of_mem _ List.mem_cons_self))
        (by dsimp only [fileSystem]; omega) ample kept)
  exact (Operation.answered_or_endless fate).resolve_right fun ended => ended.1

end

section
variable (bucket : Bucket) (faults : Faults) (contents : Contents) (turn : Nat)

/-- Opening an upload answers, with an upload or without one. -/
theorem create_answers (settings : Settings) (limits : Limits) (path : Path) :
    ∃ upload, (bucket.runFaulty faults ((bucket.fileSystem settings limits).create path) contents
      turn).result = .ok upload := by
  have created : FileSystem.Contained S3.Cursor (fun _ => False) False (fun _ => True)
      ((bucket.fileSystem settings limits).create path) _ :=
    FileSystem.contained_create fun _ _ => trivial
  have settled := bucket.run_of_ensures faults turn (created contents fun _ _ => trivial)
  exact settled.2.value.imp fun upload answered => answered.1

/-- Closing an upload leaves it closed, also if the store fails to take its content. -/
theorem close_closes (upload : Upload) :
    ∃ answer closed, (bucket.runFaulty faults upload.close contents turn).result =
        .ok (answer, closed) ∧
      closed.closed = true ∧ (answer = .ok () ∨ StoreFails answer) := by
  have closes : FileSystem.Contained S3.Cursor (fun _ => False) False (fun _ => True)
      upload.close _ := FileSystem.contained_closeUpload upload trivial
  have settled := bucket.run_of_ensures faults turn (closes contents fun _ _ => trivial)
  obtain ⟨⟨answer, closed⟩, same, holds⟩ := settled.2.value
  exact ⟨answer, closed, same, holds⟩

end

/-- Whatever the bucket holds and whichever calls of its client fail, with whichever errors: an
operation answers or is refused in the one way that it may be, opening an upload answers, and
closing one leaves it closed. Only with a suffix that separates names can a limit come first. -/
theorem errors_contained (bucket : Bucket) {settings : Settings}
    (readable : ∃ size, settings.pageSize = .ok size) (contents : Contents) :
    (∀ (operation : Operation) (limits : Limits) (faults : Faults) (turn : Nat),
      let result := (bucket.runFaulty faults ((bucket.fileSystem settings limits).perform operation)
        contents turn).result
      operation.Answered result ∨ result = .error .tooManyPages ∨ result = .error .tooDeep) ∧
    (separator ∉ bucket.suffix → ∀ operation : Operation, ∃ room, ∀ limits : Limits,
      room ≤ limits.pages → room ≤ limits.depth → ∀ (faults : Faults) (turn : Nat),
        operation.Answered (bucket.runFaulty faults
          ((bucket.fileSystem settings limits).perform operation) contents turn).result) ∧
    (∀ (path : Path) (limits : Limits) (faults : Faults) (turn : Nat), ∃ upload,
      (bucket.runFaulty faults ((bucket.fileSystem settings limits).create path) contents
        turn).result = .ok upload) ∧
    ∀ (upload : Upload) (faults : Faults) (turn : Nat), ∃ answer closed,
      (bucket.runFaulty faults upload.close contents turn).result = .ok (answer, closed) ∧
        closed.closed = true ∧ (answer = .ok () ∨ StoreFails answer) :=
  ⟨bucket.answered_or_limit readable contents,
    fun whole operation => bucket.answered_within readable contents operation whole,
    fun path limits faults turn => bucket.create_answers faults contents turn settings limits path,
    fun upload faults turn => bucket.close_closes faults contents turn upload⟩

/-- A directory is to go inside another spelling of itself. -/
theorem errors_contained_rename :
    let bucket : Bucket := ⟨"bucket".toList, "_$folder$".toList, by decide⟩
    let contents := (Memory.holding [("a//b/x".toList, [120]), ("a/b/y".toList, [121])]).contents
    let operation : Operation := .renameDirectory "a//".toList "a/b/c".toList
    (∃ size, ({} : Settings).pageSize = .ok size) ∧ separator ∉ bucket.suffix ∧
    ∃ room, ∀ limits : Limits, room ≤ limits.pages → room ≤ limits.depth →
      ∀ (faults : Faults) (turn : Nat), operation.Answered (bucket.runFaulty faults
        ((bucket.fileSystem {} limits).perform operation) contents turn).result := by
  intro bucket contents operation
  have readable : ∃ size, ({} : Settings).pageSize = .ok size :=
    ⟨_, Settings.pageSize_integer rfl⟩
  have whole : separator ∉ bucket.suffix := by decide
  obtain ⟨_, within, _⟩ := errors_contained bucket readable contents
  exact ⟨readable, whole, within whole operation⟩

end S3.Bucket
end KeyTree
