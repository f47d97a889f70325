import KeyTree.Proofs.Apartness
import KeyTree.Proofs.Standing

/-!
How long a directory lasts. Only two things leave a directory without its marker: a rename that
puts something below a path while that is no directory, and a deletion of all that is in a
directory that overlooks a file (`Operation.Exposes`). So along a sequence of operations a
directory has its marker, from wherever it had it or was none, and with it stays a directory until
it or one above it is deleted or renamed (`reached_lasts`).
-/
namespace KeyTree

open KeyTree.Path (separator)
open Program (Ensures Returns Keeps)

namespace Operation

/-- The operation deletes or renames the path or one above it. -/
def Uproots (path : Path) : Operation → Prop
  | .deleteDirectory source _ | .renameDirectory source _ => path.UpTo source
  | _ => False

/-- The operation leaves something below the path without the marker of the path: it renamed
something to below the path, which was no directory, or it deleted the path or one above it with
all that is in it and overlooked a file. -/
def Exposes (suffix : Key) (path : Path) (before after : Contents) : Operation → Prop
  | .renameFile _ destination | .renameDirectory _ destination =>
    destination.Above path ∧ ¬ before.HasDirectory suffix path ∧ after.Under path
  | .deleteDirectory source true =>
    path.UpTo source ∧ path ++ suffix ∉ after ∧ before.Overlooks suffix path after
  | _ => False

/-- Only what uproots a directory takes its marker. -/
theorem Uproots.of_takes {suffix : Key} {path : Path} {operation : Operation}
    (whole : separator ∉ suffix)
    (plain : ∀ path ∈ operation.paths, Path.Plain suffix path)
    (takes : operation.Takes suffix (path ++ suffix)) : operation.Uproots path := by
  have held : ∀ {source : Path}, source.Holds suffix (path ++ suffix) → path.UpTo source := by
    intro source held
    cases held with
    | inl same => exact .inl (List.append_cancel_right same).symm
    | inr below => exact .inr ((stem_prefix_marker whole).mp below)
  cases operation with
  | deleteFile file => exact absurd takes (marker_ne whole (plain file (.head _)) path)
  | renameFile file destination => exact absurd takes (marker_ne whole (plain file (.head _)) path)
  | deleteDirectory source recursive => exact held takes
  | renameDirectory source destination => exact held takes
  | _ => exact takes

end Operation

namespace FileSystem
variable {fs : FileSystem} {memory : Memory} {path : Path} {operation : Operation}
  (proper : fs.Proper)
include proper

/-- A directory that has its marker keeps it through whatever does not uproot it. -/
theorem ensures_perform_marked (plain : ∀ path ∈ operation.paths, Path.Plain fs.suffix path)
    (spared : ¬ operation.Uproots path) (orderly : memory.contents.Orderly fs.suffix)
    (marked : path ++ fs.suffix ∈ memory.contents) :
    (fs.perform operation).Ensures (Memory.may fun _ => False) memory
      fun _ later => later.contents.Standing fs.suffix path ∧ path ++ fs.suffix ∈ later.contents := by
  have free := mt (Operation.Uproots.of_takes proper.suffix_whole plain) spared
  apply Ensures.mono ((keeps_perform_retains proper plain free memory ⟨orderly.neat, marked⟩).and
    (keeps_perform_orderly proper (fun place member => .inl (plain place member)) memory orderly))
  exact fun _ _ both => ⟨⟨both.2, fun _ => both.1.present⟩, both.1.present⟩

/-- Looking for a directory puts its marker. -/
theorem ensures_isDirectory_standing (plain : Path.Plain fs.suffix path)
    (orderly : memory.contents.Orderly fs.suffix) :
    (fs.perform (.isDirectory path)).Ensures (Memory.may fun _ => False) memory
      fun _ later => later.contents.Standing fs.suffix path := by
  apply Returns.bind (returns_isDirectory proper plain)
  intro found later look
  refine ⟨⟨look.heals.neat orderly.neat, look.heals.hollow orderly.hollow⟩, fun there => ?_⟩
  cases found with
  | true => exact look.marked rfl
  | false =>
    have missed := look.missed rfl ((look.heals.hasDirectory_iff proper.suffix_whole).mp there)
    exact missed.elim fun _ => False.elim

/-- What does not uproot the path leaves it standing if it is a directory before, or nothing is
below it afterwards. -/
theorem ensures_perform_below (plain : ∀ path ∈ operation.paths, Path.Plain fs.suffix path)
    (spared : ¬ operation.Uproots path) (standing : memory.contents.Standing fs.suffix path) :
    (fs.perform operation).Ensures (Memory.may fun _ => False) memory fun _ later =>
      memory.contents.HasDirectory fs.suffix path ∨ ¬ later.contents.Under path →
        later.contents.Standing fs.suffix path := by
  by_cases there : memory.contents.HasDirectory fs.suffix path
  · apply Ensures.mono (ensures_perform_marked proper plain spared standing.toOrderly
      (standing.marked there))
    exact fun _ _ both _ => both.1
  · apply Ensures.mono (keeps_perform_orderly proper (fun place member => .inl (plain place member))
      memory standing.toOrderly)
    intro result later orderly free
    exact ⟨orderly, fun now => now.resolve_right (free.resolve_left there)⟩

/-- A rename leaves the path no directory, or one with its marker, if it does not expose it. -/
theorem ensures_renameDirectory_standing {source destination : Path}
    (old : Path.Plain fs.suffix source) (new : Path.Plain fs.suffix destination)
    (named : Path.Plain fs.suffix path) (standing : memory.contents.Standing fs.suffix path) :
    (fs.perform (.renameDirectory source destination)).Ensures (Memory.may fun _ => False) memory
      fun _ later =>
        (destination.Above path →
          memory.contents.HasDirectory fs.suffix path ∨ ¬ later.contents.Under path) →
        later.contents.Standing fs.suffix path := by
  have whole := proper.suffix_whole
  by_cases below : destination.Above path
  · by_cases above : path.UpTo source
    · -- The destination is inside the source, so the rename is refused at once.
      have inside : source ++ [separator] <+: destination ++ [separator] := by
        cases above with
        | inl same => exact stem_prefix_stem.mpr (.inr (same ▸ below))
        | inr above => exact stem_prefix_stem.mpr (.inr (stem_prefix_trans above below))
      have refuses : Keeps (Contents.Standing fs.suffix path)
          (fs.moveDirectory fs.limits.depth source destination) := by
        cases fs.limits.depth with
        | zero => exact .fail _
        | succ depth =>
          rw [moveDirectory_succ, proper.stem_plain old, proper.stem_plain new, if_pos inside]
          exact .fail _
      apply Ensures.mono (Keeps.bind (.succeeds refuses _) (fun _ => .done _) memory standing)
      exact fun _ _ kept _ => kept
    · have plain : ∀ path ∈ (Operation.renameDirectory source destination).paths,
          Path.Plain fs.suffix path := by simp [Operation.paths, old, new]
      apply Ensures.mono (ensures_perform_below proper plain above standing)
      exact fun _ _ stands free => stands (free below)
  · have moves := standing_moveDirectory proper named old new below fs.limits.depth
    apply Ensures.mono (Keeps.bind (.succeeds moves _) (fun _ => .done _) memory standing)
    exact fun _ _ kept _ => kept

/-- What does not expose the path leaves it no directory, or one with its marker. -/
theorem ensures_perform_standing (plain : ∀ path ∈ operation.paths, Path.Plain fs.suffix path)
    (named : Path.Plain fs.suffix path) (standing : memory.contents.Standing fs.suffix path) :
    (fs.perform operation).Ensures (Memory.may fun _ => False) memory fun _ later =>
      ¬ operation.Exposes fs.suffix path memory.contents later.contents →
        later.contents.Standing fs.suffix path := by
  have whole := proper.suffix_whole
  have markable := Markable.standing whole named
  have always : Keeps (Contents.Standing fs.suffix path) (fs.perform operation) →
      (fs.perform operation).Ensures (Memory.may fun _ => False) memory fun _ later =>
        ¬ operation.Exposes fs.suffix path memory.contents later.contents →
          later.contents.Standing fs.suffix path :=
    fun keeps => Ensures.mono (keeps memory standing) fun _ _ kept _ => kept
  cases operation with
  | isDirectory place =>
    exact always (.bind (keeps_isDirectory proper markable (.inl (plain place (.head _))))
      fun _ => .done _)
  | isFile place => exact always (.bind (keeps_isFile place) fun _ => .done _)
  | parentExists place =>
    exact always (.bind (keeps_parentExists proper markable (.inl (plain place (.head _))))
      fun _ => .done _)
  | makeDirectories place createParents =>
    exact always (.bind (keeps_makeDirectories proper markable (.inl (plain place (.head _)))
      createParents) fun _ => .done _)
  | writeFile place contents =>
    exact always (.bind (standing_writeFile proper named (plain place (.head _)) contents)
      fun _ => .done _)
  | deleteFile place =>
    have deletes : Keeps (Contents.Standing fs.suffix path) (fs.deleteFile place) := by
      rw [deleteFile, proper.relative_plain (plain place (.head _))]
      exact .delete fun _ holds => holds.erase (marker_ne whole (plain place (.head _)) path).symm
    exact always (.bind deletes fun _ => .done _)
  | deleteDirectory place recursive =>
    have removes := standing_removeDirectory proper named (plain place (.head _)) recursive standing
    have heeded : ∀ later : Memory, ¬ (Operation.deleteDirectory place recursive).Exposes fs.suffix
        path memory.contents later.contents → recursive = true → path.UpTo place →
        path ++ fs.suffix ∉ later.contents →
          ¬ memory.contents.Overlooks fs.suffix path later.contents := by
      rintro later unexposed rfl inside bare overlooked
      exact unexposed ⟨inside, bare, overlooked⟩
    exact Ensures.bind (Ensures.succeeds_leaves removes _)
      (fun _ later kept unexposed => kept (heeded later unexposed))
      fun _ later kept unexposed => kept (heeded later unexposed)
  | renameFile source destination =>
    have old := plain source (.head _)
    have new := plain destination (.tail _ (.head _))
    by_cases below : destination.Above path
    · apply Ensures.mono (ensures_perform_below proper plain id standing)
      intro _ later stands unexposed
      exact stands (or_iff_not_imp_left.mpr fun fresh under => unexposed ⟨below, fresh, under⟩)
    · exact always (.bind (.succeeds (standing_moveFile proper named old new below) _)
        fun _ => .done _)
  | renameDirectory source destination =>
    apply Ensures.mono (ensures_renameDirectory_standing proper (plain source (.head _))
      (plain destination (.tail _ (.head _))) named standing)
    intro _ later stands unexposed
    exact stands fun below =>
      or_iff_not_imp_left.mpr fun fresh under => unexposed ⟨below, fresh, under⟩
  | children place recursive =>
    exact always (.bind (keeps_children proper markable (.inl (plain place (.head _))) recursive)
      fun _ => .done _)
  | size place =>
    exact always (.bind (.bind (keeps_requireStatus place) fun _ => .done _) fun _ => .done _)
  | modificationTime place =>
    exact always (.bind (.bind (keeps_requireStatus place) fun _ => .done _) fun _ => .done _)

/-- Along operations that do not expose the path it is no directory, or has its marker. -/
theorem reached_standing {operations : List Operation}
    (plain : ∀ operation ∈ operations, ∀ path ∈ operation.paths, Path.Plain fs.suffix path)
    (named : Path.Plain fs.suffix path)
    (unexposed : ∀ before operation, before ++ [operation] <+: operations →
      ¬ operation.Exposes fs.suffix path (fs.reached before memory).contents
        (fs.reached (before ++ [operation]) memory).contents)
    (standing : memory.contents.Standing fs.suffix path) :
    (fs.reached operations memory).contents.Standing fs.suffix path := by
  induction operations generalizing memory with
  | nil => exact standing
  | cons operation later ih =>
    rw [reached_cons]
    apply ih (fun other member => plain other (List.mem_cons_of_mem _ member))
    · intro before other within
      rw [← reached_cons, ← reached_cons]
      exact unexposed (operation :: before) other ((List.prefix_cons_inj operation).mpr within)
    · have first := unexposed [] operation ⟨later, rfl⟩
      rw [List.nil_append, reached_cons] at first
      exact Memory.run_of_ensures (ensures_perform_standing proper
        (plain operation List.mem_cons_self) named standing) first

/-- Nothing takes the marker of a directory that is not uprooted. -/
theorem reached_marked {operations : List Operation}
    (plain : ∀ operation ∈ operations, ∀ path ∈ operation.paths, Path.Plain fs.suffix path)
    (spared : ∀ operation ∈ operations, ¬ operation.Uproots path)
    (neat : memory.contents.Neat fs.suffix) (marked : path ++ fs.suffix ∈ memory.contents) :
    path ++ fs.suffix ∈ (fs.reached operations memory).contents := by
  have keeps : ∀ operation ∈ operations,
      Keeps (Contents.Retains fs.suffix (path ++ fs.suffix)) (fs.perform operation) := by
    intro operation member
    exact keeps_perform_retains proper (plain operation member) fun takes =>
      spared operation member (.of_takes proper.suffix_whole (plain operation member) takes)
  exact (reached_keeps keeps ⟨neat, marked⟩).present

/-- Where a path stands, it lasts once it is a directory, until it is uprooted. -/
theorem hasDirectory_lasts {recent later : List Operation}
    (plain : ∀ operation ∈ recent ++ later, ∀ path ∈ operation.paths, Path.Plain fs.suffix path)
    (named : Path.Plain fs.suffix path) (standing : memory.contents.Standing fs.suffix path)
    (unexposed : ∀ before operation, before ++ [operation] <+: recent →
      ¬ operation.Exposes fs.suffix path (fs.reached before memory).contents
        (fs.reached (before ++ [operation]) memory).contents)
    (there : (fs.reached recent memory).contents.HasDirectory fs.suffix path)
    (spared : ∀ operation ∈ later, ¬ operation.Uproots path) :
    (fs.reached (recent ++ later) memory).contents.HasDirectory fs.suffix path := by
  have stands := reached_standing proper
    (fun operation member => plain operation (List.mem_append_left _ member)) named unexposed
    standing
  rw [reached_append]
  exact .inl (reached_marked proper
    (fun operation member => plain operation (List.mem_append_right _ member)) spared stands.neat
    (stands.marked there))

/-- From orderly contents a directory lasts once it was looked for. -/
theorem looked_lasts {recent later : List Operation}
    (plain : ∀ operation ∈ recent ++ later, ∀ path ∈ operation.paths, Path.Plain fs.suffix path)
    (named : Path.Plain fs.suffix path) (orderly : memory.contents.Orderly fs.suffix)
    (unexposed : ∀ before operation, before ++ [operation] <+: recent →
      ¬ operation.Exposes fs.suffix path
        (fs.reached (.isDirectory path :: before) memory).contents
        (fs.reached (.isDirectory path :: before ++ [operation]) memory).contents)
    (there : (fs.reached (.isDirectory path :: recent) memory).contents.HasDirectory fs.suffix path)
    (spared : ∀ operation ∈ later, ¬ operation.Uproots path) :
    (fs.reached (.isDirectory path :: recent ++ later) memory).contents.HasDirectory
      fs.suffix path := by
  have standing := Memory.run_of_ensures (ensures_isDirectory_standing proper named orderly)
  simp only [List.cons_append, reached_cons] at unexposed there ⊢
  exact hasDirectory_lasts proper plain named standing unexposed there spared

omit proper in
/-- Along a sequence that starts with nothing, a directory lasts until it or one above it is
deleted or renamed, unless it was exposed after it last had its marker or was no directory. -/
theorem reached_lasts (proper : fs.Proper) {earlier recent later : List Operation}
    (plain : ∀ operation ∈ earlier ++ recent ++ later, ∀ path ∈ operation.paths,
      Path.Plain fs.suffix path)
    (named : Path.Plain fs.suffix path)
    (fresh : path ++ fs.suffix ∈ (fs.reached earlier (.holding [])).contents ∨
      ¬ (fs.reached earlier (.holding [])).contents.HasDirectory fs.suffix path)
    (unexposed : ∀ before operation, before ++ [operation] <+: recent →
      ¬ operation.Exposes fs.suffix path (fs.reached (earlier ++ before) (.holding [])).contents
        (fs.reached (earlier ++ before ++ [operation]) (.holding [])).contents)
    (there : (fs.reached (earlier ++ recent) (.holding [])).contents.HasDirectory fs.suffix path)
    (spared : ∀ operation ∈ later, ¬ operation.Uproots path) :
    (fs.reached (earlier ++ recent ++ later) (.holding [])).contents.HasDirectory
      fs.suffix path := by
  have tree : (Memory.holding []).contents.IsTree fs.suffix := Contents.isTree_empty
  have first : ∀ operation ∈ earlier, ∀ path ∈ operation.paths, fs.Place path :=
    fun operation member path within => .inl (plain operation (by simp [member]) path within)
  have orderly := reached_orderly proper first ⟨tree.tidy.neat, tree.hollow⟩
  have standing : (fs.reached earlier (.holding [])).contents.Standing fs.suffix path :=
    ⟨orderly, fun there => fresh.resolve_right (not_not.mpr there)⟩
  simp only [List.append_assoc, reached_append earlier] at plain unexposed there ⊢
  exact hasDirectory_lasts proper
    (fun operation member => plain operation (List.mem_append_right _ member)) named standing
    unexposed there spared

omit proper in
/-- A directory that a file made when it was renamed is gone with the file. Made again, after a
rename to below it that is refused, it lasts when the last file in it is deleted. -/
theorem reached_lasts_emptied :
    let earlier : List Operation := [.writeFile "x".toList [[120]],
      .renameFile "x".toList "a/b/x".toList, .deleteFile "a/b/x".toList]
    let recent : List Operation := [.renameFile "x".toList "a/b/y".toList,
      .makeDirectories "a/b".toList true, .writeFile "a/b/z".toList [[122]]]
    let later : List Operation := [.deleteFile "a/b/z".toList]
    (∀ operation ∈ earlier ++ recent ++ later, ∀ path ∈ operation.paths,
      Path.Plain usual.suffix path) ∧
    ¬ (usual.reached earlier (.holding [])).contents.HasDirectory usual.suffix "a/b".toList ∧
    (usual.reached (earlier ++ recent) (.holding [])).contents.HasDirectory
      usual.suffix "a/b".toList ∧
    (usual.reached (earlier ++ recent ++ later) (.holding [])).contents.HasDirectory
      usual.suffix "a/b".toList := by
  intro earlier recent later
  have plain : ∀ operation ∈ earlier ++ recent ++ later, ∀ path ∈ operation.paths,
      Path.Plain usual.suffix path := by decide
  have free : ¬ (usual.reached earlier (.holding [])).contents.HasDirectory usual.suffix
      "a/b".toList := by decide +kernel
  have there : (usual.reached (earlier ++ recent) (.holding [])).contents.HasDirectory
      usual.suffix "a/b".toList := by decide +kernel
  have bare : ¬ (usual.reached (earlier ++ [.renameFile "x".toList "a/b/y".toList])
      (.holding [])).contents.Under "a/b".toList := by decide +kernel
  refine ⟨plain, free, there, reached_lasts usual_proper plain (by decide) (.inr free) ?_ there ?_⟩
  · intro before operation within
    cases before with
    | nil =>
      obtain ⟨rfl, _⟩ := List.cons_prefix_cons.mp within
      exact fun exposes => bare exposes.2.2
    | cons first before =>
      obtain ⟨_, inner⟩ := List.cons_prefix_cons.mp within
      have member : operation ∈ recent.tail := inner.subset (by simp)
      rcases List.mem_pair.mp member with rfl | rfl
      · exact id
      · exact id
  · intro operation member
    rw [List.mem_singleton.mp member]
    exact id

omit proper in
/-- A rename makes no directory above its destination, and what it puts there does not last. -/
theorem not_reached_lasts : ¬ ∀ (fs : FileSystem) (first later : List Operation) (path : Path),
    fs.Proper →
    (∀ operation ∈ first ++ later, ∀ path ∈ operation.paths, Path.Plain fs.suffix path) →
    Path.Plain fs.suffix path →
    (fs.reached first (.holding [])).contents.HasDirectory fs.suffix path →
    (∀ operation ∈ later, ¬ operation.Uproots path) →
    (fs.reached (first ++ later) (.holding [])).contents.HasDirectory fs.suffix path := by
  intro lasts
  have there := lasts usual [.writeFile "x".toList [[120]], .renameFile "x".toList "b/y".toList]
    [.deleteFile "b/y".toList] "b".toList usual_proper (by decide) (by decide) (by decide +kernel)
    (by
      intro operation member
      rw [List.mem_singleton.mp member]
      exact id)
  exact absurd there (by decide +kernel)

end FileSystem
end KeyTree
