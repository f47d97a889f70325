import KeyTree.Proofs.Noted
import KeyTree.Proofs.Removal
import KeyTree.Proofs.Room

/-!
Deleting a directory again after a deletion that broke off. The marker of the directory goes
last, so a deletion that breaks off leaves the directory, and it leaves a part of the tree
that was there. What the second deletion has to take away is then what is left of the first,
and both together leave what one deletion without faults leaves.
-/
namespace KeyTree

open KeyTree.Path (separator)
open Program (Ensures)

/-- Keys were lost, and nothing else has changed, but for the marker of the path. -/
theorem Contents.IsTree.emptied {fs : FileSystem}
    {fallible : Store.Request Memory.Cursor → Prop} {path : Path} {before after : Memory}
    {result : Except Failure Unit} (proper : fs.Proper) (plain : Path.Plain fs.suffix path)
    (emptied : FileSystem.Emptied fs fallible path before result after)
    (tree : before.contents.IsTree fs.suffix) : after.contents.IsTree fs.suffix where
  tidy := emptied.tidy plain tree.tidy
  hollow := by
    intro other named key kind content stored
    rcases emptied.keeps key with same | ⟨_, gone | ⟨fresh, _⟩⟩
    · exact tree.hollow other named key kind content (same ▸ stored)
    · exact absurd (Contents.mem_iff_lookup.mpr ⟨content, stored⟩) gone
    · rw [fresh, Option.some.injEq] at stored
      exact stored.symm
  apart := by
    intro file named present there
    rcases emptied.file proper.suffix_whole named with same | ⟨_, gone⟩
    · exact tree.apart file named ((Contents.mem_of_lookup_eq same).mp present)
        (emptied.hasDirectory proper.suffix_whole there)
    · exact gone present

namespace FileSystem
variable {fs : FileSystem} {fallible : Store.Request Memory.Cursor → Prop} {memory : Memory}
  {path : Path}

/-- What a removal leaves that has broken off. -/
structure Abandoned (fs : FileSystem) (path : Path) (before after : Memory) (unlisted : Prop) :
    Prop where
  there : before.contents.HasDirectory fs.suffix path → after.contents.HasDirectory fs.suffix path
  undeleted : unlisted → ∀ key ∈ before.contents, after.contents[key]? = before.contents[key]?

theorem Deleted.same {keys : Key → Prop} {before after : Memory} {result : Except Failure Unit}
    {key : Key} (deleted : Deleted fallible keys before result after) (free : ¬ keys key) :
    after.contents[key]? = before.contents[key]? := by
  rcases deleted.keeps key with same | ⟨member, _⟩
  · exact same
  · exact absurd member free

variable (proper : fs.Proper) (plain : Path.Plain fs.suffix path)
include proper plain

/-- The marker is the last key that goes. -/
theorem ensures_removeListed_marker (entries : List Entry)
    (named : ∀ entry ∈ entries, Path.Plain fs.suffix entry.name) :
    ((entries.forM (fs.removeEntry path)).bind fun _ =>
        (fs.removePlaceholder path).bind fun _ => fs.removeMarker path).Ensures
      (Memory.may fallible) memory fun result later => ∀ failure, result = .error failure →
        later.contents[path ++ fs.suffix]? = memory.contents[path ++ fs.suffix]? := by
  have whole := proper.suffix_whole
  have entry_free : ¬ ∃ entry ∈ entries, entry.Stands fs.suffix path (path ++ fs.suffix) := by
    rintro ⟨entry, _, stands⟩
    exact not_stem_prefix_marker whole stands.below
  have placeholder_free : path ++ fs.suffix ≠ path ++ [separator] :=
    marker_ne_stem whole proper.suffix_ne_nil path path
  apply Ensures.bind (ensures_removeNamed proper plain entries named)
  · intro _ emptied below
    have first := below.same entry_free
    apply Ensures.bind (ensures_removePlaceholder proper plain)
    · intro _ unplaced placeholder
      have second := placeholder.same placeholder_free
      rw [removeMarker]
      apply Program.Returns.bind (Memory.returns_delete fallible unplaced _)
      intro made later deleted
      cases made with
      | true =>
        intro failure failed
        cases failed
      | false =>
        intro failure _
        rcases deleted with ⟨⟨⟩, _⟩ | ⟨_, rfl, _⟩
        exact second.trans first
    · intro failure unplaced placeholder _ _
      exact (placeholder.same placeholder_free).trans first
  · intro failure emptied below _ _
    exact below.same entry_free

theorem ensures_removeDirectory_abandoned (tidy : memory.contents.Tidy fs.suffix)
    (hollow : memory.contents.Hollow fs.suffix) :
    (fs.removeDirectory path true).Ensures
      ((Memory.may fallible).noting Exchange.ListingFails) (memory, False)
      fun result later => ∀ failure, result = .error failure →
        Abandoned fs path memory later.1 later.2 := by
  have whole := proper.suffix_whole
  have gathers : (fs.requireChildren path true).Ensures
      ((Memory.may fallible).noting Exchange.ListingFails) (memory, False) fun result later =>
        Gathered fs fallible path true memory result later.1 :=
    Ensures.unnoted (ensures_requireChildren proper plain tidy.neat true)
  rw [removeDirectory, removeBelow, Program.bind_eq_bind, Program.bind_eq_bind,
    Program.bind_assoc]
  apply Ensures.bind (gathers.and (heeds_requireChildren path true _ _ _ id))
  · rintro children ⟨listed, met⟩ ⟨gathered, heeded⟩
    have unmet : ¬ met := fun met => heeded met children rfl
    obtain ⟨marked, merged⟩ := gathered.listed children rfl
    have named : ∀ entry ∈ children, Path.Plain fs.suffix entry.name := by
      intro entry member
      obtain ⟨given, shown⟩ := merged.shown_of_mem member
      exact ((Contents.shown_recursive_iff whole proper.suffix_ne_nil tidy.neat given).mp shown).1
    have silent : Unlisted (((children.forM (fs.removeEntry path)).bind fun _ =>
        (fs.removePlaceholder path).bind fun _ => fs.removeMarker path) :
          Store.Action Memory.Cursor Unit) :=
      .bind (.forM (unlisted_removeEntry path) children) fun _ =>
        .bind (unlisted_removePlaceholder path) fun _ => unlisted_removeMarker path
    apply Ensures.mono
      ((Ensures.unnoted (ensures_removeListed_marker proper plain children named)).and
        (silent _ _ (listed, met)))
    rintro result later ⟨keeps, same⟩ failure failed
    refine ⟨fun _ => .inl ?_, fun unlisted => absurd (same.mp unlisted) unmet⟩
    exact (Contents.mem_of_lookup_eq (keeps failure failed)).mpr marked
  · intro failure later gathered _ _
    have heals := gathered.1.heals
    exact ⟨(heals.hasDirectory_iff whole).mpr, fun _ key present => heals.kept hollow present⟩

/-- Where nothing stops it, a deletion clears what the directory of a tree holds. -/
theorem deleteDirectory_clears_tree (tree : memory.contents.IsTree fs.suffix)
    (there : memory.contents.HasDirectory fs.suffix path)
    (unobstructed : ¬ fs.Obstructed (fun _ => False) memory.contents path) :
    let ended := (fs.deleteDirectory path true).run Memory.serve memory
    ended.result = .ok true ∧
      Rewrites (path.Holds fs.suffix) (fun _ _ => False) memory.contents ended.state.contents := by
  intro ended
  rcases Memory.run_of_ensures ((ensures_removeDirectory proper plain tree.tidy.neat).succeeds
    (.directoryNotDeleted path)) with ⟨answered, emptied⟩ | ⟨_, cause, emptied⟩ |
      ⟨failure, _, emptied⟩
  · refine ⟨answered, emptied.rewrites proper.suffix_whole ?_⟩
    intro key present _ file obscured
    apply tree.apart key file present
    rcases obscured with marked | placed
    · exact .inl marked
    · exact .inr ⟨_, placed, List.prefix_refl _⟩
  · exact absurd (emptied.stopped _ rfl there) unobstructed
  · exact absurd (emptied.stopped _ rfl there) unobstructed

omit proper plain in
/-- A deletion that answers no, whatever has failed, leaves a directory whose deletion can be
taken up again. -/
theorem aborted_of_deleteDirectory {faults : Faults} (turn : Nat) (proper : fs.Proper)
    (plain : Path.Plain fs.suffix path) (tree : memory.contents.IsTree fs.suffix) :
    let ended := (fs.deleteDirectory path true).run (Memory.serveFaulty faults) ⟨memory, turn⟩
    ended.result = .ok false → ∃ failure,
      Emptied fs faults.Hits path memory (.error failure) ended.state.memory ∧
        Abandoned fs path memory ended.state.memory
          (∃ exchange ∈ ended.exchanges, exchange.ListingFails) := by
  intro ended failed
  have empties : (fs.removeDirectory path true).Ensures
      ((Memory.may faults.Hits).noting Exchange.ListingFails) (memory, False) fun result later =>
        Emptied fs faults.Hits path memory result later.1 :=
    Ensures.unnoted (ensures_removeDirectory proper plain tree.tidy.neat)
  have both := empties.and (ensures_removeDirectory_abandoned proper plain tree.tidy tree.hollow)
  have ends := Ensures.met ⟨memory, turn⟩ (Memory.serveFaulty_within faults)
    (both.succeeds (.directoryNotDeleted path))
  simp only [false_or] at ends
  rcases ends with ⟨answered, _⟩ | ⟨_, cause, emptied, abandons⟩ | ⟨failure, stopped, _⟩
  · cases failed.symm.trans answered
  · exact ⟨_, emptied, abandons _ rfl⟩
  · cases failed.symm.trans stopped

omit proper plain in
/-- Whatever requests fail, a recursive deletion in a tree that answers no leaves the
directory, touches nothing that the directory does not hold, and deletes nothing if a listing
has failed. Deleting again without faults then ends as if the first deletion had not been. -/
theorem deleteDirectory_resumes {faults : Faults} (turn : Nat) {pageSize : Nat}
    (proper : fs.Proper) (plain : Path.Plain fs.suffix path)
    (tree : memory.contents.IsTree fs.suffix)
    (there : memory.contents.HasDirectory fs.suffix path)
    (read : fs.settings.pageSize = .ok pageSize)
    (room : memory.contents.reach ≤ fs.limits.pages) :
    let aborted := (fs.deleteDirectory path true).run (Memory.serveFaulty faults) ⟨memory, turn⟩
    let again := (fs.deleteDirectory path true).run Memory.serve aborted.state.memory
    let once := (fs.deleteDirectory path true).run Memory.serve memory
    aborted.result = .ok false →
      aborted.state.memory.contents.HasDirectory fs.suffix path ∧
      (∀ key, ¬ path.Holds fs.suffix key →
        aborted.state.memory.contents[key]? = memory.contents[key]?) ∧
      ((∃ exchange ∈ aborted.exchanges, exchange.ListingFails) →
        ∀ key ∈ memory.contents, aborted.state.memory.contents[key]? = memory.contents[key]?) ∧
      again.result = .ok true ∧ once.result = .ok true ∧
      again.state.contents = once.state.contents := by
  intro aborted again once failed
  have whole := proper.suffix_whole
  obtain ⟨failure, emptied, abandoned⟩ := aborted_of_deleteDirectory turn proper plain tree failed
  have still := abandoned.there there
  have short : (memory.contents.candidates fs.suffix).length < fs.limits.pages :=
    Nat.lt_of_lt_of_le (Contents.length_candidates_lt fs.suffix memory.contents) room
  have covers : ∀ key ∈ memory.contents, path ++ [separator] <+: key →
      key ∈ memory.contents.candidates fs.suffix :=
    fun key present _ => Contents.Potential.mem_candidates (.inl present)
  have left : ∀ key ∈ aborted.state.memory.contents, path ++ [separator] <+: key →
      key ∈ memory.contents.candidates fs.suffix := by
    intro key present below
    apply covers key _ below
    apply (emptied.mem present).resolve_right
    rintro ⟨rfl, _⟩
    exact not_stem_prefix_marker whole below
  obtain ⟨answered, cleared⟩ := deleteDirectory_clears_tree proper plain
    (tree.emptied proper plain emptied) still (not_obstructed_of_covers read short left)
  obtain ⟨finished, clean⟩ := deleteDirectory_clears_tree proper plain tree there
    (not_obstructed_of_covers read short covers)
  refine ⟨still, fun key free => emptied.outside free, abandoned.undeleted, answered, finished, ?_⟩
  apply Std.ExtTreeMap.ext_getElem?
  intro key
  ext content
  have outside : ¬ path.Holds fs.suffix key →
      aborted.state.memory.contents[key]? = memory.contents[key]? := emptied.outside
  rw [cleared.lookup_iff, clean.lookup_iff]
  exact or_congr_left (and_congr_right fun free => by rw [outside free])

omit proper plain in
/-- A directory loses its marker and keeps its placeholder. -/
theorem deleteDirectory_resumes_nested :
    let memory := Memory.holding
      [("a/d/y".toList, [121]), ("a/e/".toList, []), ("a/x".toList, [120]), ("ab".toList, [122])]
    let faults : Faults := fun turn query => match query with
      | .delete _ => if turn = 8 then some "not deleted" else none
      | _ => none
    let aborted := (usual.deleteDirectory "a".toList true).run (Memory.serveFaulty faults)
      ⟨memory, 0⟩
    let again := (usual.deleteDirectory "a".toList true).run Memory.serve aborted.state.memory
    let once := (usual.deleteDirectory "a".toList true).run Memory.serve memory
    memory.contents.IsTree usual.suffix ∧ aborted.result = .ok false ∧
      "a/e/".toList ∈ aborted.state.memory.contents ∧ again.result = .ok true ∧
      again.state.contents = once.state.contents := by
  intro memory faults aborted again once
  have tree : memory.contents.IsTree usual.suffix := by decide +kernel
  have failed : aborted.result = .ok false := by decide +kernel
  obtain ⟨_, _, _, answered, _, same⟩ := deleteDirectory_resumes 0 usual_proper (by decide) tree
    (by decide +kernel) (Settings.pageSize_integer rfl) (by decide +kernel) failed
  exact ⟨tree, failed, by decide +kernel, answered, same⟩

end FileSystem
end KeyTree
