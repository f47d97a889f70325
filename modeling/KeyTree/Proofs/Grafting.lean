import KeyTree.Proofs.Filing
import KeyTree.Proofs.Renaming
import KeyTree.Proofs.Standing

/-!
Whether a rename leaves a tree. What is moved arrives at the destination, where nothing was, and
below it, so only what stands above the destination can come into conflict with it. There a rename
never looks: it leaves a tree exactly if no file stands above the destination but the one that is
moved. A rename that answers no always leaves one.
-/
namespace KeyTree

open KeyTree.Path (separator)
open Program (Ensures Returns)

theorem Heals.isTree {suffix : Key} {place : Path} {before after : Contents}
    (heals : Heals suffix place before after) (whole : separator ∉ suffix)
    (tree : before.IsTree suffix) : after.IsTree suffix where
  tidy := heals.tidy tree.tidy
  hollow := heals.hollow tree.hollow
  apart path plain present there :=
    tree.apart path plain ((Contents.mem_of_lookup_eq (heals.file whole plain)).mp present)
      ((heals.hasDirectory_iff whole).mp there)

theorem Path.Holds.behind_iff {suffix : Key} {base path key : Path} :
    (base ++ path).Holds suffix (base ++ key) ↔ path.Holds suffix key := by
  simp only [Path.Holds, List.append_assoc, List.append_cancel_left_eq,
    List.prefix_append_right_inj]

/-- What is grafted arrives at a free destination or below it, as files that hold nothing of it and
as empty markers. Of the files above the destination at most the source is cut off. -/
structure Graft (suffix : Key) (source destination : Path) (region : Key → Prop)
    (arrivals : Key → Content → Prop) (before after : Contents) : Prop
    extends Rewrites region arrivals before after where
  fits : ∀ key content, arrivals key content → Contents.Fits suffix key content
  absent : destination ∉ before
  free : ¬ before.HasDirectory suffix destination
  inhabited : ∃ key content, arrivals key content
  arrives : ∀ key content, arrivals key content → key = destination ∨ destination.Holds suffix key
  single : ∀ file content, Path.Plain suffix file → arrivals file content →
    ∀ key other, arrivals key other → ¬ file.Holds suffix key
  cuts : ∀ outer, Path.Plain suffix outer → destination.Above outer → outer ∈ before →
    (region outer ↔ outer = source)

namespace Graft
variable {suffix : Key} {source destination : Path} {region : Key → Prop}
  {arrivals : Key → Content → Prop} {before after : Contents}
  (graft : Graft suffix source destination region arrivals before after)
  (whole : separator ∉ suffix)
include graft whole

/-- A file that holds what has arrived stands above the destination. -/
theorem above_of_holds (new : Path.Plain suffix destination) {file key : Key} {content : Content}
    (stored : file ∈ before) (arrived : arrivals key content)
    (held : Path.Holds suffix file key) : destination.Above file := by
  by_contra unrelated
  have differs : file ≠ destination := fun same => graft.absent (same ▸ stored)
  have outside : ¬ destination ++ [separator] <+: file := fun below =>
    graft.free (.inr ⟨file, stored, below⟩)
  cases graft.arrives key content arrived with
  | inl same =>
    subst same
    exact held.elim (marker_ne whole new file ·.symm) unrelated
  | inr arrives => exact held.apart whole differs unrelated outside arrives

/-- A file that has arrived holds nothing that was there before. -/
theorem not_held_before {file key : Key} {content : Content} (plain : Path.Plain suffix file)
    (arrived : arrivals file content) (stored : key ∈ before) : ¬ Path.Holds suffix file key := by
  intro held
  apply graft.free
  cases graft.arrives file content arrived with
  | inl same => exact Contents.hasDirectory_of_holds stored (same ▸ held)
  | inr arrives =>
    obtain marker | below := arrives
    · exact absurd marker.symm (marker_ne whole plain destination)
    · obtain ⟨rest, rfl⟩ := stem_prefix_iff.mp below
      exact .inr ⟨key, stored, held.of_child⟩

/-- The contents are a tree afterwards exactly if no file but the source stood above the
destination. -/
theorem isTree_iff (new : Path.Plain suffix destination) (tree : before.IsTree suffix) :
    after.IsTree suffix ↔ ∀ outer, Path.Plain suffix outer → destination.Above outer →
      outer ∈ before → outer = source := by
  constructor
  · intro grown outer plain above stored
    by_contra other
    have kept : outer ∈ after := by
      refine (Contents.mem_of_lookup_eq (graft.same ?_)).mpr stored
      exact (graft.cuts outer plain above stored).not.mpr other
    obtain ⟨key, content, arrived⟩ := graft.inhabited
    have present : key ∈ after :=
      Contents.mem_iff_lookup.mpr ⟨content, (graft.lookup_iff key content).mpr (.inr arrived)⟩
    have below : outer ++ [separator] <+: key := by
      obtain rfl | rfl | inside := graft.arrives key content arrived
      · exact above
      · exact List.IsPrefix.trans above (List.prefix_append _ _)
      · exact stem_prefix_trans above inside
    exact grown.apart outer plain kept (.inr ⟨key, present, below⟩)
  · intro lodged
    constructor
    · intro key present
      obtain ⟨_, stored⟩ | ⟨content, arrived⟩ := graft.mem present
      · exact tree.tidy key stored
      · obtain ⟨path, plain, kind⟩ := graft.fits key content arrived
        exact ⟨path, plain, kind.imp_right And.left⟩
    · exact (graft.orderly whole graft.fits tree.tidy.neat tree.hollow).2
    · intro file plain present there
      obtain ⟨key, stored, held⟩ := there.exists_held
      obtain ⟨kept, old⟩ | ⟨content, arrived⟩ := graft.mem present
      · obtain ⟨_, also⟩ | ⟨other, landed⟩ := graft.mem stored
        · exact tree.apart file plain old (Contents.hasDirectory_of_holds also held)
        · have above := graft.above_of_holds whole new old landed held
          exact kept ((graft.cuts file plain above old).mpr (lodged file plain above old))
      · obtain ⟨_, also⟩ | ⟨other, landed⟩ := graft.mem stored
        · exact graft.not_held_before whole plain arrived also held
        · exact graft.single file content plain arrived key other landed held

end Graft

section moves
variable {suffix : Key} {source destination : Path} {before after : Contents}
  (whole : separator ∉ suffix) (old : Path.Plain suffix source)
  (new : Path.Plain suffix destination)

include whole new in
/-- One object at a free place. -/
theorem FileSystem.ObjectMoved.graft (file : source ∈ before) (absent : destination ∉ before)
    (free : ¬ before.HasDirectory suffix destination)
    (moved : FileSystem.ObjectMoved source destination before after) :
    Graft suffix source destination (fun key => key = source ∨ key = destination)
      (fun key content => key = destination ∧ before[source]? = some content) before after where
  lands key content arrived := .inr arrived.1
  lookup_iff key content := by
    have apart : source ≠ destination := fun same => absent (same ▸ file)
    rw [moved.lookup]
    by_cases first : key = source
    · simp [first, apart]
    · by_cases second : key = destination
      · simp [second, apart.symm]
      · simp [first, second]
  fits key content arrived := ⟨destination, new, .inl arrived.1⟩
  absent := absent
  free := free
  inhabited := by
    obtain ⟨content, stored⟩ := Contents.mem_iff_lookup.mp file
    exact ⟨destination, content, rfl, stored⟩
  arrives key content arrived := .inl arrived.1
  single := by
    rintro _ _ plain ⟨rfl, _⟩ _ _ ⟨rfl, _⟩ (marker | below)
    · exact marker_ne whole plain _ marker.symm
    · exact not_stem_prefix_self below
  cuts outer _ above _ := by
    refine or_iff_left ?_
    rintro rfl
    exact not_stem_prefix_self above

include whole old new in
/-- A whole directory at a free place. -/
theorem Moved.graft (tree : before.IsTree suffix) (movable : Movable suffix source destination before)
    (moved : Moved suffix source destination before after) :
    Graft suffix source destination
      (fun key => source.Holds suffix key ∨ destination.Holds suffix key)
      (Arrives suffix source destination before) before after where
  toRewrites := moved
  fits _ _ arrives := arrives.fits new
  absent := movable.absent
  free := movable.free
  inhabited := ⟨_, _, .marker⟩
  arrives _ _ arrives := .inr arrives.holds
  single := by
    intro file content plain arrived key other landed held
    cases arrived with
    | marker => exact marker_ne whole plain destination rfl
    | directory _ _ => exact marker_ne whole plain _ rfl
    | @file rest _ named stored alone =>
      cases landed with
      | marker => exact not_stem_prefix_marker whole held.of_child
      | file _ also _ =>
        refine alone (Contents.hasDirectory_of_holds (Contents.mem_iff_lookup.mpr ⟨_, also⟩) ?_)
        exact Path.Holds.behind_iff.mpr (Path.Holds.behind_iff.mp held)
      | directory _ there =>
        obtain ⟨inner, present, within⟩ := there.exists_held
        rw [List.append_assoc, Path.Holds.behind_iff] at held
        refine alone (Contents.hasDirectory_of_holds present (.of_marker whole ?_ within))
        rw [List.append_assoc]
        exact Path.Holds.behind_iff.mpr held
  cuts outer plain above stored := by
    apply iff_of_false
    · rintro ((marker | below) | (marker | below))
      · exact marker_ne whole plain source marker.symm
      · exact movable.outside ((stem_prefix_trans below above).trans (List.prefix_append _ _))
      · exact marker_ne whole plain destination marker.symm
      · exact not_stem_prefix_self (stem_prefix_trans below above)
    · rintro rfl
      exact tree.apart outer old stored movable.there

end moves

namespace FileSystem
variable {fs : FileSystem} {memory : Memory} {source destination path : Path}

/-- A rename that answers yes leaves a tree exactly if no file but the source stands above the
destination, and one that ends otherwise leaves one. -/
def LeavesTree (fs : FileSystem) (source destination : Path) (before : Memory)
    (result : Except Failure Bool) (after : Memory) : Prop :=
  after.contents.IsTree fs.suffix ↔ (result = .ok true → ∀ outer, Path.Plain fs.suffix outer →
    destination.Above outer → outer ∈ before.contents → outer = source)

section rename
variable (proper : fs.Proper) (old : Path.Plain fs.suffix source)
  (new : Path.Plain fs.suffix destination) (tree : memory.contents.IsTree fs.suffix)
include proper

/-- At most the marker of a plain path is a healed one. -/
theorem MarkedAt.heals {before after : Contents} (plain : Path.Plain fs.suffix path)
    (marked : fs.MarkedAt path before after) : Heals fs.suffix path before after := by
  intro key
  obtain same | ⟨fresh, rfl, inner, present, below⟩ := marked key
  · exact .inl same
  · rw [proper.stem_plain plain] at below
    rw [proper.markerKey_plain plain] at fresh ⊢
    exact .inr ⟨fresh, path, plain, ⟨inner, present, below⟩, rfl, .marker⟩

include old new tree

theorem ensures_renameFile_tree :
    (fs.renameFile source destination).Ensures (Memory.may fun _ => False) memory
      (LeavesTree fs source destination memory) := by
  have whole := proper.suffix_whole
  apply Ensures.mono (returns_renameFile source destination)
  rintro _ later ⟨_, rfl, ⟨rfl, file, free, moved⟩ | ⟨rfl, marked⟩⟩
  · rw [FileAt, proper.relative_plain old] at file
    rw [FreeAt, FileAt, directoryAt_trailed proper new (.inl rfl), proper.relative_plain new] at free
    rw [proper.relative_plain old, proper.relative_plain new] at moved
    have graft := moved.graft whole new file free.1 free.2
    simpa [LeavesTree] using graft.isTree_iff whole new tree
  · refine iff_of_true ((marked.heals proper new).isTree whole tree) ?_
    rintro ⟨⟩

/-- A directory that cannot be moved is left where it is, in a tree. -/
theorem ensures_moveDirectory_unmovable
    (unmovable : ¬ Movable fs.suffix source destination memory.contents) (depth : Nat) :
    (fs.moveDirectory depth source destination).Ensures (Memory.may fun _ => False) memory
      fun result later => (∃ failure, result = .error failure) ∧
        later.contents.IsTree fs.suffix := by
  have whole := proper.suffix_whole
  cases depth with
  | zero => exact ⟨⟨_, rfl⟩, tree⟩
  | succ depth =>
    rw [moveDirectory_succ, proper.stem_plain old, proper.stem_plain new]
    split
    · exact ⟨⟨_, rfl⟩, tree⟩
    · rename_i outside
      refine Ensures.bind (ensures_requireChildren proper old tree.tidy.neat false) ?_ ?_
      · intro children listed gathered
        obtain ⟨marked, merged⟩ := gathered.listed children rfl
        have listed_tree := gathered.heals.isTree whole tree
        refine Ensures.bind (ensures_requireAbsent proper new) ?_ ?_
        · intro _ reached vacant
          obtain ⟨_, movable⟩ := vacant.movable whole gathered.heals marked outside
          exact absurd movable unmovable
        · exact fun failure reached vacant => ⟨⟨_, rfl⟩, vacant.heals.isTree whole listed_tree⟩
      · exact fun failure listed gathered => ⟨⟨_, rfl⟩, gathered.heals.isTree whole tree⟩

theorem ensures_renameDirectory_tree {pageSize : Nat} (read : fs.settings.pageSize = .ok pageSize)
    (room : memory.contents.reach ≤ min fs.limits.pages fs.limits.depth) :
    (fs.renameDirectory source destination).Ensures (Memory.may fun _ => False) memory
      (LeavesTree fs source destination memory) := by
  have whole := proper.suffix_whole
  have roomy : fs.Roomy fs.limits.depth source memory.contents :=
    .of_reach read (Nat.le_trans room (Nat.min_le_left _ _))
      (Nat.le_trans room (Nat.min_le_right _ _))
  by_cases movable : Movable fs.suffix source destination memory.contents
  · apply Ensures.mono ((ensures_moveDirectory proper fs.limits.depth old new tree.tidy.neat
      tree.hollow).succeeds _)
    rintro _ later (⟨rfl, relocated⟩ | ⟨_, _, relocated⟩ | ⟨_, _, relocated⟩)
    · have graft := (relocated.moved rfl).2.graft whole old new tree movable
      simpa [LeavesTree] using graft.isTree_iff whole new tree
    · exact absurd roomy (relocated.stopped _ rfl movable)
    · exact absurd roomy (relocated.stopped _ rfl movable)
  · apply Ensures.mono ((ensures_moveDirectory_unmovable proper old new tree movable
      fs.limits.depth).succeeds _)
    rintro _ later (⟨_, ⟨_, ⟨⟩⟩, _⟩ | ⟨rfl, _, _, stays⟩ | ⟨_, rfl, _, stays⟩)
    · exact iff_of_true stays nofun
    · exact iff_of_true stays nofun

/-- A rename in a tree leaves a tree, but for one case: that it answers yes and a file other than
its source stands above its destination. -/
theorem rename_leaves_tree_iff {pageSize : Nat} (read : fs.settings.pageSize = .ok pageSize)
    (room : memory.contents.reach ≤ min fs.limits.pages fs.limits.depth) :
    ∀ rename ∈ [fs.renameFile source destination, fs.renameDirectory source destination],
      let ended := rename.run Memory.serve memory
      ended.state.contents.IsTree fs.suffix ↔
        (ended.result = .ok true → ∀ outer, Path.Plain fs.suffix outer →
          destination.Above outer → outer ∈ memory.contents → outer = source) := by
  have leaves : ∀ rename ∈ [fs.renameFile source destination, fs.renameDirectory source destination],
      rename.Ensures (Memory.may fun _ => False) memory
        (LeavesTree fs source destination memory) := by
    simp only [List.mem_cons, List.not_mem_nil, or_false, forall_eq_or_imp, forall_eq]
    exact ⟨ensures_renameFile_tree proper old new tree,
      ensures_renameDirectory_tree proper old new tree read room⟩
  exact fun rename member => Memory.run_of_ensures (leaves rename member)

end rename

theorem rename_leaves_tree_free :
    let memory := Memory.holding [("a/d/x".toList, [120]), ("b_$folder$".toList, []),
      ("c".toList, [121])]
    let ended := (usual.renameDirectory "a".toList "b/e".toList).run Memory.serve memory
    memory.contents.IsTree usual.suffix ∧ ended.result = .ok true ∧
      ended.state.contents["b/e/d/x".toList]? = some [120] ∧
      ended.state.contents.IsTree usual.suffix := by
  intro memory ended
  have tree : memory.contents.IsTree usual.suffix := by decide +kernel
  have answered : ended.result = .ok true := by decide +kernel
  have clear : ∀ outer ∈ memory.contents.keys, ¬ outer ++ [separator] <+: "b/e".toList := by
    decide +kernel
  have leaves : ended.state.contents.IsTree usual.suffix ↔ _ :=
    rename_leaves_tree_iff usual_proper (by decide) (by decide) tree
      (Settings.pageSize_integer rfl) (by decide +kernel) _
      (List.mem_cons_of_mem _ List.mem_cons_self)
  refine ⟨tree, answered, by decide +kernel, leaves.mpr fun _ outer _ above present => ?_⟩
  exact absurd above (clear outer (Std.ExtTreeMap.mem_keys.mpr present))

/-- A file is put below another one, which is a file and a directory then. -/
theorem not_rename_leaves_tree : ¬ ∀ (fs : FileSystem) (source destination : Path)
    (memory : Memory), fs.Proper → Path.Plain fs.suffix source →
    Path.Plain fs.suffix destination → memory.contents.IsTree fs.suffix →
    ((fs.renameFile source destination).run Memory.serve memory).state.contents.IsTree
      fs.suffix := by
  intro leaves
  have left := leaves usual "a".toList "b/c".toList
    (.holding [("a".toList, [120]), ("b".toList, [121])]) usual_proper (by decide) (by decide)
    (by decide +kernel)
  revert left
  decide +kernel

end FileSystem
end KeyTree
