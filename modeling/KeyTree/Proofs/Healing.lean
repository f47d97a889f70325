import KeyTree.Proofs.Reference
import KeyTree.Proofs.Transparency

/-!
What questions leave of any keys. They put in nothing but markers of what has keys below it
(`Healed`), so whichever keys are there and whichever paths are asked about, what is a directory
stays one, nothing else becomes one, and a listing that is not recursive is told the same.
-/
namespace KeyTree

open KeyTree.Path (separator)
open Program (Ensures Returns)

/-- What ends behind a stem as a marker does so without it. -/
theorem suffix_of_stem {suffix stem name : Key} (whole : separator ∉ suffix)
    (at_name : stem = [] ∨ ∃ front, stem = front ++ [separator]) (ends : suffix <:+ stem ++ name) :
    suffix <:+ name := by
  obtain rfl | ⟨front, rfl⟩ := at_name
  · exact ends
  · exact suffix_of_behind whole ends

namespace Contents

theorem HasDirectory.exists_behind {suffix : Key} {contents : Contents} {path : Path}
    (there : contents.HasDirectory suffix path) :
    ∃ key ∈ contents, path <+: key := by
  obtain marked | ⟨key, present, below⟩ := there
  · exact ⟨_, marked, List.prefix_append _ _⟩
  · exact ⟨key, present, (List.prefix_append _ _).trans below⟩

/-- All keys are kept, and those that are new are markers of what had keys below it. -/
structure Healed (suffix : Key) (before after : Contents) : Prop where
  kept : ∀ key ∈ before, key ∈ after
  bound : ∀ key ∈ after, key ∈ before ∨ ∃ path, before.Under path ∧ key = path ++ suffix

namespace Healed
variable {suffix stem : Key} {before middle after : Contents} {path : Path} {key : Key}

theorem refl (suffix : Key) (contents : Contents) : Healed suffix contents contents :=
  ⟨fun _ => id, fun _ => .inl⟩

variable (healed : Healed suffix before after)
include healed

/-- No other key than a marker is new. -/
theorem mem_iff (unmarked : ¬ suffix <:+ key) : key ∈ after ↔ key ∈ before := by
  refine ⟨fun present => (healed.bound key present).resolve_right ?_, healed.kept key⟩
  rintro ⟨path, _, rfl⟩
  exact unmarked (List.suffix_append path suffix)

theorem mem_candidates (present : key ∈ after) : key ∈ before.candidates suffix := by
  rw [candidates, List.mem_flatMap]
  obtain old | ⟨path, ⟨inner, stored, below⟩, rfl⟩ := healed.bound key present
  · exact ⟨key, Std.ExtTreeMap.mem_keys.mpr old, List.mem_cons_self⟩
  · have start : path ∈ inner.inits :=
      (List.mem_inits _ _).mpr ((List.prefix_append path [separator]).trans below)
    exact ⟨inner, Std.ExtTreeMap.mem_keys.mpr stored,
      List.mem_cons_of_mem _ (List.mem_map.mpr ⟨path, start, rfl⟩)⟩

/-- However often the keys are healed, there are not many of them. -/
theorem size_lt_reach : after.size < before.reach := by
  have covered : after.keys ⊆ before.candidates suffix := fun key present =>
    healed.mem_candidates (Std.ExtTreeMap.mem_keys.mp present)
  have short := List.Nodup.length_le_of_subset Std.ExtTreeMap.nodup_keys covered
  rw [Std.ExtTreeMap.length_keys] at short
  exact short.trans_lt (length_candidates_lt suffix before)

section whole
variable (whole : separator ∉ suffix)
include whole

theorem under_iff : after.Under path ↔ before.Under path := by
  constructor
  · rintro ⟨key, present, below⟩
    obtain old | ⟨inner, ⟨deep, stored, within⟩, rfl⟩ := healed.bound key present
    · exact ⟨key, old, below⟩
    · exact ⟨deep, stored, stem_prefix_trans ((stem_prefix_marker whole).mp below) within⟩
  · rintro ⟨key, present, below⟩
    exact ⟨key, healed.kept key present, below⟩

theorem hasDirectory_iff : after.HasDirectory suffix path ↔ before.HasDirectory suffix path := by
  rw [HasDirectory, HasDirectory, healed.under_iff whole]
  constructor
  · rintro (marked | under)
    · obtain old | ⟨other, under, same⟩ := healed.bound _ marked
      · exact .inl old
      · exact .inr (List.append_cancel_right same ▸ under)
    · exact .inr under
  · exact Or.imp_left (healed.kept _)

theorem trans (next : Healed suffix after middle) : Healed suffix before middle := by
  refine ⟨fun key present => next.kept key (healed.kept key present), fun key present => ?_⟩
  obtain old | ⟨path, under, rfl⟩ := next.bound key present
  · exact healed.bound key old
  · exact .inr ⟨path, (healed.under_iff whole).mp under, rfl⟩

/-- No marker of a directory spells the root, if no key does. -/
theorem rootless {root : Root} (free : ∀ key ∈ before, ¬ root.start <+: key) :
    ∀ key ∈ after, ¬ root.start <+: key := by
  obtain ⟨front, start⟩ := List.getLast?_eq_some_iff.mp root.getLast?_start
  intro key present within
  have under : after.Under front := ⟨key, present, start ▸ within⟩
  obtain ⟨inner, stored, below⟩ := (healed.under_iff whole).mp under
  exact free inner stored (start ▸ below)

/-- A listing that is not recursive is told the same. -/
theorem tells_iff (at_name : stem = [] ∨ ∃ front, stem = front ++ [separator]) {entry : Entry} :
    after.Tells suffix stem false entry ↔ before.Tells suffix stem false entry := by
  obtain ⟨name, isDirectory⟩ := entry
  cases isDirectory with
  | true => rw [tells_directory_iff whole, tells_directory_iff whole, healed.hasDirectory_iff whole]
  | false =>
    rw [tells_file_iff, tells_file_iff]
    apply and_congr_left
    rintro ⟨_, unmarked, _⟩
    exact healed.mem_iff fun ends => unmarked (suffix_of_stem whole at_name ends)

end whole
end Healed
end Contents

namespace FileSystem

/-- No key of a tree spells the root. -/
theorem Proper.rootless {fs : FileSystem} {contents : Contents} (proper : fs.Proper)
    (neat : contents.Neat fs.suffix) : ∀ key ∈ contents, ¬ fs.root.start <+: key := by
  intro key present within
  obtain ⟨path, plain, kind⟩ := neat key present fun bare =>
    fs.root.start_ne_nil (List.prefix_nil.mp (bare ▸ within))
  have outside : ¬ fs.root.start <+: path := fun inner =>
    plain.named.no_double (proper.double_start.trans inner.isInfix)
  obtain ⟨front, start⟩ := List.getLast?_eq_some_iff.mp fs.root.getLast?_start
  obtain rfl | rfl | rfl := kind
  · exact outside within
  · rw [start, stem_prefix_marker proper.suffix_whole, ← start] at within
    exact outside within
  · have single := Path.no_double_withSeparator plain.named.no_double
    rw [plain.withSeparator_eq] at single
    exact single (proper.double_start.trans within.isInfix)

variable {fs : FileSystem} {memory : Memory} {base contents before after : Contents} {path : Path}
  {recursive : Bool}

/-- Below the root a directory is found at the key of the path without a separator at its end. -/
theorem directoryAt_iff : fs.DirectoryAt contents path ↔ fs.root.isRoot path = true ∨
    contents.HasDirectory fs.suffix (Path.dropSeparator (fs.root.relative path)) := by
  cases root : fs.root.isRoot path with
  | true => simp [DirectoryAt, root]
  | false =>
    rw [DirectoryAt, root, Root.stem_eq (Root.isRoot_eq_false.mp root),
      Path.withSeparator_eq_drop]
    rfl

theorem directoryAt_healed (whole : separator ∉ fs.suffix)
    (healed : before.Healed fs.suffix after) :
    fs.DirectoryAt after path ↔ fs.DirectoryAt before path := by
  rw [directoryAt_iff, directoryAt_iff, healed.hasDirectory_iff whole]

/-- The marker of a path is there, or is that of something with keys below it. -/
theorem DirectoryAt.marker (there : fs.DirectoryAt contents path)
    (below : fs.root.isRoot path = false) : fs.markerKey path ∈ contents ∨
      ∃ inner, contents.Under inner ∧ fs.markerKey path = inner ++ fs.suffix := by
  rw [directoryAt_iff, below] at there
  exact (there.resolve_left Bool.false_ne_true).imp_right fun under => ⟨_, under, rfl⟩

theorem Sought.healed {found : Bool} {later : Memory} (sought : Sought fs path memory found later) :
    memory.contents.Healed fs.suffix later.contents := by
  refine ⟨fun key => sought.mem, fun key present => ?_⟩
  obtain same | ⟨_, below, rfl, inner, stored, behind⟩ := sought.bound key
  · exact .inl ((Contents.mem_of_lookup_eq same).mp present)
  · exact DirectoryAt.marker (.inr (.inr ⟨inner, stored, behind⟩)) below

theorem Leaves.healed (there : fs.DirectoryAt before path)
    (leaves : ∀ key, key ∈ after ↔ fs.Leaves path recursive before key) :
    before.Healed fs.suffix after := by
  refine ⟨fun key present => (leaves key).mpr (.inl present), fun key present => ?_⟩
  obtain old | ⟨below, rfl⟩ | ⟨_, name, groups, rfl⟩ := (leaves key).mp present
  · exact .inl old
  · exact there.marker below
  · exact .inr ⟨_, groups.under, rfl⟩

section asked
variable {pageSize : Nat} (whole : separator ∉ fs.suffix) (given : fs.suffix ≠ [])
  (rootless : ∀ key ∈ base, ¬ fs.root.start <+: key)
  (read : fs.settings.pageSize = .ok pageSize) (room : base.reach ≤ fs.limits.pages)
  (healed : base.Healed fs.suffix memory.contents)

include whole healed in
theorem returns_isDirectory_healed (path : Path) :
    (fs.isDirectory path).Returns (Memory.may fun _ => False) memory fun found later =>
      (found = true ↔ fs.DirectoryAt base path) ∧ base.Healed fs.suffix later.contents := by
  apply Returns.mono (returns_isDirectory_at onlyDeletes_false path)
  intro found later sought
  exact ⟨sought.there.trans (directoryAt_healed whole healed), healed.trans whole sought.healed⟩

include whole given rootless read room healed

/-- A listing of healed keys is answered as one of the keys from before. -/
theorem returns_children_healed (path : Path) :
    (fs.children path false).Returns (Memory.may fun _ => False) memory fun answer later =>
      base.Healed fs.suffix later.contents ∧
        ((answer = none ∧ ¬ fs.DirectoryAt base path) ∨
          ∃ children, answer = some children ∧ fs.DirectoryAt base path ∧
            Merged children (base.Tells fs.suffix (fs.root.stem path) false)) := by
  have same : fs.DirectoryAt memory.contents path ↔ fs.DirectoryAt base path :=
    directoryAt_healed whole healed
  apply Returns.mono (returns_children_told whole given (healed.rootless whole rootless) read
    (healed.size_lt_reach.trans_le room) path false)
  rintro answer later (⟨rfl, missing, rfl⟩ | ⟨children, rfl, there, merged, leaves⟩)
  · exact ⟨healed, .inl ⟨rfl, same.not.mp missing⟩⟩
  · refine ⟨healed.trans whole (Leaves.healed there leaves), .inr ⟨children, rfl, same.mp there, ?_⟩⟩
    exact merged.congr fun entry _ => healed.tells_iff whole (fs.root.stem_shape path)

/-- Whatever is asked about whichever path, it heals at most. -/
theorem ensures_ask_healed {query : Operation} (asks : query.asks = true) :
    (fs.perform query).Ensures (Memory.may fun _ => False) memory fun _ later =>
      base.Healed fs.suffix later.contents := by
  cases query with
  | isDirectory path =>
    apply Returns.bind (returns_isDirectory_healed whole healed path)
    exact fun _ _ asked => asked.2
  | isFile path =>
    apply Returns.bind (returns_isFile_exact fs memory path)
    rintro _ later ⟨_, rfl⟩
    exact healed
  | parentExists path =>
    have asked : (fs.parentExists path).Returns (Memory.may fun _ => False) memory
        fun _ later => base.Healed fs.suffix later.contents := by
      rw [parentExists]
      cases fs.root.parent? path with
      | none => exact ⟨_, rfl, healed⟩
      | some parent =>
        exact Returns.mono (returns_isDirectory_healed whole healed parent) fun _ _ => And.right
    exact Returns.bind asked fun _ _ => id
  | children path recursive =>
    obtain rfl : recursive = false := by simpa [Operation.asks] using asks
    apply Returns.bind (returns_children_healed whole given rootless read room healed path)
    exact fun _ _ asked => asked.1
  | size path =>
    apply Ensures.bind (ensures_size path)
    · rintro size later ⟨rfl, _⟩
      exact healed
    · rintro failure later ⟨rfl, _⟩
      exact healed
  | _ => cases asks

theorem reached_healed {queries : List Operation}
    (asks : ∀ query ∈ queries, query.asks = true) :
    base.Healed fs.suffix (fs.reached queries memory).contents := by
  induction queries generalizing memory with
  | nil => exact healed
  | cons query later ih =>
    obtain ⟨asked, others⟩ := List.forall_mem_cons.mp asks
    rw [reached_cons]
    exact ih (Memory.run_of_ensures
      (ensures_ask_healed whole given rootless read room healed asked)) others

end asked
end FileSystem
end KeyTree
