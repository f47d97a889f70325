import KeyTree.Proofs.Moved
import Mathlib.Data.List.Infix

/-!
Room for moving a directory. A move lists each directory when it comes to it, and then may
find markers that the looks before have added; but it never finds a key that was neither
there at the start nor the marker of a directory with keys below it. So limits that leave
room for all of these keys leave room for every step of the move.
-/
namespace KeyTree

open KeyTree.Path (separator)

namespace Contents
variable {suffix : Key} {path other : Path} {before after : Contents} {key : Key}

/-- The key is there, or a look at its directory adds it. -/
def Potential (suffix : Key) (contents : Contents) (key : Key) : Prop :=
  key ∈ contents ∨ ∃ path, Path.Plain suffix path ∧ contents.Under path ∧ key = path ++ suffix

/-- Whatever the path holds afterwards was there, or looks could have added it. -/
def Descends (suffix : Key) (path : Path) (before after : Contents) : Prop :=
  ∀ key ∈ after, path.Holds suffix key → before.Potential suffix key

namespace Descends

theorem of_heals {place : Path} (heals : Heals suffix place before after) :
    Descends suffix path before after := by
  intro key present _
  rcases heals key with same | ⟨_, healed, plain, under, marker, _⟩
  · exact .inl ((mem_of_lookup_eq same).mp present)
  · exact .inr ⟨healed, plain, under, marker⟩

theorem of_kept (kept : ∀ key ∈ after, path.Holds suffix key → key ∈ before) :
    Descends suffix path before after :=
  fun key present held => .inl (kept key present held)

variable (whole : separator ∉ suffix) (descends : Descends suffix path before after)
include whole descends

theorem under (within : path ++ [separator] <+: other ++ [separator])
    (under : after.Under other) : before.Under other := by
  obtain ⟨key, present, below⟩ := under
  rcases descends key present (.below (within.trans below)) with old | ⟨healed, _, deep, rfl⟩
  · exact ⟨key, old, below⟩
  · obtain ⟨inner, old, inside⟩ := deep
    exact ⟨inner, old, stem_prefix_trans ((stem_prefix_marker whole).mp below) inside⟩

theorem potential (below : path ++ [separator] <+: key) (potential : after.Potential suffix key) :
    before.Potential suffix key := by
  rcases potential with present | ⟨healed, plain, under, rfl⟩
  · exact descends key present (.below below)
  · refine .inr ⟨healed, plain, descends.under whole ?_ under, rfl⟩
    exact stem_prefix_stem.mpr (.inr ((stem_prefix_marker whole).mp below))

theorem hasDirectory (within : path ++ [separator] <+: other ++ [separator])
    (there : after.HasDirectory suffix other) : before.HasDirectory suffix other := by
  rcases there with marked | under
  · have held : path.Holds suffix (other ++ suffix) := by
      rcases stem_prefix_stem.mp within with rfl | below
      · exact .marker
      · exact .below ((stem_prefix_marker whole).mpr below)
    rcases descends _ marked held with old | ⟨healed, _, deep, same⟩
    · exact .inl old
    · exact .inr (List.append_cancel_right same ▸ deep)
  · exact .inr (descends.under whole within under)

theorem trans {final : Contents} (next : Descends suffix path after final) :
    Descends suffix path before final := by
  intro key present held
  rcases next key present held with old | ⟨healed, plain, deep, rfl⟩
  · exact descends key old held
  · refine .inr ⟨healed, plain, descends.under whole ?_ deep, rfl⟩
    rcases held with same | below
    · exact stem_prefix_stem.mpr (.inl (List.append_cancel_right same).symm)
    · exact stem_prefix_stem.mpr (.inr ((stem_prefix_marker whole).mp below))

end Descends

/-- A bound for what a move lists at once, and for how deep it goes. -/
def reach (contents : Contents) : Nat :=
  contents.keys.foldr (fun key bound => key.length + 2 + bound) 1

/-- The keys that are there, and all markers that could be added for them. -/
def candidates (suffix : Key) (contents : Contents) : List Key :=
  contents.keys.flatMap fun key => key :: key.inits.map (· ++ suffix)

theorem Potential.mem_candidates (potential : before.Potential suffix key) :
    key ∈ before.candidates suffix := by
  rw [candidates, List.mem_flatMap]
  rcases potential with present | ⟨healed, _, ⟨inner, present, below⟩, rfl⟩
  · exact ⟨key, Std.ExtTreeMap.mem_keys.mpr present, List.mem_cons_self⟩
  · have start : healed ∈ inner.inits :=
      (List.mem_inits _ _).mpr ((List.prefix_append healed [separator]).trans below)
    exact ⟨inner, Std.ExtTreeMap.mem_keys.mpr present,
      List.mem_cons_of_mem _ (List.mem_map.mpr ⟨healed, start, rfl⟩)⟩

theorem length_candidates_lt (suffix : Key) (contents : Contents) :
    (contents.candidates suffix).length < contents.reach := by
  rw [candidates, reach]
  induction contents.keys with
  | nil => exact Nat.zero_lt_one
  | cons key later ih =>
    rw [List.flatMap_cons, List.length_append, List.foldr_cons, List.length_cons, List.length_map,
      List.length_inits]
    omega

theorem length_lt_reach (present : key ∈ before) : key.length < before.reach := by
  rw [← Std.ExtTreeMap.mem_keys] at present
  rw [reach]
  generalize before.keys = keys at present ⊢
  induction keys with
  | nil => exact absurd present List.not_mem_nil
  | cons first later ih =>
    rw [List.foldr_cons]
    rcases List.mem_cons.mp present with rfl | member
    · omega
    · have bound := ih member
      omega

end Contents

namespace FileSystem
variable {fs : FileSystem} {depth : Nat} {path : Path} {before after : Contents}

/-- The page size can be read, and the limits leave room for moving the directory. -/
structure Roomy (fs : FileSystem) (depth : Nat) (path : Path) (contents : Contents) : Prop where
  readable : ∃ pageSize, fs.settings.pageSize = .ok pageSize
  pages : ∃ keys : List Key, keys.length < fs.limits.pages ∧
    ∀ key, path ++ [separator] <+: key → contents.Potential fs.suffix key → key ∈ keys
  some_depth : 0 < depth
  levels : ∀ rest, Path.Plain fs.suffix rest →
    contents.HasDirectory fs.suffix (path ++ separator :: rest) → rest.length < depth

theorem not_obstructed_of_covers {pageSize : Nat} {keys : List Key}
    (read : fs.settings.pageSize = .ok pageSize) (short : keys.length < fs.limits.pages)
    (covers : ∀ key ∈ before, path ++ [separator] <+: key → key ∈ keys) :
    ¬ fs.Obstructed (fun _ => False) before path := by
  rintro (⟨_, ⟨⟩⟩ | ⟨defect, unread⟩ | long)
  · rw [read] at unread
    cases unread
  · have bound := long keys covers
    omega

namespace Roomy

theorem not_obstructed (roomy : Roomy fs depth path before) :
    ¬ fs.Obstructed (fun _ => False) before path := by
  obtain ⟨pageSize, read⟩ := roomy.readable
  obtain ⟨keys, short, covers⟩ := roomy.pages
  exact not_obstructed_of_covers read short fun key present below => covers key below (.inl present)

theorem shrink (whole : separator ∉ fs.suffix) (roomy : Roomy fs depth path before)
    (descends : Contents.Descends fs.suffix path before after) : Roomy fs depth path after where
  readable := roomy.readable
  pages := by
    obtain ⟨keys, short, covers⟩ := roomy.pages
    exact ⟨keys, short, fun key below potential =>
      covers key below (descends.potential whole below potential)⟩
  some_depth := roomy.some_depth
  levels rest plain there :=
    roomy.levels rest plain
      (descends.hasDirectory whole (stem_prefix_stem.mpr (.inr stem_prefix_append)) there)

theorem child {name : Path} (roomy : Roomy fs (depth + 1) path before)
    (plain : Path.Plain fs.suffix name)
    (there : before.HasDirectory fs.suffix (path ++ separator :: name)) :
    Roomy fs depth (path ++ separator :: name) before where
  readable := roomy.readable
  pages := by
    obtain ⟨keys, short, covers⟩ := roomy.pages
    exact ⟨keys, short, fun key below => covers key (stem_prefix_trans stem_prefix_append below)⟩
  some_depth := by
    have short := roomy.levels name plain there
    have given := List.length_pos_iff.mpr plain.ne_nil
    omega
  levels rest below inner := by
    rw [List.append_assoc, List.cons_append] at inner
    have short := roomy.levels _ (Path.Plain.append_iff.mpr ⟨plain, below⟩) inner
    rw [List.length_append, List.length_cons] at short
    omega

/-- Limits that reach over the lengths of all keys leave room. -/
theorem of_reach {pageSize : Nat} (read : fs.settings.pageSize = .ok pageSize)
    (pages : before.reach ≤ fs.limits.pages) (deep : before.reach ≤ depth) :
    Roomy fs depth path before where
  readable := ⟨pageSize, read⟩
  pages := ⟨before.candidates fs.suffix,
    Nat.lt_of_lt_of_le (Contents.length_candidates_lt fs.suffix before) pages,
    fun _ _ potential => potential.mem_candidates⟩
  some_depth :=
    Nat.lt_of_lt_of_le (Nat.zero_lt_of_lt (Contents.length_candidates_lt fs.suffix before)) deep
  levels rest _ there := by
    obtain ⟨key, present, long⟩ : ∃ key ∈ before, rest.length ≤ key.length := by
      rcases there with marked | ⟨key, present, below⟩
      · exact ⟨_, marked, by simp only [List.length_append, List.length_cons]; omega⟩
      · have shorter := below.length_le
        simp only [List.length_append, List.length_cons] at shorter
        exact ⟨key, present, by omega⟩
    have bound := Contents.length_lt_reach present
    omega

end Roomy
end FileSystem
end KeyTree
