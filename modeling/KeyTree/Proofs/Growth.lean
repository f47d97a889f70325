import KeyTree.Proofs.Children
import KeyTree.Proofs.Joining
import KeyTree.Proofs.Taming
import Mathlib.Data.Set.Finite.List

/-!
How long keys can become. Markers are as long as a path or the start of a key, and a suffix,
so the keys that most operations meet are short, and there are finitely many of them. What a
listing shows of short keys has short names.
-/
namespace KeyTree

open KeyTree.Path (separator)

/-- What stands above a key stands above it without a suffix at its end. -/
theorem stem_prefix_core {suffix key core path : Key} (whole : separator ∉ suffix)
    (shape : key = core ∨ key = core ++ suffix) (below : path ++ [separator] <+: key) :
    path ++ [separator] <+: core := by
  obtain rfl | rfl := shape
  · exact below
  · exact (stem_prefix_marker whole).mp below

/-- The key has at most so many characters, where a suffix at its end does not count. -/
def Short (suffix : Key) (bound : Nat) (key : Key) : Prop :=
  ∃ core : Key, core.length ≤ bound ∧ (key = core ∨ key = core ++ suffix)

namespace Short
variable {suffix key path : Key} {bound wider : Nat}

theorem plain (within : key.length ≤ bound) : Short suffix bound key :=
  ⟨key, within, .inl rfl⟩

theorem marked (within : key.length ≤ bound) : Short suffix bound (key ++ suffix) :=
  ⟨key, within, .inr rfl⟩

theorem mono (short : Short suffix bound key) (more : bound ≤ wider) : Short suffix wider key := by
  obtain ⟨core, within, shape⟩ := short
  exact ⟨core, within.trans more, shape⟩

/-- What stands above a short key is short, and no part of the suffix. -/
theorem stem_le (whole : separator ∉ suffix) (short : Short suffix bound key)
    (below : path ++ [separator] <+: key) : (path ++ [separator]).length ≤ bound := by
  obtain ⟨core, within, shape⟩ := short
  exact (stem_prefix_core whole shape below).length_le.trans within

/-- There are finitely many short keys. -/
theorem covered (suffix : Key) (bound : Nat) :
    ∃ keys : List Key, ∀ key, Short suffix bound key → key ∈ keys := by
  have : Finite Char := Finite.of_injective (fun c => c.val.toFin) fun c d same =>
    Char.ext (UInt32.toFin_inj.mp same)
  have cores : {core : Key | core.length ≤ bound}.Finite := List.finite_length_le Char bound
  have finite : {key | Short suffix bound key}.Finite := by
    apply (cores.union (cores.image (· ++ suffix))).subset
    rintro key ⟨core, within, rfl | rfl⟩
    · exact .inl within
    · exact .inr ⟨core, within, rfl⟩
  exact ⟨finite.toFinset.toList, fun key short =>
    Finset.mem_toList.mpr (finite.mem_toFinset.mpr short)⟩

end Short

namespace FileSystem
variable {fs : FileSystem} {allowed : Key → Prop} {stem key : Key} {bound : Nat} {path : Path}

theorem short_markerKey (within : path.length ≤ bound) : Short fs.suffix bound (fs.markerKey path) :=
  .marked ((Path.length_dropSeparator_le _).trans
    ((fs.root.relative_suffix path).length_le.trans within))

theorem short_relative (within : path.length ≤ bound) :
    Short fs.suffix bound (fs.root.relative path) :=
  .plain ((fs.root.relative_suffix path).length_le.trans within)

end FileSystem

/-- The start of a group is a name behind the stem, with a separator. -/
theorem Listed.Permitted.group_start {allowed : Key → Prop} {stem start : Key} {recursive : Bool}
    (permitted : (Listed.group start).Permitted allowed stem recursive) :
    ∃ name, separator ∉ name ∧ start = stem ++ name ++ [separator] ∧
      ∃ key, allowed key ∧ start <+: key := by
  obtain ⟨key, here, ⟨rest, rfl⟩, same⟩ := permitted
  simp only [Listed.ofKey, List.drop_left] at same
  split at same
  · rename_i grouped
    rw [Bool.and_eq_true, decide_eq_true_eq] at grouped
    obtain ⟨name, later, rfl, first⟩ := List.eq_append_cons_of_mem grouped.2
    obtain rfl := Listed.group.inj same
    rw [Path.firstName_cut first]
    exact ⟨name, first, rfl, _, here, later, by simp⟩
  · cases same

theorem Listed.Permitted.object_rest {allowed : Key → Prop} {stem key : Key}
    (permitted : (Listed.object key).Permitted allowed stem false) :
    ∃ rest, separator ∉ rest ∧ key = stem ++ rest ∧ allowed key := by
  obtain ⟨key, here, ⟨rest, rfl⟩, same⟩ := permitted
  simp only [Listed.ofKey, List.drop_left] at same
  split at same
  · cases same
  · rename_i single
    obtain rfl := Listed.object.inj same
    exact ⟨rest, by simpa using single, rfl, here⟩

/-- A suffix reaches over no separator. -/
theorem suffix_of_behind {suffix path rest : Key} (whole : separator ∉ suffix)
    (ends : suffix <:+ path ++ [separator] ++ rest) : suffix <:+ rest := by
  rw [List.append_assoc, List.singleton_append] at ends
  rcases List.suffix_or_suffix_of_suffix ends (List.suffix_append path (separator :: rest)) with
    within | longer
  · rcases List.suffix_cons_iff.mp within with rfl | inner
    · exact absurd List.mem_cons_self whole
    · exact inner
  · exact absurd (longer.subset List.mem_cons_self) whole

/-- A name below a stem whose keys are short is short with the stem. -/
theorem Listed.Permitted.name_short {suffix path : Key} {allowed : Key → Prop} {bound : Nat}
    (whole : separator ∉ suffix)
    (shorts : ∀ key, allowed key → path ++ [separator] <+: key → Short suffix bound key)
    {listed : Listed} (permitted : listed.Permitted allowed (path ++ [separator]) false)
    {entry : Entry} (shown : entry = Entry.ofListed suffix (path ++ [separator]) listed)
    (given : entry.name ≠ []) :
    separator ∉ entry.name ∧ (path ++ [separator] ++ entry.name).length ≤ bound := by
  generalize stem : path ++ [separator] = outer at *
  cases listed with
  | group start =>
    obtain ⟨name, first, rfl, key, here, below⟩ := permitted.group_start
    rw [List.append_assoc] at below
    have above := (List.prefix_append outer (name ++ [separator])).trans below
    have short : (outer ++ name ++ [separator]).length ≤ bound :=
      (shorts key here above).stem_le whole (by rwa [List.append_assoc])
    rw [Entry.ofListed_cut _ _ first] at shown
    rw [shown]
    rw [List.length_append] at short
    exact ⟨first, Nat.le_of_add_right_le short⟩
  | object key =>
    obtain ⟨rest, single, rfl, here⟩ := permitted.object_rest
    obtain ⟨core, within, shape⟩ := shorts _ here (List.prefix_append _ _)
    rw [Entry.ofListed, List.drop_left, Entry.ofObject] at shown
    split at shown
    · exact absurd (by rw [shown]) given
    split at shown
    · rename_i marker
      obtain ⟨name, rfl⟩ := marker
      rw [List.length_append, Nat.add_sub_cancel, List.take_left] at shown
      rw [shown]
      refine ⟨fun inner => single (List.mem_append_left _ inner), ?_⟩
      rw [← List.append_assoc] at shape
      obtain rfl | same := shape
      · rw [List.length_append] at within
        exact Nat.le_of_add_right_le within
      · rwa [List.append_cancel_right same]
    split at shown
    · rename_i last
      exact absurd (List.mem_of_getLast? last) single
    · rename_i plain _
      rw [shown]
      refine ⟨single, ?_⟩
      obtain rfl | same := shape
      · exact within
      · exact absurd (suffix_of_behind whole ⟨core, by rw [stem, same]⟩) plain

end KeyTree
