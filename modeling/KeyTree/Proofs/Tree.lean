import KeyTree.Proofs.Plain
import KeyTree.Store.Memory

/-!
The tree that flat contents spell. A plain path is a file if it is a key, and a directory
if its marker is a key or some key stands below it. Contents are tidy if every key is a
plain path, a marker or a placeholder. Looking at a tree heals it: markers appear for
directories that had none, and nothing else changes (`Heals`).
-/
namespace KeyTree

open KeyTree.Path (separator)

/-- A memory that holds these objects. -/
def Memory.holding (objects : List (Key × Content)) : Memory :=
  ⟨.ofList objects compare, ∅⟩

namespace Contents

theorem lookup_insert (contents : Contents) (key other : Key) (content : Content) :
    (contents.insert key content)[other]? = if key = other then some content else contents[other]? := by
  rw [Std.ExtTreeMap.getElem?_insert]
  simp only [Std.LawfulEqCmp.compare_eq_iff_eq]

theorem lookup_erase (contents : Contents) (key other : Key) :
    (contents.erase key)[other]? = if key = other then none else contents[other]? := by
  rw [Std.ExtTreeMap.getElem?_erase]
  simp only [Std.LawfulEqCmp.compare_eq_iff_eq]

theorem mem_iff_lookup {contents : Contents} {key : Key} :
    key ∈ contents ↔ ∃ content, contents[key]? = some content := by
  rw [Std.ExtTreeMap.mem_iff_isSome_getElem?, Option.isSome_iff_exists]

theorem not_mem_iff_lookup {contents : Contents} {key : Key} :
    key ∉ contents ↔ contents[key]? = none := by
  rw [mem_iff_lookup, not_exists, Option.eq_none_iff_forall_ne_some]

theorem mem_of_lookup_eq {first second : Contents} {key : Key}
    (same : first[key]? = second[key]?) : key ∈ first ↔ key ∈ second := by
  rw [mem_iff_lookup, mem_iff_lookup, same]

/-- Some key stands below the path. -/
def Under (contents : Contents) (path : Path) : Prop :=
  ∃ key ∈ contents, path ++ [separator] <+: key

variable (suffix : Key)

def HasDirectory (contents : Contents) (path : Path) : Prop :=
  path ++ suffix ∈ contents ∨ contents.Under path

/-- The name of a path has a marker or a placeholder. -/
def Obscured (contents : Contents) (path : Path) : Prop :=
  path ++ suffix ∈ contents ∨ path ++ [separator] ∈ contents

/-- Every key is a plain path, or the marker or the placeholder of one. -/
def Tidy (contents : Contents) : Prop :=
  ∀ key ∈ contents, ∃ path, Path.Plain suffix path ∧
    (key = path ∨ key = path ++ suffix ∨ key = path ++ [separator])

/-- Contents that are tidy but for an object under the empty key, which belongs to no path
below the root. -/
def Neat (contents : Contents) : Prop :=
  ∀ key ∈ contents, key ≠ [] → ∃ path, Path.Plain suffix path ∧
    (key = path ∨ key = path ++ suffix ∨ key = path ++ [separator])

/-- Markers and placeholders hold nothing. -/
def Hollow (contents : Contents) : Prop :=
  ∀ path, Path.Plain suffix path → ∀ key, key = path ++ suffix ∨ key = path ++ [separator] →
    ∀ content, contents[key]? = some content → content = []

/-- Tidy contents in which no path is both a file and a directory. -/
structure IsTree (contents : Contents) : Prop where
  tidy : contents.Tidy suffix
  hollow : contents.Hollow suffix
  apart : ∀ path, Path.Plain suffix path → path ∈ contents → ¬ contents.HasDirectory suffix path

variable {suffix}

/-! Whether given contents are a tree can be computed. -/

section decidable
variable (contents : Contents)

instance (path : Path) : Decidable (contents.Under path) :=
  decidable_of_iff (∃ key ∈ contents.keys, path ++ [separator] <+: key)
    (by simp only [Under, Std.ExtTreeMap.mem_keys])

instance (path : Path) : Decidable (contents.HasDirectory suffix path) :=
  inferInstanceAs (Decidable (_ ∨ _))

/-- The paths that a key can belong to: itself, and what stands before a suffix. -/
def owners (suffix : Key) (key : Key) : List Path :=
  [key, key.take (key.length - suffix.length), key.dropLast]

theorem mem_owners {path : Path} {key : Key}
    (owned : key = path ∨ key = path ++ suffix ∨ key = path ++ [separator]) :
    path ∈ owners suffix key := by
  rcases owned with rfl | rfl | rfl <;> simp [owners]

instance : Decidable (contents.Tidy suffix) :=
  decidable_of_iff (∀ key ∈ contents.keys, ∃ path ∈ owners suffix key, Path.Plain suffix path ∧
      (key = path ∨ key = path ++ suffix ∨ key = path ++ [separator])) <| by
    simp only [Tidy, Std.ExtTreeMap.mem_keys]
    constructor
    · intro tidy key present
      obtain ⟨path, _, owned⟩ := tidy key present
      exact ⟨path, owned⟩
    · intro tidy key present
      obtain ⟨path, owned⟩ := tidy key present
      exact ⟨path, mem_owners owned.2, owned⟩

instance : Decidable (contents.Hollow suffix) :=
  decidable_of_iff (∀ key ∈ contents.keys, ∀ path ∈ owners suffix key, Path.Plain suffix path →
      key = path ++ suffix ∨ key = path ++ [separator] → contents[key]? = some []) <| by
    simp only [Hollow, Std.ExtTreeMap.mem_keys]
    constructor
    · intro hollow path plain key kind content stored
      have present := mem_iff_lookup.mpr ⟨content, stored⟩
      have bare := hollow key present path (mem_owners (.inr kind)) plain kind
      rw [stored, Option.some.injEq] at bare
      exact bare
    · intro hollow key present path _ plain kind
      obtain ⟨content, stored⟩ := mem_iff_lookup.mp present
      rw [stored, hollow path plain key kind content stored]

instance : Decidable (contents.IsTree suffix) :=
  decidable_of_iff (contents.Tidy suffix ∧ contents.Hollow suffix ∧
      ∀ path ∈ contents.keys, Path.Plain suffix path → ¬ contents.HasDirectory suffix path) <| by
    simp only [Std.ExtTreeMap.mem_keys]
    constructor
    · rintro ⟨tidy, hollow, apart⟩
      exact ⟨tidy, hollow, fun path plain present => apart path present plain⟩
    · rintro ⟨tidy, hollow, apart⟩
      exact ⟨tidy, hollow, fun path present plain => apart path plain present⟩

end decidable

theorem Tidy.neat {contents : Contents} (tidy : contents.Tidy suffix) : contents.Neat suffix :=
  fun key present _ => tidy key present

/-- A neat key below a path is its placeholder, or comes from a plain path below it. -/
theorem Neat.below {contents : Contents} (neat : contents.Neat suffix) (whole : separator ∉ suffix)
    {path : Path} {key : Key} (present : key ∈ contents) (below : path ++ [separator] <+: key) :
    key = path ++ [separator] ∨ ∃ rest, Path.Plain suffix rest ∧
      (key = path ++ separator :: rest ∨ key = path ++ separator :: rest ++ suffix ∨
        key = path ++ separator :: rest ++ [separator]) := by
  obtain ⟨whole_path, plain, kind⟩ := neat key present (by rintro rfl; simp at below)
  have inner : path ++ [separator] <+: whole_path → ∃ rest, Path.Plain suffix rest ∧
      whole_path = path ++ separator :: rest := by
    intro within
    obtain ⟨rest, rfl⟩ := stem_prefix_iff.mp within
    exact ⟨rest, (Path.Plain.append_iff.mp plain).2, rfl⟩
  rcases kind with rfl | rfl | rfl
  · obtain ⟨rest, below_plain, rfl⟩ := inner below
    exact .inr ⟨rest, below_plain, .inl rfl⟩
  · obtain ⟨rest, below_plain, rfl⟩ := inner ((stem_prefix_marker whole).mp below)
    exact .inr ⟨rest, below_plain, .inr (.inl rfl)⟩
  · rcases stem_prefix_stem.mp below with rfl | within
    · exact .inl rfl
    · obtain ⟨rest, below_plain, rfl⟩ := inner within
      exact .inr ⟨rest, below_plain, .inr (.inr rfl)⟩

/-- Seen from a path, a neat key below it is its placeholder, or has to do with one name. -/
theorem Neat.child {contents : Contents} (neat : contents.Neat suffix)
    (whole : separator ∉ suffix) {path : Path} {key : Key} (present : key ∈ contents)
    (below : path ++ [separator] <+: key) :
    key = path ++ [separator] ∨ ∃ name, separator ∉ name ∧ Path.Plain suffix name ∧
      (key = path ++ separator :: name ∨ key = path ++ separator :: name ++ suffix ∨
        path ++ separator :: name ++ [separator] <+: key) := by
  rcases neat.below whole present below with rfl | ⟨rest, plain, kind⟩
  · exact .inl rfl
  · obtain ⟨name, first, named, rfl | ⟨deep, _, rfl⟩⟩ := plain.cut
    · refine .inr ⟨rest, first, named, kind.imp_right (Or.imp_right ?_)⟩
      rintro rfl
      exact List.prefix_refl _
    · have inside : path ++ separator :: name ++ [separator] <+:
          path ++ separator :: (name ++ separator :: deep) := ⟨deep, by simp⟩
      refine .inr ⟨name, first, named, .inr (.inr ?_)⟩
      rcases kind with rfl | rfl | rfl
      · exact inside
      · exact inside.trans (List.prefix_append _ _)
      · exact inside.trans (List.prefix_append _ _)

/-- Seen from a stem, a neat key is the stem, or has to do with one name. -/
theorem Neat.named {contents : Contents} (neat : contents.Neat suffix)
    (whole : separator ∉ suffix) {stem key : Key} (at_stem : Path.Stem suffix stem)
    (present : key ∈ contents) (below : stem <+: key) :
    key = stem ∨ ∃ name, separator ∉ name ∧ Path.Plain suffix name ∧
      (key = stem ++ name ∨ key = stem ++ name ++ suffix ∨ stem ++ name ++ [separator] <+: key) := by
  rcases at_stem with rfl | ⟨path, _, rfl⟩
  · by_cases given : key = []
    · exact .inl given
    · obtain ⟨path, plain, kind⟩ := neat key present given
      obtain ⟨name, first, named, rfl | ⟨rest, _, rfl⟩⟩ := plain.cut
      · refine .inr ⟨path, first, named, kind.imp_right (Or.imp_right ?_)⟩
        rintro rfl
        exact List.prefix_refl _
      · have inside : name ++ [separator] <+: name ++ separator :: rest := stem_prefix_append
        refine .inr ⟨name, first, named, .inr (.inr ?_)⟩
        rcases kind with rfl | rfl | rfl
        · exact inside
        · exact inside.trans (List.prefix_append _ _)
        · exact inside.trans (List.prefix_append _ _)
  · simpa only [List.append_assoc, List.nil_append, List.cons_append] using
      neat.child whole present below

end Contents

/-- The key is the marker of the path or stands below it. -/
def Path.Holds (suffix : Key) (path : Path) (key : Key) : Prop :=
  key = path ++ suffix ∨ path ++ [separator] <+: key

/-- Empty markers were put in for directories that have keys below them, all of them held
by one place. -/
def Heals (suffix : Key) (place : Path) (before after : Contents) : Prop :=
  ∀ key, after[key]? = before[key]? ∨ after[key]? = some [] ∧
    ∃ path, Path.Plain suffix path ∧ before.Under path ∧ key = path ++ suffix ∧
      place.Holds suffix key

namespace Heals
variable {suffix : Key} {place path : Path} {before after final : Contents}

theorem refl (suffix : Key) (place : Path) (contents : Contents) :
    Heals suffix place contents contents :=
  fun _ => .inl rfl

theorem insert (plain : Path.Plain suffix path) (under : before.Under path)
    (held : place.Holds suffix (path ++ suffix)) :
    Heals suffix place before (before.insert (path ++ suffix) []) := by
  intro key
  rw [Contents.lookup_insert]
  split
  · rename_i same
    exact .inr ⟨rfl, path, plain, under, same.symm, same ▸ held⟩
  · exact .inl rfl

variable (heals : Heals suffix place before after)
include heals

theorem mem {key : Key} (present : key ∈ before) : key ∈ after := by
  rcases heals key with same | ⟨fresh, _⟩
  · exact (Contents.mem_of_lookup_eq same).mpr present
  · exact Contents.mem_iff_lookup.mpr ⟨[], fresh⟩

theorem outside {key : Key} (free : ¬ place.Holds suffix key) : after[key]? = before[key]? := by
  rcases heals key with same | ⟨_, _, _, _, _, held⟩
  · exact same
  · exact absurd held free

theorem under_iff (whole : separator ∉ suffix) : after.Under path ↔ before.Under path := by
  constructor
  · rintro ⟨key, present, below⟩
    rcases heals key with same | ⟨_, inner, _, ⟨deep, stored, within⟩, rfl, _⟩
    · exact ⟨key, (Contents.mem_of_lookup_eq same).mp present, below⟩
    · exact ⟨deep, stored, stem_prefix_trans ((stem_prefix_marker whole).mp below) within⟩
  · rintro ⟨key, present, below⟩
    exact ⟨key, heals.mem present, below⟩

theorem hasDirectory_iff (whole : separator ∉ suffix) :
    after.HasDirectory suffix path ↔ before.HasDirectory suffix path := by
  unfold Contents.HasDirectory
  rw [heals.under_iff whole]
  constructor
  · rintro (marked | under)
    · rcases heals (path ++ suffix) with same | ⟨_, other, _, under, same, _⟩
      · exact .inl ((Contents.mem_of_lookup_eq same).mp marked)
      · exact .inr (List.append_cancel_right same ▸ under)
    · exact .inr under
  · rintro (marked | under)
    · exact .inl (heals.mem marked)
    · exact .inr under

theorem file (whole : separator ∉ suffix) (plain : Path.Plain suffix path) :
    after[path]? = before[path]? := by
  rcases heals path with same | ⟨_, other, _, _, same, _⟩
  · exact same
  · exact absurd same.symm (marker_ne whole plain other)

theorem trans (whole : separator ∉ suffix) (next : Heals suffix place after final) :
    Heals suffix place before final := by
  intro key
  rcases next key with same | ⟨fresh, path, plain, under, rest⟩
  · rw [same]
    exact heals key
  · exact .inr ⟨fresh, path, plain, (heals.under_iff whole).mp under, rest⟩

theorem tidy (tidy : before.Tidy suffix) : after.Tidy suffix := by
  intro key present
  rcases heals key with same | ⟨_, path, plain, _, same, _⟩
  · exact tidy key ((Contents.mem_of_lookup_eq same).mp present)
  · exact ⟨path, plain, .inr (.inl same)⟩

theorem neat (neat : before.Neat suffix) : after.Neat suffix := by
  intro key present given
  rcases heals key with same | ⟨_, path, plain, _, same, _⟩
  · exact neat key ((Contents.mem_of_lookup_eq same).mp present) given
  · exact ⟨path, plain, .inr (.inl same)⟩

theorem hollow (hollow : before.Hollow suffix) : after.Hollow suffix := by
  intro path plain key kind content stored
  rcases heals key with same | ⟨fresh, _⟩
  · exact hollow path plain key kind content (same ▸ stored)
  · rw [fresh, Option.some.injEq] at stored
    exact stored.symm

/-- A key that was there keeps its bytes. -/
theorem kept (hollow : before.Hollow suffix) {key : Key} (present : key ∈ before) :
    after[key]? = before[key]? := by
  rcases heals key with same | ⟨fresh, path, plain, _, marker, _⟩
  · exact same
  · obtain ⟨content, stored⟩ := Contents.mem_iff_lookup.mp present
    rw [fresh, stored, hollow path plain key (.inl marker) content stored]

end Heals
end KeyTree
