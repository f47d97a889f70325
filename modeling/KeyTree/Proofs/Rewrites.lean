import KeyTree.Proofs.Tree

/-!
Changes of contents that touch only one region. Such a change replaces everything in the
region by what arrives there, and keeps everything else; one such change after another is
such a change again, unless the second region takes away what arrived in the first.
-/
namespace KeyTree

open KeyTree.Path (separator)

/-- Everything in the region is replaced by the arrivals. -/
structure Rewrites (region : Key → Prop) (arrivals : Key → Content → Prop)
    (before after : Contents) : Prop where
  lands : ∀ key content, arrivals key content → region key
  lookup_iff : ∀ key content, after[key]? = some content ↔
    ¬ region key ∧ before[key]? = some content ∨ arrivals key content

namespace Rewrites
variable {region other : Key → Prop} {arrivals later : Key → Content → Prop}
  {before middle after : Contents}

theorem refl (contents : Contents) :
    Rewrites (fun _ => False) (fun _ _ => False) contents contents :=
  ⟨fun _ _ => id, fun _ _ => by simp⟩

theorem congr (rewrites : Rewrites region arrivals before after)
    (regions : ∀ key, region key ↔ other key)
    (contents : ∀ key content, arrivals key content ↔ later key content) :
    Rewrites other later before after where
  lands key content arrived :=
    (regions key).mp (rewrites.lands key content ((contents key content).mpr arrived))
  lookup_iff key content := by rw [rewrites.lookup_iff, regions, contents]

theorem insert (contents : Contents) (key : Key) (content : Content) :
    Rewrites (· = key) (fun other given => other = key ∧ given = content) contents
      (contents.insert key content) where
  lands _ _ := And.left
  lookup_iff other given := by
    rw [Contents.lookup_insert]
    split
    · rename_i same
      simp [same, eq_comm]
    · rename_i apart
      simp [Ne.symm apart]

theorem erase (contents : Contents) (key : Key) :
    Rewrites (· = key) (fun _ _ => False) contents (contents.erase key) where
  lands _ _ := False.elim
  lookup_iff other given := by
    rw [Contents.lookup_erase]
    split
    · rename_i same
      simp [same]
    · rename_i apart
      simp [Ne.symm apart]

theorem andThen (first : Rewrites region arrivals before middle)
    (second : Rewrites other later middle after)
    (spares : ∀ key content, arrivals key content → ¬ other key) :
    Rewrites (fun key => region key ∨ other key)
      (fun key content => arrivals key content ∨ later key content) before after where
  lands key content := Or.imp (first.lands key content) (second.lands key content)
  lookup_iff key content := by
    rw [second.lookup_iff, first.lookup_iff]
    constructor
    · rintro (⟨free, ⟨outside, stored⟩ | arrived⟩ | arrived)
      · exact .inl ⟨fun inside => inside.elim outside free, stored⟩
      · exact .inr (.inl arrived)
      · exact .inr (.inr arrived)
    · rintro (⟨outside, stored⟩ | arrived | arrived)
      · exact .inl ⟨fun inside => outside (.inr inside),
          .inl ⟨fun inside => outside (.inl inside), stored⟩⟩
      · exact .inl ⟨spares key content arrived, .inr arrived⟩
      · exact .inr arrived

variable (rewrites : Rewrites region arrivals before after)
include rewrites

/-- What is replaced and what arrives leave only one outcome. -/
theorem unique {final : Contents} (also : Rewrites region arrivals before final) :
    after = final := by
  ext key content
  rw [rewrites.lookup_iff, also.lookup_iff]

theorem same {key : Key} (outside : ¬ region key) : after[key]? = before[key]? := by
  ext content
  rw [rewrites.lookup_iff]
  constructor
  · rintro (⟨_, stored⟩ | arrived)
    · exact stored
    · exact absurd (rewrites.lands key content arrived) outside
  · exact fun stored => .inl ⟨outside, stored⟩

/-- What is there afterwards has arrived, or was there before. -/
theorem mem {key : Key} (present : key ∈ after) :
    ¬ region key ∧ key ∈ before ∨ ∃ content, arrivals key content := by
  obtain ⟨content, stored⟩ := Contents.mem_iff_lookup.mp present
  rcases (rewrites.lookup_iff key content).mp stored with ⟨outside, old⟩ | arrived
  · exact .inl ⟨outside, Contents.mem_iff_lookup.mpr ⟨content, old⟩⟩
  · exact .inr ⟨content, arrived⟩

end Rewrites

namespace Path.Holds
variable {suffix : Key} {path other : Path} {key : Key}

/-- Two paths of which neither is the other or below it hold nothing in common. -/
theorem apart (whole : separator ∉ suffix) (differs : path ≠ other)
    (above : ¬ path ++ [separator] <+: other) (below : ¬ other ++ [separator] <+: path)
    (held : path.Holds suffix key) : ¬ other.Holds suffix key := by
  rintro (marker | inside)
  · rcases held with same | within
    · exact differs (List.append_cancel_right (same.symm.trans marker))
    · rw [marker, stem_prefix_marker whole] at within
      exact above within
  · rcases held with rfl | within
    · exact below ((stem_prefix_marker whole).mp inside)
    · rcases List.prefix_or_prefix_of_prefix within inside with outer | outer
      · rcases stem_prefix_stem.mp outer with same | deeper
        · exact differs same
        · exact above deeper
      · rcases stem_prefix_stem.mp outer with same | deeper
        · exact differs same.symm
        · exact below deeper

/-- A path does not hold the marker of one above it. -/
theorem not_marker_above (whole : separator ∉ suffix) (differs : other ≠ path)
    (above : other ++ [separator] <+: path ++ [separator]) :
    ¬ path.Holds suffix (other ++ suffix) := by
  rintro (same | below)
  · exact differs (List.append_cancel_right same)
  · exact not_stem_prefix_self (above.trans ((stem_prefix_marker whole).mp below))

theorem marker : path.Holds suffix (path ++ suffix) := .inl rfl

theorem below (inside : path ++ [separator] <+: key) : path.Holds suffix key := .inr inside

/-- What a child holds stands below the path. -/
theorem of_child {name : Path} (held : (path ++ separator :: name).Holds suffix key) :
    path ++ [separator] <+: key := by
  rcases held with rfl | inside
  · exact stem_prefix_append.trans (List.prefix_append _ _)
  · exact stem_prefix_trans stem_prefix_append inside

end Path.Holds

namespace Contents
variable {suffix : Key} {path : Path} {before after : Contents}

theorem Under.congr (same : ∀ key, path ++ [separator] <+: key → after[key]? = before[key]?) :
    after.Under path ↔ before.Under path := by
  constructor
  · rintro ⟨key, present, below⟩
    exact ⟨key, (mem_of_lookup_eq (same key below)).mp present, below⟩
  · rintro ⟨key, present, below⟩
    exact ⟨key, (mem_of_lookup_eq (same key below)).mpr present, below⟩

/-- Whether a path is a directory depends only on what it holds. -/
theorem HasDirectory.congr (same : ∀ key, path.Holds suffix key → after[key]? = before[key]?) :
    after.HasDirectory suffix path ↔ before.HasDirectory suffix path :=
  or_congr (mem_of_lookup_eq (same _ .marker)) (Under.congr fun key below => same key (.below below))

theorem hasDirectory_of_holds {key : Key} (present : key ∈ before)
    (held : path.Holds suffix key) : before.HasDirectory suffix path := by
  rcases held with rfl | below
  · exact .inl present
  · exact .inr ⟨key, present, below⟩

theorem HasDirectory.exists_held (there : before.HasDirectory suffix path) :
    ∃ key ∈ before, path.Holds suffix key := by
  obtain marked | ⟨key, stored, below⟩ := there
  · exact ⟨_, marked, .marker⟩
  · exact ⟨key, stored, .below below⟩

end Contents
end KeyTree
