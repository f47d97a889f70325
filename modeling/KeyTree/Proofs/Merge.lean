import KeyTree.FileSystem.Children
import KeyTree.Store.Contents
import Mathlib.Data.List.Nodup

/-!
Merging what a listing shows. The merged children have each name once and never an empty
one; a name is among them if something shows it, and it is a directory if something shows
it as one. So neither the order nor the number of times in which entries are met matters.
-/
namespace KeyTree.Entry

/-- What an entry of a listing says about the child it belongs to. -/
def ofListed (suffix stem : Key) : Listed → Entry
  | .object key => ofObject suffix (key.drop stem.length)
  | .group start => ⟨Path.firstName (start.drop stem.length), true⟩

theorem hasDirectory_iff {name : Path} {children : List Entry} :
    hasDirectory name children = true ↔ ⟨name, true⟩ ∈ children :=
  decide_eq_true_iff

theorem map_name_record (entry : Entry) (children : List Entry) :
    (entry.record children).map name =
      if entry.name ∈ children.map name then children.map name
      else children.map name ++ [entry.name] := by
  induction children with
  | nil => simp [record]
  | cons known rest ih =>
    rw [record]
    by_cases same : known.name = entry.name
    · simp [same]
    · rw [if_neg same, List.map_cons, ih, List.map_cons]
      simp only [List.mem_cons, Ne.symm same, false_or]
      split <;> rfl

/-- A directory in a record was known, or is what was recorded. -/
theorem directory_of_mem_record {entry : Entry} {children : List Entry} {name : Path}
    (member : ⟨name, true⟩ ∈ entry.record children) :
    ⟨name, true⟩ ∈ children ∨ entry = ⟨name, true⟩ := by
  induction children with
  | nil => exact .inr (List.mem_singleton.mp member).symm
  | cons known rest ih =>
    rw [record] at member
    split at member
    · rename_i same
      rcases List.mem_cons.mp member with shown | later
      · obtain ⟨named, flag⟩ := Entry.mk.inj shown
        obtain ⟨label, isDirectory⟩ := known
        cases isDirectory with
        | true => exact .inl (named ▸ List.mem_cons_self)
        | false =>
          rw [Bool.false_or] at flag
          exact .inr (by rw [named, flag, same])
      · exact .inl (List.mem_cons_of_mem _ later)
    · rcases List.mem_cons.mp member with shown | later
      · exact .inl (shown ▸ List.mem_cons_self)
      · exact (ih later).imp_left (List.mem_cons_of_mem _)

theorem mem_record {entry other : Entry} {children : List Entry}
    (once : (children.map name).Nodup) :
    other ∈ entry.record children ↔ other ∈ children ∧ other.name ≠ entry.name ∨
      other = ⟨entry.name, entry.isDirectory || hasDirectory entry.name children⟩ := by
  induction children with
  | nil => simp [record, hasDirectory]
  | cons known rest ih =>
    obtain ⟨fresh, later⟩ := List.nodup_cons.mp once
    have absent : ∀ entry ∈ rest, entry.name ≠ known.name := fun entry member same =>
      fresh (same ▸ List.mem_map_of_mem member)
    rw [record]
    by_cases same : known.name = entry.name
    · have flag : hasDirectory entry.name (known :: rest) = known.isDirectory := by
        rw [Bool.eq_iff_iff, hasDirectory_iff, List.mem_cons, ← same]
        constructor
        · rintro (own | member)
          · exact (congrArg Entry.isDirectory own).symm
          · exact absurd rfl (absent ⟨known.name, true⟩ member)
        · intro directory
          exact .inl (by rw [← directory])
      rw [if_pos same, List.mem_cons, List.mem_cons, flag, ← same, Bool.or_comm]
      constructor
      · rintro (rfl | member)
        · exact .inr rfl
        · exact .inl ⟨.inr member, absent other member⟩
      · rintro (⟨rfl | member, differs⟩ | rfl)
        · exact absurd rfl differs
        · exact .inr member
        · exact .inl rfl
    · have flag : hasDirectory entry.name (known :: rest) = hasDirectory entry.name rest := by
        rw [Bool.eq_iff_iff, hasDirectory_iff, hasDirectory_iff, List.mem_cons]
        exact or_iff_right fun shown => same (by rw [← shown])
      rw [if_neg same, List.mem_cons, List.mem_cons, ih later, flag]
      constructor
      · rintro (rfl | ⟨member, differs⟩ | rfl)
        · exact .inl ⟨.inl rfl, same⟩
        · exact .inl ⟨.inr member, differs⟩
        · exact .inr rfl
      · rintro (⟨rfl | member, differs⟩ | rfl)
        · exact .inl rfl
        · exact .inr (.inl ⟨member, differs⟩)
        · exact .inr (.inr rfl)

end KeyTree.Entry

namespace KeyTree

/-- The children are the merge of the entries that are shown. -/
structure Merged (children : List Entry) (shown : Entry → Prop) : Prop where
  once : (children.map Entry.name).Nodup
  named : ∀ entry ∈ children, entry.name ≠ []
  listed : ∀ name, name ≠ [] → ((∃ flag, ⟨name, flag⟩ ∈ children) ↔ ∃ flag, shown ⟨name, flag⟩)
  directory : ∀ name, name ≠ [] → (⟨name, true⟩ ∈ children ↔ shown ⟨name, true⟩)

namespace Merged
variable {children : List Entry} {shown : Entry → Prop} {entry : Entry}

theorem nil : Merged [] fun _ => False :=
  ⟨List.nodup_nil, nofun, by simp, by simp⟩

theorem congr {other : Entry → Prop} (merged : Merged children shown)
    (same : ∀ entry, entry.name ≠ [] → (shown entry ↔ other entry)) : Merged children other where
  once := merged.once
  named := merged.named
  listed name given := by
    rw [merged.listed name given]
    exact exists_congr fun flag => same ⟨name, flag⟩ given
  directory name given := (merged.directory name given).trans (same ⟨name, true⟩ given)

theorem unique (merged : Merged children shown) {name : Path} {first second : Bool}
    (left : ⟨name, first⟩ ∈ children) (right : ⟨name, second⟩ ∈ children) : first = second :=
  congrArg Entry.isDirectory (List.inj_on_of_nodup_map merged.once left right rfl)

theorem file_iff (merged : Merged children shown) {name : Path} :
    ⟨name, false⟩ ∈ children ↔
      name ≠ [] ∧ shown ⟨name, false⟩ ∧ ¬ shown ⟨name, true⟩ := by
  constructor
  · intro member
    have given := merged.named _ member
    have single : ¬ shown ⟨name, true⟩ := fun directory =>
      Bool.false_ne_true (merged.unique member ((merged.directory name given).mpr directory))
    obtain ⟨flag, seen⟩ := (merged.listed name given).mp ⟨false, member⟩
    cases flag with
    | false => exact ⟨given, seen, single⟩
    | true => exact absurd seen single
  · rintro ⟨given, seen, single⟩
    obtain ⟨flag, member⟩ := (merged.listed name given).mpr ⟨false, seen⟩
    cases flag with
    | false => exact member
    | true => exact absurd ((merged.directory name given).mp member) single

theorem directory_iff (merged : Merged children shown) {name : Path} :
    ⟨name, true⟩ ∈ children ↔ name ≠ [] ∧ shown ⟨name, true⟩ := by
  constructor
  · intro member
    have given := merged.named _ member
    exact ⟨given, (merged.directory name given).mp member⟩
  · exact fun ⟨given, seen⟩ => (merged.directory name given).mpr seen

theorem shown_of_mem (merged : Merged children shown) (member : entry ∈ children) :
    entry.name ≠ [] ∧ shown entry := by
  obtain ⟨name, isDirectory⟩ := entry
  cases isDirectory with
  | false =>
    obtain ⟨given, seen, _⟩ := merged.file_iff.mp member
    exact ⟨given, seen⟩
  | true => exact merged.directory_iff.mp member

/-- What is shown alike is merged into the same entries, in one order or another. -/
theorem mem_iff {others : List Entry} (merged : Merged children shown) (also : Merged others shown) :
    entry ∈ children ↔ entry ∈ others := by
  obtain ⟨name, isDirectory⟩ := entry
  cases isDirectory with
  | true => rw [merged.directory_iff, also.directory_iff]
  | false => rw [merged.file_iff, also.file_iff]

theorem record (merged : Merged children shown) (given : entry.name ≠ []) :
    Merged (entry.record children) fun other => shown other ∨ other = entry where
  once := by
    rw [Entry.map_name_record]
    split
    · exact merged.once
    · rename_i fresh
      refine List.nodup_append.mpr ⟨merged.once, List.nodup_singleton _, ?_⟩
      intro name member other single same
      exact fresh (List.mem_singleton.mp single ▸ same ▸ member)
  named other member := by
    rcases (Entry.mem_record merged.once).mp member with ⟨known, _⟩ | rfl
    · exact merged.named other known
    · exact given
  listed name given := by
    simp only [Entry.mem_record merged.once]
    by_cases same : name = entry.name
    · subst same
      constructor
      · exact fun _ => ⟨_, .inr rfl⟩
      · exact fun _ => ⟨_, .inr rfl⟩
    · have differs : ∀ flag, (⟨name, flag⟩ : Entry) ≠ entry := fun flag eq => same (eq ▸ rfl)
      simp only [Entry.mk.injEq, same, false_and, or_false, ne_eq, not_false_eq_true, and_true]
      rw [merged.listed name given]
      exact exists_congr fun flag => (or_iff_left (differs flag)).symm
  directory name given := by
    rw [Entry.mem_record merged.once, merged.directory name given]
    by_cases same : name = entry.name
    · subst same
      have own : (⟨entry.name, true⟩ : Entry) = entry ↔ entry.isDirectory = true :=
        ⟨fun eq => (congrArg Entry.isDirectory eq).symm, fun flag => by rw [← flag]⟩
      rw [own, Entry.mk.injEq, eq_comm (a := true), Bool.or_eq_true, Entry.hasDirectory_iff,
        merged.directory _ given]
      constructor
      · rintro (⟨_, differs⟩ | ⟨_, flag | seen⟩)
        · exact absurd rfl differs
        · exact .inr flag
        · exact .inl seen
      · rintro (seen | flag)
        · exact .inr ⟨rfl, .inr seen⟩
        · exact .inr ⟨rfl, .inl flag⟩
    · have differs : (⟨name, true⟩ : Entry) ≠ entry := fun eq => same (eq ▸ rfl)
      simp only [Entry.mk.injEq, same, false_and, or_false, ne_eq, not_false_eq_true, and_true,
        differs]

/-- An entry without a name leaves the merge as it is. -/
theorem nameless (merged : Merged children shown) (bare : entry.name = []) :
    Merged children fun other => shown other ∨ other = entry :=
  merged.congr fun other given => (or_iff_left fun same => given (by rw [same, bare])).symm

/-- So does a directory that is already known. -/
theorem known (merged : Merged children shown) (member : ⟨entry.name, true⟩ ∈ children)
    (directory : entry.isDirectory = true) :
    Merged children fun other => shown other ∨ other = entry := by
  refine merged.congr fun other given => (or_iff_left_of_imp ?_).symm
  rintro rfl
  have seen := (merged.directory _ given).mp member
  rwa [← directory] at seen

end Merged
end KeyTree
