import KeyTree.Proofs.Tree

/-!
Which entries a listing has. Every key with the stem is listed under its entry, and
nothing else is; an entry that many keys share is listed once, so a listing is no longer
than the keys that it shows.
-/
namespace KeyTree

open KeyTree.Path (separator)

namespace Listed

theorem mem_oncePerGroup {entry : Listed} (seen : List Key) (entries : List Listed) :
    entry ∈ oncePerGroup seen entries ↔ entry ∈ entries ∧ ∀ start ∈ seen, entry ≠ .group start := by
  induction entries generalizing seen with
  | nil => simp [oncePerGroup]
  | cons first later ih =>
    cases first with
    | object key =>
      simp only [oncePerGroup, List.mem_cons, ih]
      constructor
      · rintro (rfl | ⟨listed, unseen⟩)
        · exact ⟨.inl rfl, by simp⟩
        · exact ⟨.inr listed, unseen⟩
      · rintro ⟨rfl | listed, unseen⟩
        · exact .inl rfl
        · exact .inr ⟨listed, unseen⟩
    | group start =>
      simp only [oncePerGroup]
      split
      · rename_i known
        rw [ih, List.mem_cons]
        constructor
        · exact fun ⟨listed, unseen⟩ => ⟨.inr listed, unseen⟩
        · rintro ⟨rfl | listed, unseen⟩
          · exact absurd rfl (unseen start known)
          · exact ⟨listed, unseen⟩
      · rename_i fresh
        rw [List.mem_cons, ih, List.mem_cons]
        constructor
        · rintro (rfl | ⟨listed, unseen⟩)
          · exact ⟨.inl rfl, fun other known same => fresh (by cases same; exact known)⟩
          · exact ⟨.inr listed, fun other known => unseen other (List.mem_cons_of_mem _ known)⟩
        · rintro ⟨rfl | listed, unseen⟩
          · exact .inl rfl
          · by_cases same : entry = .group start
            · exact .inl same
            · refine .inr ⟨listed, fun other known => ?_⟩
              rcases List.mem_cons.mp known with rfl | known
              · exact same
              · exact unseen other known

theorem length_oncePerGroup_le (seen : List Key) (entries : List Listed) :
    (oncePerGroup seen entries).length ≤ entries.length := by
  induction entries generalizing seen with
  | nil => exact Nat.le_refl _
  | cons first later ih =>
    cases first with
    | object key => exact Nat.succ_le_succ (ih seen)
    | group start =>
      simp only [oncePerGroup]
      split
      · exact Nat.le_trans (ih seen) (Nat.le_succ _)
      · exact Nat.succ_le_succ (ih _)

/-- The key or the common start that the entry shows. -/
def start : Listed → Key
  | object key | group key => key

theorem prefix_start_ofKey {stem key : Key} (grouped : Bool) (listed : stem <+: key) :
    stem <+: (ofKey stem grouped key).start := by
  simp only [ofKey]
  split
  · rw [start, List.append_assoc]
    exact List.prefix_append _ _
  · exact listed

end Listed

namespace Contents
variable {contents : Contents} {stem : Key}

theorem mem_entries {entry : Listed} (grouped : Bool) :
    entry ∈ contents.entries stem grouped ↔
      ∃ key ∈ contents, stem <+: key ∧ entry = Listed.ofKey stem grouped key := by
  rw [entries, Listed.mem_oncePerGroup]
  simp only [List.mem_map, List.mem_filter, Std.ExtTreeMap.mem_keys, decide_eq_true_eq]
  constructor
  · rintro ⟨⟨key, ⟨present, listed⟩, rfl⟩, _⟩
    exact ⟨key, present, listed, rfl⟩
  · rintro ⟨key, present, listed, rfl⟩
    exact ⟨⟨key, ⟨present, listed⟩, rfl⟩, by simp⟩

theorem prefix_start_of_mem_entries {listed : Listed} {grouped : Bool}
    (member : listed ∈ contents.entries stem grouped) : stem <+: listed.start := by
  obtain ⟨key, _, within, rfl⟩ := (mem_entries grouped).mp member
  exact Listed.prefix_start_ofKey grouped within

/-- A listing is no longer than any list of the keys that it shows. -/
theorem length_entries_le (grouped : Bool) {keys : List Key}
    (covered : ∀ key ∈ contents, stem <+: key → key ∈ keys) :
    (contents.entries stem grouped).length ≤ keys.length := by
  have short := Listed.length_oncePerGroup_le []
    ((contents.keys.filter (stem <+: ·)).map (Listed.ofKey stem grouped))
  rw [List.length_map] at short
  refine Nat.le_trans short (List.Nodup.length_le_of_subset
    (List.Pairwise.filter _ Std.ExtTreeMap.nodup_keys) ?_)
  intro key listed
  rw [List.mem_filter, Std.ExtTreeMap.mem_keys, decide_eq_true_eq] at listed
  exact covered key listed.1 listed.2

/-- An ungrouped listing starts with a key unless no key has the stem. -/
theorem objects_firstPage_eq_nil :
    (Memory.firstPage (contents.entries stem false) 1).objects = [] ↔
      ∀ key ∈ contents, ¬ stem <+: key := by
  have listed : ∀ entry ∈ contents.entries stem false, ∃ key ∈ contents, stem <+: key ∧
      entry = .object key := by
    intro entry member
    obtain ⟨key, present, below, rfl⟩ := (mem_entries false).mp member
    exact ⟨key, present, below, rfl⟩
  constructor
  · intro empty key present below
    cases shown : contents.entries stem false with
    | nil =>
      have member := (mem_entries false).mpr ⟨key, present, below, rfl⟩
      rw [shown] at member
      exact absurd member List.not_mem_nil
    | cons first later =>
      obtain ⟨other, _, _, rfl⟩ := listed first (by simp [shown])
      rw [shown] at empty
      exact absurd empty (by simp [Memory.firstPage, Memory.page, Listed.objects])
  · intro absent
    have empty : contents.entries stem false = [] := by
      apply List.eq_nil_iff_forall_not_mem.mpr
      intro entry member
      obtain ⟨key, present, below, _⟩ := listed entry member
      exact absent key present below
    rw [empty]
    rfl

end Contents
end KeyTree
