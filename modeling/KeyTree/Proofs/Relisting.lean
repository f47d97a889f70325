import KeyTree.Proofs.Catalogue
import Mathlib.Data.List.Sort

/-!
Listings of contents that grow. If the keys that were put in are listed as objects of their
own, the entries from before stay in their order, and some new ones stand between them. So an
entry among the first few is a new one, or was among as many before: what a reader has behind
it when it goes on at an offset has been shown to it or is new, and nothing was skipped.
-/
namespace KeyTree

open KeyTree.Path (separator)

namespace Listed

/-- The entry is a group, or shows a key of the contents. -/
def isOf (contents : Contents) : Listed → Bool
  | object key => key ∈ contents
  | group _ => true

/-- Leaving out objects does not change which entry of a group is the first. -/
theorem oncePerGroup_filter {keep : Listed → Bool} (groups : ∀ start, keep (.group start) = true)
    (seen : List Key) (entries : List Listed) :
    oncePerGroup seen (entries.filter keep) = (oncePerGroup seen entries).filter keep := by
  induction entries generalizing seen with
  | nil => rfl
  | cons first later ih =>
    cases first with
    | object key =>
      by_cases kept : keep (.object key) = true
      · rw [List.filter_cons_of_pos kept, oncePerGroup, oncePerGroup, List.filter_cons_of_pos kept, ih]
      · rw [List.filter_cons_of_neg kept, oncePerGroup, List.filter_cons_of_neg kept, ih]
    | group start =>
      rw [List.filter_cons_of_pos (groups start), oncePerGroup, oncePerGroup]
      split
      · exact ih seen
      · rw [List.filter_cons_of_pos (groups start), ih]

/-- What is kept stands no later than before. -/
theorem mem_take_filter {keep : Listed → Bool} {entries : List Listed} {entry : Listed}
    (kept : keep entry = true) {count : Nat} (member : entry ∈ entries.take count) :
    entry ∈ (entries.filter keep).take count := by
  induction entries generalizing count with
  | nil => simp at member
  | cons first later ih =>
    cases count with
    | zero => simp at member
    | succ count =>
      rw [List.take_succ_cons, List.mem_cons] at member
      by_cases stays : keep first = true
      · rw [List.filter_cons_of_pos stays, List.take_succ_cons]
        rcases member with rfl | inner
        · exact List.mem_cons_self
        · exact List.mem_cons_of_mem _ (ih inner)
      · rw [List.filter_cons_of_neg stays]
        rcases member with rfl | inner
        · exact absurd kept stays
        · exact List.take_subset_take_left _ (Nat.le_succ count) (ih inner)

end Listed

namespace Contents
variable {stem : Key} {grouped : Bool} {before after : Contents}

theorem keys_eq_filter (kept : ∀ key ∈ before, key ∈ after) :
    before.keys = after.keys.filter (· ∈ before) := by
  have members : ∀ key, key ∈ before.keys ↔ key ∈ after.keys.filter (· ∈ before) := by
    intro key
    rw [List.mem_filter, Std.ExtTreeMap.mem_keys, Std.ExtTreeMap.mem_keys, decide_eq_true_eq]
    exact ⟨fun present => ⟨kept key present, present⟩, And.right⟩
  have same := (List.perm_ext_iff_of_nodup Std.ExtTreeMap.nodup_keys
    (Std.ExtTreeMap.nodup_keys.filter _)).mpr members
  -- Both lists are in the order of the keys, so they are not only permutations.
  refine same.eq_of_pairwise (fun one other _ _ less more => ?_) Std.ExtTreeMap.ordered_keys
    (Std.ExtTreeMap.ordered_keys.filter _)
  have swapped : compare other one = (compare one other).swap := Std.OrientedCmp.eq_swap
  rw [swapped, less] at more
  cases more

variable (kept : ∀ key ∈ before, key ∈ after)
  (fresh : ∀ key ∈ after, key ∉ before → stem <+: key →
    Listed.ofKey stem grouped key = .object key)
include kept fresh

/-- The entries from before are those of the grown contents without the new keys. -/
theorem entries_eq_filter :
    before.entries stem grouped = (after.entries stem grouped).filter (Listed.isOf before) := by
  rw [entries, entries, keys_eq_filter kept, List.filter_comm,
    ← Listed.oncePerGroup_filter fun _ => rfl, List.filter_map]
  congr 2
  apply List.filter_congr
  intro key listed
  rw [List.mem_filter, Std.ExtTreeMap.mem_keys, decide_eq_true_eq] at listed
  obtain ⟨present, below⟩ := listed
  by_cases old : key ∈ before
  · simp only [Function.comp_apply, Listed.ofKey]
    split
    · simp [Listed.isOf, old]
    · rfl
  · simp [Listed.isOf, old, fresh key present old below]

/-- An entry among the first of the grown contents was among as many before, or is new. -/
theorem mem_take_entries {listed : Listed} {count : Nat}
    (member : listed ∈ (after.entries stem grouped).take count) :
    listed ∈ (before.entries stem grouped).take count ∨
      ∃ key ∈ after, key ∉ before ∧ stem <+: key ∧ listed = .object key := by
  by_cases old : listed.isOf before = true
  · rw [entries_eq_filter kept fresh]
    exact .inl (Listed.mem_take_filter old member)
  · obtain ⟨key, present, below, rfl⟩ := (mem_entries grouped).mp (List.mem_of_mem_take member)
    have new : key ∉ before := by
      intro stored
      apply old
      simp only [Listed.ofKey]
      split
      · rfl
      · simp [Listed.isOf, stored]
    exact .inr ⟨key, present, new, below, fresh key present new below⟩

end Contents
end KeyTree
