import KeyTree.Proofs.Relisting

/-!
Merging a listing that shifts. Each page is cut from the entries as they are when it is asked
for, at the offset where the page before it ended, and merging a page may put markers between
the entries. Every such marker belongs to a directory that is known by then, so all entries
before the offset stay known (`Surveyed`): the shift shows some entries again and skips none.
-/
namespace KeyTree

open KeyTree.Path (separator)
open Program (Ensures Returns)

namespace Entry

/-- A known directory stays one. -/
theorem mem_record_of_mem {entry : Entry} {children : List Entry} {name : Path}
    (known : ⟨name, true⟩ ∈ children) : ⟨name, true⟩ ∈ entry.record children := by
  induction children with
  | nil => cases known
  | cons first rest ih =>
    rw [record]
    split
    · rcases List.mem_cons.mp known with rfl | later
      · rw [Bool.true_or]
        exact List.mem_cons_self
      · exact List.mem_cons_of_mem _ later
    · rcases List.mem_cons.mp known with rfl | later
      · exact List.mem_cons_self
      · exact List.mem_cons_of_mem _ (ih later)

/-- A recorded directory is known. -/
theorem mem_record_self (name : Path) (children : List Entry) :
    ⟨name, true⟩ ∈ record ⟨name, true⟩ children := by
  induction children with
  | nil => exact List.mem_singleton.mpr rfl
  | cons first rest ih =>
    rw [record]
    split
    · rename_i same
      rw [same, Bool.or_true]
      exact List.mem_cons_self
    · exact List.mem_cons_of_mem _ ih

end Entry

namespace FileSystem
variable {fs : FileSystem} {stem : Key} {grouped : Bool} {before now : Contents}
  {children : List Entry}

namespace Underlined
variable {memory : Memory} (whole : separator ∉ fs.suffix)
  (underlined : Underlined fs stem grouped before children memory)
include whole underlined

/-- New markers stand below nothing that had no key below it. -/
theorem under_iff {path : Path} : memory.contents.Under path ↔ before.Under path := by
  constructor
  · rintro ⟨key, present, below⟩
    rcases underlined.bound key with same | ⟨_, inner, _, ⟨deep, stored, within⟩, rfl, _⟩
    · exact ⟨key, (Contents.mem_of_lookup_eq same).mp present, below⟩
    · exact ⟨deep, stored, stem_prefix_trans ((stem_prefix_marker whole).mp below) within⟩
  · rintro ⟨key, present, below⟩
    exact ⟨key, underlined.mem present, below⟩

theorem inferred_iff {flag : Bool} {key : Key} :
    memory.contents.Inferred fs.suffix stem flag key ↔ before.Inferred fs.suffix stem flag key := by
  simp only [Contents.Inferred, underlined.under_iff whole]

/-- A new key below the stem is the marker of a directory right below it. -/
theorem fresh {key : Key} (present : key ∈ memory.contents) (new : key ∉ before)
    (below : stem <+: key) : grouped = true ∧ ∃ name, separator ∉ name ∧
      Path.Plain fs.suffix name ∧ before.Under (stem ++ name) ∧ key = stem ++ name ++ fs.suffix := by
  rcases underlined.bound key with same | ⟨_, path, _, under, rfl, own | child⟩
  · exact absurd ((Contents.mem_of_lookup_eq same).mp present) new
  · exact absurd (own ▸ below) (not_stem_prefix_marker whole)
  · obtain ⟨isGrouped, name, first, plain, rfl⟩ := child
    exact ⟨isGrouped, name, first, plain, under, rfl⟩

theorem ofKey_fresh {key : Key} (present : key ∈ memory.contents) (new : key ∉ before)
    (below : stem <+: key) : Listed.ofKey stem grouped key = .object key := by
  obtain ⟨_, name, first, _, _, rfl⟩ := underlined.fresh whole present new below
  exact Contents.ofKey_marker stem grouped whole first

/-- New markers show nothing new. -/
theorem shown_iff (given : fs.suffix ≠ []) {entry : Entry} :
    memory.contents.Shown fs.suffix stem grouped entry ↔
      before.Shown fs.suffix stem grouped entry := by
  constructor
  · rintro ⟨key, present, below, rfl⟩
    by_cases old : key ∈ before
    · exact ⟨key, old, below, rfl⟩
    · rw [underlined.ofKey_fresh whole present old below]
      obtain ⟨rfl, name, first, _, under, rfl⟩ := underlined.fresh whole present old below
      rw [Entry.ofListed_marker given]
      exact Contents.shown_of_under first under
  · rintro ⟨key, present, shows⟩
    exact ⟨key, underlined.mem present, shows⟩

/-- What is underlined may be taken for the start. -/
theorem again : Underlined fs stem grouped memory.contents children memory where
  bound _ := .inl rfl
  own key inferred := underlined.own key ((underlined.inferred_iff whole).mp inferred)
  marked := underlined.marked

theorem trans {known : List Entry} {later : Memory}
    (next : Underlined fs stem grouped memory.contents known later) :
    Underlined fs stem grouped before known later where
  bound key := by
    rcases next.bound key with same | ⟨fresh, inferred⟩
    · rw [same]
      exact underlined.bound key
    · exact .inr ⟨fresh, (underlined.inferred_iff whole).mp inferred⟩
  own key inferred := next.mem (underlined.own key inferred)
  marked := next.marked

omit whole in
theorem neat (neat : before.Neat fs.suffix) : memory.contents.Neat fs.suffix := by
  intro key present given
  rcases underlined.bound key with same | ⟨_, path, plain, _, marker, _⟩
  · exact neat key ((Contents.mem_of_lookup_eq same).mp present) given
  · exact ⟨path, plain, .inr (.inl marker)⟩

omit whole in
/-- However far the walk is, it has no more entries than could ever be shown. -/
theorem length_entries_le {keys : List Key}
    (covers : ∀ key, stem <+: key → before.Potential fs.suffix key → key ∈ keys) :
    (memory.contents.entries stem grouped).length ≤ keys.length := by
  apply Contents.length_entries_le
  intro key present below
  apply covers key below
  rcases underlined.bound key with same | ⟨_, path, plain, under, marker, _⟩
  · exact .inl ((Contents.mem_of_lookup_eq same).mp present)
  · exact .inr ⟨path, plain, under, marker⟩

end Underlined

namespace Upholds
variable {fallible : Store.Request Memory.Cursor → Prop} {entries : List Listed}
  {inv other : List Entry → Memory → Prop}

/-- What is kept up one by one is kept up together. -/
theorem and (first : Upholds fs fallible stem entries inv)
    (second : Upholds fs fallible stem entries other) :
    Upholds fs fallible stem entries fun children memory =>
      inv children memory ∧ other children memory where
  object key member children memory both :=
    ⟨first.object key member children memory both.1, second.object key member children memory both.2⟩
  made start member children memory both :=
    ⟨first.made start member children memory both.1, second.made start member children memory both.2⟩
  unmade start member hit children memory both :=
    ⟨first.unmade start member hit children memory both.1,
      second.unmade start member hit children memory both.2⟩

end Upholds

variable (proper : fs.Proper) (at_stem : Path.Stem fs.suffix stem) (neat : before.Neat fs.suffix)
include proper at_stem neat

/-- While the entries are merged, every key that was put in marks a directory that is known. -/
theorem upholds_known :
    Upholds fs (fun _ => False) stem (before.entries stem grouped) fun children memory =>
      ∀ key ∈ memory.contents, key ∉ before →
        ∃ name, ⟨name, true⟩ ∈ children ∧ key = stem ++ name ++ fs.suffix where
  object key _ children memory known other present new := by
    obtain ⟨name, member, same⟩ := known other present new
    exact ⟨name, Entry.mem_record_of_mem member, same⟩
  made start listed children memory known other present new := by
    obtain ⟨name, first, plain, _, rfl⟩ := neat.listed_group proper.suffix_whole at_stem listed
    rw [Entry.ofListed_cut _ _ first]
    rw [proper.markerKey_stem (at_stem.append_plain plain), Memory.insert,
      Std.ExtTreeMap.mem_insert] at present
    rcases present with same | present
    · exact ⟨name, Entry.mem_record_self name children,
        (Std.LawfulEqCmp.compare_eq_iff_eq.mp same).symm⟩
    · obtain ⟨inner, member, same⟩ := known other present new
      exact ⟨inner, Entry.mem_record_of_mem member, same⟩
  unmade _ _ := False.elim

omit proper at_stem neat in
/-- How far a walk has come: the entries before the offset are among the children, and these
were shown by the contents that the walk began with. -/
structure Surveyed (fs : FileSystem) (stem : Key) (grouped : Bool) (before : Contents)
    (offset : Nat) (shown : Entry → Prop) (children : List Entry) (now : Contents) : Prop where
  underlined : Underlined fs stem grouped before children ⟨now, ∅⟩
  merged : Merged children shown
  sound : ∀ entry, shown entry → before.Shown fs.suffix stem grouped entry
  covers : ∀ listed ∈ (now.entries stem grouped).take offset, shown (.ofListed fs.suffix stem listed)

/-- Merging the page at the offset takes the walk behind that page. -/
theorem returns_mergePage_surveyed {offset pageSize : Nat} {shown : Entry → Prop}
    (surveyed : Surveyed fs stem grouped before offset shown children now) :
    (fs.mergePage stem children
        (Memory.page ((now.entries stem grouped).drop offset) pageSize)).Returns
      (Memory.may fun _ => False) ⟨now, ∅⟩ fun result later => ∃ seen,
        Surveyed fs stem grouped before (offset + pageSize) seen result later.contents ∧
        ((now.entries stem grouped).length ≤ offset + pageSize →
          ∀ entry, before.Shown fs.suffix stem grouped entry → seen entry) := by
  have whole := proper.suffix_whole
  have given := proper.suffix_ne_nil
  obtain ⟨underlined, merged, sound, covers⟩ := surveyed
  have still := underlined.neat neat
  have underlines : Upholds fs (fun _ => False) stem (now.entries stem grouped)
      (Underlined fs stem grouped now) := upholds_underlined proper at_stem still
  have upholds := underlines.and (upholds_known proper at_stem still)
  apply Returns.mono (returns_mergePage (upholds.mono (List.drop_subset offset _)) pageSize merged
    ⟨underlined.again whole, fun key present new => absurd present new⟩
    fun listed member => Contents.prefix_start_of_mem_entries (List.mem_of_mem_drop member))
  rintro result later ⟨⟨grown, known⟩, merged⟩
  replace grown : Underlined fs stem grouped now result ⟨later.contents, ∅⟩ :=
    ⟨grown.bound, grown.own, grown.marked⟩
  -- What is behind the page now was behind the page before it, or on the page.
  have behind : ∀ listed ∈ (now.entries stem grouped).take (offset + pageSize),
      shown (.ofListed fs.suffix stem listed) ∨
        fs.Shows stem (((now.entries stem grouped).drop offset).take pageSize)
          (.ofListed fs.suffix stem listed) := by
    intro listed member
    rw [List.take_add, List.mem_append] at member
    exact member.imp (covers listed) fun paged => ⟨listed, paged, rfl⟩
  refine ⟨_, ⟨underlined.trans whole grown, merged, ?_, ?_⟩, ?_⟩
  · rintro entry (old | ⟨listed, paged, rfl⟩)
    · exact sound entry old
    · have member := List.mem_of_mem_drop (List.mem_of_mem_take paged)
      obtain ⟨key, present, within, rfl⟩ := (Contents.mem_entries _).mp member
      exact (underlined.shown_iff whole given).mp ⟨key, present, within, rfl⟩
  · intro listed member
    rcases Contents.mem_take_entries (fun key => grown.mem) (fun key => grown.ofKey_fresh whole)
      member with old | ⟨key, present, new, within, rfl⟩
    · exact behind listed old
    · obtain ⟨name, marked, rfl⟩ := known key present new
      rw [Entry.ofListed_marker given]
      exact (merged.directory_iff.mp marked).2
  · intro last entry shows
    obtain ⟨key, present, within, rfl⟩ := (underlined.shown_iff whole given).mpr shows
    apply behind
    rw [List.take_of_length_le last]
    exact (Contents.mem_entries _).mpr ⟨key, present, within, rfl⟩

end FileSystem
end KeyTree
