import KeyTree.Proofs.Answers
import KeyTree.Proofs.Listing
import KeyTree.Proofs.Merge

/-!
Walking a listing. Whatever the page size, the walk merges every entry once and ends with
all of them, unless a request may fail or there are more pages than the limits allow. On
the way it touches the memory only to create markers of groups, and keeps up whatever each
entry keeps up.
-/
namespace KeyTree

open Program (Ensures Returns)

variable {fs : FileSystem} {fallible : Store.Request Memory.Cursor → Prop} {stem : Key}
  {children : List Entry} {shown : Entry → Prop} {memory : Memory}
  {inv : List Entry → Memory → Prop} {entries : List Listed}

namespace Listed

theorem mem_objects {key : Key} {entries : List Listed} :
    key ∈ objects entries ↔ .object key ∈ entries := by
  rw [objects, List.mem_filterMap]
  constructor
  · rintro ⟨entry, member, same⟩
    cases entry with
    | object other =>
      cases same
      exact member
    | group other => cases same
  · exact fun member => ⟨_, member, rfl⟩

theorem mem_groups {start : Key} {entries : List Listed} :
    start ∈ groups entries ↔ .group start ∈ entries := by
  rw [groups, List.mem_filterMap]
  constructor
  · rintro ⟨entry, member, same⟩
    cases entry with
    | object other => cases same
    | group other =>
      cases same
      exact member
  · exact fun member => ⟨_, member, rfl⟩

end Listed

theorem Path.childName_eq {child parent : Key} (below : parent <+: child) :
    Path.childName child parent = .ok (child.drop parent.length) :=
  if_pos below

namespace FileSystem

/-- What merging the entries keeps up, of the children known so far and of the memory. -/
structure Upholds (fs : FileSystem) (fallible : Store.Request Memory.Cursor → Prop) (stem : Key)
    (entries : List Listed) (inv : List Entry → Memory → Prop) : Prop where
  object : ∀ key, .object key ∈ entries → ∀ children memory, inv children memory →
    inv ((Entry.ofListed fs.suffix stem (.object key)).record children) memory
  made : ∀ start, .group start ∈ entries → ∀ children memory, inv children memory →
    inv ((Entry.ofListed fs.suffix stem (.group start)).record children)
      (memory.insert (fs.markerKey start) [])
  unmade : ∀ start, .group start ∈ entries → fallible (.createEmpty (fs.markerKey start)) →
    ∀ children memory, inv children memory →
      inv ((Entry.ofListed fs.suffix stem (.group start)).record children) memory

namespace Upholds

/-- What new markers keep up needs no children. -/
theorem of_memory {inv : Memory → Prop} (keep : ∀ start, .group start ∈ entries →
      ∀ memory, inv memory → inv (memory.insert (fs.markerKey start) [])) :
    Upholds fs fallible stem entries fun _ => inv where
  object _ _ _ _ := id
  made start member _ memory := keep start member memory
  unmade _ _ _ _ _ := id

theorem mono {fewer : List Listed} (upholds : Upholds fs fallible stem entries inv)
    (within : fewer ⊆ entries) : Upholds fs fallible stem fewer inv where
  object key member := upholds.object key (within member)
  made start member := upholds.made start (within member)
  unmade start member := upholds.unmade start (within member)

end Upholds

section objects
variable (inv : List Entry → Prop) (object : ∀ key, .object key ∈ entries →
  ∀ children, inv children → inv ((Entry.ofListed fs.suffix stem (.object key)).record children))
include object

theorem mergeObject_merged (merged : Merged children shown) (holds : inv children) {key : Key}
    (member : .object key ∈ entries) (below : stem <+: key) :
    ∃ result, fs.mergeObject stem children key = .ok result ∧ inv result ∧
      Merged result fun entry => shown entry ∨ entry = .ofListed fs.suffix stem (.object key) := by
  rw [mergeObject, Path.childName_eq below]
  refine ⟨_, rfl, ?_⟩
  split
  · rename_i bare
    exact ⟨holds, merged.nameless bare⟩
  · rename_i given
    exact ⟨object key member children holds, merged.record given⟩

theorem mergeObjects_merged (keys : List Key) (merged : Merged children shown)
    (holds : inv children) (members : ∀ key ∈ keys, .object key ∈ entries)
    (below : ∀ key ∈ keys, stem <+: key) :
    ∃ result, keys.foldlM (fs.mergeObject stem) children = .ok result ∧ inv result ∧
      Merged result fun entry => shown entry ∨
        ∃ key ∈ keys, entry = .ofListed fs.suffix stem (.object key) := by
  induction keys generalizing children shown with
  | nil => exact ⟨children, rfl, holds, merged.congr (by simp)⟩
  | cons key later ih =>
    obtain ⟨next, made, kept, grown⟩ := mergeObject_merged inv object merged holds
      (members key List.mem_cons_self) (below key List.mem_cons_self)
    obtain ⟨result, rest, holds, final⟩ := ih grown kept
      (fun key member => members key (List.mem_cons_of_mem _ member))
      fun key member => below key (List.mem_cons_of_mem _ member)
    refine ⟨result, ?_, holds, final.congr (by simp [or_assoc])⟩
    rw [List.foldlM_cons, made]
    exact rest

end objects

theorem returns_markGroup (group : Key) :
    (fs.markGroup group).Returns (Memory.may fallible) memory fun _ later =>
      later = memory.insert (fs.markerKey group) [] ∨
        later = memory ∧ fallible (.createEmpty (fs.markerKey group)) := by
  refine Ensures.notify (Returns.bind (Memory.returns_createEmpty fallible memory _) ?_)
  rintro made later (⟨rfl, rfl⟩ | ⟨rfl, rfl, hit⟩)
  · exact ⟨(), rfl, .inl rfl⟩
  · exact ⟨(), rfl, .inr ⟨rfl, hit⟩⟩

section groups
variable {Cursor σ : Type} {may : Behaviour (Store.interface Cursor) σ} {state : σ}
  {inv : List Entry → σ → Prop}

/-- Marking a group whose directory is not known yet, and recording it, keeps this up. -/
def KeepsGroups (fs : FileSystem) (may : Behaviour (Store.interface Cursor) σ) (stem : Key)
    (entries : List Listed) (inv : List Entry → σ → Prop) : Prop :=
  ∀ start, .group start ∈ entries → ∀ children state, inv children state →
    (Entry.ofListed fs.suffix stem (.group start)).name ≠ [] →
    Entry.ofListed fs.suffix stem (.group start) ∉ children →
    (fs.markGroup start).Returns may state fun _ later =>
      inv ((Entry.ofListed fs.suffix stem (.group start)).record children) later

theorem Upholds.groups {inv : List Entry → Memory → Prop}
    (upholds : Upholds fs fallible stem entries inv) :
    KeepsGroups fs (Memory.may fallible) stem entries inv := by
  intro start member children memory holds _ _
  apply Returns.mono (returns_markGroup start)
  rintro _ later (rfl | ⟨rfl, hit⟩)
  · exact upholds.made start member children memory holds
  · exact upholds.unmade start member hit children later holds

variable (keeps : KeepsGroups fs may stem entries inv)
include keeps

theorem returns_mergeGroup (merged : Merged children shown) (holds : inv children state)
    {group : Key} (member : .group group ∈ entries) (below : stem <+: group) :
    (fs.mergeGroup stem children group).Returns may state fun result later =>
      inv result later ∧
        Merged result fun entry => shown entry ∨ entry = .ofListed fs.suffix stem (.group group) := by
  rw [mergeGroup, Path.childName_eq below]
  dsimp only [Except.mapError, Program.ofExcept]
  refine Ensures.bind_done ?_
  dsimp only
  split
  · rename_i skipped
    rw [Bool.or_eq_true, decide_eq_true_eq, Entry.hasDirectory_iff] at skipped
    refine ⟨_, rfl, holds, ?_⟩
    rcases skipped with bare | known
    · exact merged.nameless bare
    · exact merged.known known rfl
  · rename_i fresh
    rw [Bool.or_eq_true, not_or, decide_eq_true_eq, Entry.hasDirectory_iff] at fresh
    refine Returns.bind (keeps group member children state holds fresh.1 fresh.2) ?_
    rintro _ marked kept
    exact ⟨_, rfl, kept, merged.record fresh.1⟩

theorem returns_mergeGroups (groups : List Key) (merged : Merged children shown)
    (holds : inv children state) (members : ∀ group ∈ groups, .group group ∈ entries)
    (below : ∀ group ∈ groups, stem <+: group) :
    (groups.foldlM (fs.mergeGroup stem) children).Returns may state
      fun result later => inv result later ∧ Merged result fun entry => shown entry ∨
        ∃ group ∈ groups, entry = .ofListed fs.suffix stem (.group group) := by
  induction groups generalizing children shown state with
  | nil => exact ⟨children, rfl, holds, merged.congr (by simp)⟩
  | cons group later ih =>
    rw [List.foldlM_cons]
    refine Returns.bind (returns_mergeGroup keeps merged holds (members group List.mem_cons_self)
      (below group List.mem_cons_self)) ?_
    rintro next reached ⟨kept, grown⟩
    refine Returns.mono (ih grown kept
      (fun group member => members group (List.mem_cons_of_mem _ member))
      fun group member => below group (List.mem_cons_of_mem _ member)) ?_
    rintro result final ⟨kept, merged⟩
    exact ⟨kept, merged.congr (by simp [or_assoc])⟩

end groups

/-- What the entries show. -/
def Shows (fs : FileSystem) (stem : Key) (entries : List Listed) (entry : Entry) : Prop :=
  ∃ listed ∈ entries, entry = .ofListed fs.suffix stem listed

theorem shows_append {first second : List Listed} {entry : Entry} :
    fs.Shows stem (first ++ second) entry ↔
      fs.Shows stem first entry ∨ fs.Shows stem second entry := by
  simp only [Shows, List.mem_append, or_and_right, exists_or]

theorem shows_iff {entries : List Listed} {entry : Entry} :
    fs.Shows stem entries entry ↔
      (∃ key ∈ Listed.objects entries, entry = .ofListed fs.suffix stem (.object key)) ∨
        ∃ start ∈ Listed.groups entries, entry = .ofListed fs.suffix stem (.group start) := by
  simp only [Listed.mem_objects, Listed.mem_groups]
  constructor
  · rintro ⟨listed, member, same⟩
    cases listed with
    | object key => exact .inl ⟨key, member, same⟩
    | group start => exact .inr ⟨start, member, same⟩
  · rintro (⟨key, member, same⟩ | ⟨start, member, same⟩)
    · exact ⟨_, member, same⟩
    · exact ⟨_, member, same⟩

theorem groups_subset {count : Nat} :
    ∀ group ∈ Listed.groups (entries.take count), .group group ∈ entries :=
  fun _ member => List.mem_of_mem_take (Listed.mem_groups.mp member)

theorem objects_subset {count : Nat} :
    ∀ key ∈ Listed.objects (entries.take count), .object key ∈ entries :=
  fun _ member => List.mem_of_mem_take (Listed.mem_objects.mp member)

/-- A page whose objects have been merged is merged when its groups are. -/
theorem returns_mergePage_groups {σ : Type} {may : Behaviour (Store.interface Memory.Cursor) σ}
    {state : σ} {inv : List Entry → σ → Prop} (pageSize : Nat)
    (keeps : KeepsGroups fs may stem (entries.take pageSize) inv)
    (below : ∀ listed ∈ entries, stem <+: listed.start) {next : List Entry}
    (made : (Listed.objects (entries.take pageSize)).foldlM (fs.mergeObject stem) children = .ok next)
    (grown : Merged next fun entry => shown entry ∨
      ∃ key ∈ Listed.objects (entries.take pageSize), entry = .ofListed fs.suffix stem (.object key))
    (holds : inv next state) :
    (fs.mergePage stem children (Memory.page entries pageSize)).Returns may state
      fun result later => inv result later ∧
        Merged result fun entry => shown entry ∨ fs.Shows stem (entries.take pageSize) entry := by
  rw [mergePage, Memory.page, made]
  refine Ensures.bind_done (Returns.mono (returns_mergeGroups keeps _ grown holds
    (fun group member => Listed.mem_groups.mp member)
    fun group member => below _ (groups_subset group member)) ?_)
  rintro result final ⟨kept, merged⟩
  exact ⟨kept, merged.congr fun entry _ => by rw [shows_iff, or_assoc]⟩

theorem returns_mergePage (upholds : Upholds fs fallible stem entries inv) (pageSize : Nat)
    (merged : Merged children shown) (holds : inv children memory)
    (below : ∀ listed ∈ entries, stem <+: listed.start) :
    (fs.mergePage stem children (Memory.page entries pageSize)).Returns (Memory.may fallible)
      memory fun result later => inv result later ∧
        Merged result fun entry => shown entry ∨ fs.Shows stem (entries.take pageSize) entry := by
  obtain ⟨next, made, kept, grown⟩ := mergeObjects_merged (fun known => inv known memory)
    (fun key member known => upholds.object key member known memory) _ merged holds objects_subset
    fun key member => below _ (objects_subset key member)
  exact returns_mergePage_groups pageSize (upholds.mono (List.take_subset _ _)).groups below made
    grown kept

section pages
variable {β σ : Type} {visit : β → Store.Page Memory.Cursor → Store.Action Memory.Cursor β}
  {may : Behaviour (Store.interface Memory.Cursor) σ} {pageSize : Nat}

/-- A walk keeps up what the visit of one page keeps up, seen from the entries still to come. It
ends behind the last one, unless a page cannot be had or there are more of them than the limit. -/
theorem ensures_pages (inv : List Listed → β → σ → Prop) (stopped : Prop) (positive : 0 < pageSize)
    (turns : ∀ cursor state, (Store.more cursor).Ensures may state fun result later =>
      later = state ∧ (result = .ok (some (Memory.page cursor.entries cursor.pageSize)) ∨
        stopped ∧ ∃ failure, result = .error failure))
    (visits : ∀ entries value state, inv entries value state →
      (visit value (Memory.page entries pageSize)).Returns may state
        fun next later => inv (entries.drop pageSize) next later)
    (limit : Nat) {entries : List Listed} {value : β} {state : σ} (holds : inv entries value state) :
    (Store.Page.walk visit limit value (Memory.page entries pageSize)).Ensures may state
      fun result later => (∃ rest known, inv rest known later) ∧
        (∀ final, result = .ok final → inv [] final later) ∧
        (∀ failure, result = .error failure → stopped ∨ limit ≤ entries.length) := by
  -- On the limit; the pages still to come are those of the entries behind the first page.
  induction limit generalizing entries value state with
  | zero =>
    refine ⟨⟨_, _, holds⟩, ?_, fun _ _ => .inr (Nat.zero_le _)⟩
    rintro _ ⟨⟩
  | succ limit ih =>
    refine Returns.bind (visits entries value state holds) ?_
    intro next reached kept
    simp only [Memory.page]
    by_cases last : (entries.drop pageSize).isEmpty = true
    · rw [if_pos last]
      rw [List.isEmpty_iff.mp last] at kept
      refine ⟨⟨_, next, kept⟩, ?_, ?_⟩
      · rintro final ⟨⟩
        exact kept
      · rintro _ ⟨⟩
    · rw [if_neg last]
      refine Ensures.bind (turns _ reached) ?_ ?_
      · rintro page later ⟨rfl, ⟨⟨⟩⟩ | ⟨_, _, ⟨⟩⟩⟩
        have shorter : (entries.drop pageSize).length < entries.length := by
          have some_left : (entries.drop pageSize).length ≠ 0 := fun none_left =>
            last (List.isEmpty_iff_length_eq_zero.mpr none_left)
          rw [List.length_drop] at some_left ⊢
          omega
        apply Ensures.mono (ih kept)
        rintro result later ⟨known, final, stops⟩
        exact ⟨known, final, fun failure same => (stops failure same).imp_right fun bound =>
          Nat.lt_of_le_of_lt bound shorter⟩
      · rintro failure later ⟨rfl, ⟨⟨⟩⟩ | ⟨hit, _⟩⟩
        refine ⟨⟨_, next, kept⟩, ?_, fun _ _ => .inl hit⟩
        rintro _ ⟨⟩

end pages

theorem ensures_walk (upholds : Upholds fs fallible stem entries inv) (limit : Nat)
    {pageSize : Nat} (positive : 0 < pageSize) (merged : Merged children shown)
    (holds : inv children memory) (below : ∀ listed ∈ entries, stem <+: listed.start) :
    (Store.Page.walk (fs.mergePage stem) limit children
        (Memory.page entries pageSize)).Ensures (Memory.may fallible) memory
      fun result later => (∃ known, inv known later) ∧
        (∀ final, result = .ok final → inv final later ∧
          Merged final fun entry => shown entry ∨ fs.Shows stem entries entry) ∧
        (∀ failure, result = .error failure →
          (∃ query, fallible query) ∨ limit ≤ entries.length) := by
  -- What was shown so far comes from the entries that are no longer to come.
  let walked (rest : List Listed) (known : List Entry) (now : Memory) : Prop :=
    inv known now ∧ ∃ done, done ++ rest = entries ∧
      Merged known fun entry => shown entry ∨ fs.Shows stem done entry
  have begun : walked entries children memory :=
    ⟨holds, [], rfl, merged.congr fun entry _ => by simp [Shows]⟩
  refine Ensures.mono (ensures_pages walked (∃ query, fallible query) positive ?_ ?_ limit
    begun) ?_
  · intro cursor now
    apply Ensures.mono (Memory.ensures_more fallible now cursor)
    rintro result later ⟨rfl, served | ⟨hit, _, failed⟩⟩
    · exact ⟨rfl, .inl served⟩
    · exact ⟨rfl, .inr ⟨⟨_, hit⟩, _, failed⟩⟩
  · rintro rest known now ⟨kept, done, split, grown⟩
    have within : rest ⊆ entries := split ▸ List.subset_append_right done rest
    refine Returns.mono (returns_mergePage (upholds.mono within) pageSize grown kept
      fun listed member => below listed (within member)) ?_
    rintro next later ⟨still, merged⟩
    refine ⟨still, done ++ rest.take pageSize, ?_, merged.congr fun entry _ => ?_⟩
    · rw [List.append_assoc, List.take_append_drop, split]
    · rw [shows_append, or_assoc]
  · rintro result later ⟨⟨_, known, kept, _⟩, merges, stops⟩
    refine ⟨⟨known, kept⟩, fun final same => ?_, stops⟩
    obtain ⟨kept, done, rfl, merged⟩ := merges final same
    exact ⟨kept, by rwa [List.append_nil]⟩

end FileSystem
end KeyTree
