import KeyTree.Proofs.Healing

/-!
Markers that are made again. A listing gives every group a marker whose directory it does not know
yet. It knows a directory by its marker if that is shown on the same page or an earlier one, so a
marker that is listed only behind the page of its group is made although it is there, and loses its
bytes and its time. The requests tell which markers these are (`Memory.overwritten`), and they are
exactly those that a page boundary parts from their groups (`Contents.Parted`).
-/
namespace KeyTree

open KeyTree.Path (separator)
open Program (Ensures Returns)

namespace Memory

/-- The key that the request creates although it is there. -/
def overwrites (memory : Memory) : Store.Request Cursor → List Key
  | .createEmpty key => if key ∈ memory.contents then [key] else []
  | _ => []

/-- The keys that are created although they are there when the requests are served in order. -/
def overwritten : Memory → List (Store.Request Cursor) → List Key
  | _, [] => []
  | memory, query :: later => memory.overwrites query ++ (serve query memory).2.overwritten later

/-- A memory without faults, beside which the keys are kept that have been overwritten. -/
def watched : Behaviour (Store.interface Cursor) (Memory × List Key) :=
  fun query state answer later => answer = (serve query state.1).1 ∧
    later = ((serve query state.1).2, state.2 ++ state.1.overwrites query)

/-- What is under the key, and since when if it was not written. -/
def object (memory : Memory) (key : Key) : Option Content × Option Int :=
  (memory.contents[key]?, memory.times[key]?)

variable {α : Type} {memory other : Memory} {seen : List Key} {key : Key}

theorem mem_overwrites {asked : Key} :
    asked ∈ memory.overwrites (.createEmpty key) ↔ asked = key ∧ asked ∈ memory.contents := by
  rw [overwrites]
  split
  · rename_i present
    rw [List.mem_singleton]
    exact (and_iff_left_of_imp fun same => same ▸ present).symm
  · rename_i absent
    exact iff_of_false List.not_mem_nil fun ⟨same, present⟩ => absent (same ▸ present)

theorem object_insert (memory : Memory) (key : Key) (content : Content) (asked : Key) :
    (memory.insert key content).object asked =
      if key = asked then (some content, none) else memory.object asked := by
  simp only [object, insert, Contents.lookup_insert, Std.ExtTreeMap.getElem?_erase,
    Std.LawfulEqCmp.compare_eq_iff_eq]
  split
  · rfl
  · rfl

theorem mem_of_object_eq (same : other.object key = memory.object key) :
    key ∈ other.contents ↔ key ∈ memory.contents :=
  Contents.mem_of_lookup_eq (Prod.mk.inj same).1

theorem status_of_object_eq (same : other.object key = memory.object key) :
    other.status key = memory.status key := by
  obtain ⟨content, time⟩ := Prod.mk.inj same
  rw [status, status, content, time]

theorem status_of_object_empty (made : memory.object key = (some [], none)) :
    memory.status key = some ⟨0, writeTimeMs⟩ := by
  obtain ⟨content, time⟩ := Prod.mk.inj made
  rw [status, content, time]
  rfl

theorem overwritten_of_ensures {program : Store.Action Cursor α}
    {post : Except Failure α → Memory × List Key → Prop}
    (ensured : program.Ensures watched (memory, seen) post) :
    let ended := program.run serve memory
    post ended.result
      (ended.state, seen ++ memory.overwritten (ended.exchanges.map Exchange.query)) := by
  induction program generalizing memory seen with
  | done value => simpa [Program.run, Ensures, overwritten] using ensured
  | fail failure => simpa [Program.run, Ensures, overwritten] using ensured
  | report notice rest ih => simpa [Program.run] using ih ensured
  | ask query next ih =>
    have ended := ih _ (ensured _ _ ⟨rfl, rfl⟩)
    simpa [Program.run, overwritten] using ended

theorem ensures_watched {program : Store.Action Cursor α} {post : Except Failure α → Memory → Prop}
    (ensured : program.Ensures (may fun _ => False) memory post) :
    program.Ensures watched (memory, seen) fun result later => post result later.1 := by
  have coarse : ∀ query state answer later, watched query state answer later →
      may (fun _ => False) query state.1 answer later.1 :=
    fun query state answer later served => .inl ⟨served.1, congrArg Prod.fst served.2⟩
  exact Ensures.of_view coarse ensured

theorem returns_watched {query : Store.Request Cursor} {answer : query.Answer}
    (answers : (serve query memory).1 = .ok answer) :
    (Program.request query : Store.Action Cursor _).Returns watched (memory, seen)
      fun value later => value = answer ∧
        later = ((serve query memory).2, seen ++ memory.overwrites query) := by
  rintro _ _ ⟨rfl, rfl⟩
  rw [answers]
  exact ⟨answer, rfl, rfl, rfl⟩

/-- A request that changes nothing overwrites nothing. -/
theorem returns_unchanged {query : Store.Request Cursor} {answer : query.Answer}
    (answers : serve query memory = (.ok answer, memory))
    (spares : memory.overwrites query = []) :
    (Program.request query : Store.Action Cursor _).Returns watched (memory, seen)
      fun value later => value = answer ∧ later = (memory, seen) := by
  apply Returns.mono (returns_watched (congrArg Prod.fst answers))
  rintro value later ⟨rfl, rfl⟩
  rw [spares, List.append_nil, answers]
  exact ⟨rfl, rfl⟩

end Memory

namespace Contents
variable {suffix stem : Key} {grouped : Bool} {pageSize pages : Nat} {before after : Contents}
  {name : Path}

/-- Contents that hold the same behind the stem are listed alike. -/
theorem entries_congr (kept : ∀ key ∈ before, key ∈ after)
    (same : ∀ key, stem <+: key → after[key]? = before[key]?) :
    after.entries stem grouped = before.entries stem grouped := by
  rw [entries, entries, keys_eq_filter kept, List.filter_filter]
  congr 2
  apply List.filter_congr
  intro key listed
  rw [Std.ExtTreeMap.mem_keys] at listed
  by_cases behind : stem <+: key
  · simp [behind, (mem_of_lookup_eq (same key behind)).mp listed]
  · simp [behind]

/-- The entries on the first pages of a listing. -/
def firstPages (contents : Contents) (stem : Key) (grouped : Bool) (pageSize pages : Nat) :
    List Listed :=
  (contents.entries stem grouped).take (pages * pageSize)

theorem mem_entries_of_firstPages {contents : Contents} {listed : Listed}
    (member : listed ∈ contents.firstPages stem grouped pageSize pages) :
    listed ∈ contents.entries stem grouped :=
  List.mem_of_mem_take member

theorem firstPages_succ (contents : Contents) (stem : Key) (grouped : Bool) (pageSize pages : Nat) :
    contents.firstPages stem grouped pageSize (pages + 1) =
      contents.firstPages stem grouped pageSize pages ++
        ((contents.entries stem grouped).drop (pages * pageSize)).take pageSize := by
  rw [firstPages, firstPages, Nat.succ_mul, List.take_add]

/-- The first pages have the group of the name, and its marker comes behind them. -/
structure Parted (suffix stem : Key) (grouped : Bool) (pageSize pages : Nat) (contents : Contents)
    (name : Path) : Prop where
  named : name ≠ []
  marked : stem ++ name ++ suffix ∈ contents
  before : .group (stem ++ name ++ [separator]) ∈ contents.firstPages stem grouped pageSize pages
  behind : .object (stem ++ name ++ suffix) ∉ contents.firstPages stem grouped pageSize pages

namespace Parted
variable {contents : Contents}

theorem congr (same : after.entries stem grouped = before.entries stem grouped)
    (marked : stem ++ name ++ suffix ∈ after ↔ stem ++ name ++ suffix ∈ before) :
    after.Parted suffix stem grouped pageSize pages name ↔
      before.Parted suffix stem grouped pageSize pages name := by
  have pages_same : after.firstPages stem grouped pageSize pages =
      before.firstPages stem grouped pageSize pages := by
    rw [firstPages, firstPages, same]
  constructor
  · rintro ⟨named, present, group, behind⟩
    exact ⟨named, marked.mp present, pages_same ▸ group, pages_same ▸ behind⟩
  · rintro ⟨named, present, group, behind⟩
    exact ⟨named, marked.mpr present, pages_same.symm ▸ group, pages_same.symm ▸ behind⟩

variable (parted : contents.Parted suffix stem grouped pageSize pages name)
include parted

theorem grouped_eq : grouped = true :=
  grouped_of_group (mem_entries_of_firstPages parted.before)

theorem groups : contents.Groups stem name := by
  obtain ⟨_, other, same, _, groups⟩ :=
    @groups_of_listed suffix _ _ _ _ (mem_entries_of_firstPages parted.before)
  obtain rfl : name = other := List.append_cancel_left (List.append_cancel_right same)
  exact groups parted.named

/-- The marker is behind the first entries, so these are not all. -/
theorem lt_length (whole : separator ∉ suffix) :
    pages * pageSize < (contents.entries stem grouped).length := by
  by_contra all
  apply parted.behind
  rw [firstPages, List.take_of_length_le (Nat.le_of_not_lt all)]
  exact (mem_entries grouped).mpr ⟨_, parted.marked, prefix_behind stem name suffix,
    (ofKey_marker stem grouped whole parted.groups.first).symm⟩

end Parted
end Contents

namespace FileSystem
variable {fs : FileSystem} {stem : Key} {grouped : Bool} {pageSize pages : Nat} {start : Memory}
  {children next : List Entry} {state : Memory × List Key} {name : Path}

/-- What merging the first pages of a listing has done to the objects that were there when it
started. -/
structure Remarked (fs : FileSystem) (stem : Key) (grouped : Bool) (pageSize pages : Nat)
    (start : Memory) (children : List Entry) (state : Memory × List Key) : Prop where
  /-- What is not as it was has been made the marker of a directory that is known. -/
  bound : ∀ key, (key ∉ state.2 ∧ state.1.object key = start.object key) ∨
    (state.1.object key = (some [], none) ∧ (key ∈ state.2 ↔ key ∈ start.contents) ∧
      ∃ name, ⟨name, true⟩ ∈ children ∧ key = stem ++ name ++ fs.suffix)
  /-- Only a marker that a page boundary parts from its group has been overwritten. -/
  sound : ∀ key ∈ state.2, ∃ turn name, key = stem ++ name ++ fs.suffix ∧
    start.contents.Parted fs.suffix stem grouped pageSize turn name
  /-- A marker that was there has been shown or overwritten if its directory is known. -/
  known : grouped = true → ∀ name, ⟨name, true⟩ ∈ children →
    stem ++ name ++ fs.suffix ∈ start.contents →
    .object (stem ++ name ++ fs.suffix) ∈
      start.contents.firstPages stem grouped pageSize pages ∨
    stem ++ name ++ fs.suffix ∈ state.2
  /-- A directory whose marker has been shown is known. -/
  shown : ∀ name, name ≠ [] → .object (stem ++ name ++ fs.suffix) ∈
    start.contents.firstPages stem grouped pageSize pages → ⟨name, true⟩ ∈ children
  /-- Whatever an earlier page boundary parts has been overwritten. -/
  complete : ∀ turn < pages, ∀ name,
    start.contents.Parted fs.suffix stem grouped pageSize turn name →
      stem ++ name ++ fs.suffix ∈ state.2

namespace Remarked

theorem begin (fs : FileSystem) (stem : Key) (grouped : Bool) (pageSize : Nat) (start : Memory) :
    Remarked fs stem grouped pageSize 0 start [] (start, []) where
  bound _ := .inl ⟨List.not_mem_nil, rfl⟩
  sound _ := nofun
  known _ _ := nofun
  shown name _ member := by simp [Contents.firstPages] at member
  complete _ := nofun

variable (remarked : Remarked fs stem grouped pageSize pages start children state)
include remarked

/-- The marker of a directory that is not known is as it was. -/
theorem untouched (fresh : ⟨name, true⟩ ∉ children) :
    stem ++ name ++ fs.suffix ∉ state.2 ∧
      state.1.object (stem ++ name ++ fs.suffix) = start.object (stem ++ name ++ fs.suffix) := by
  obtain same | ⟨_, _, other, known, same⟩ := remarked.bound (stem ++ name ++ fs.suffix)
  · exact same
  · rw [List.append_cancel_left (List.append_cancel_right same)] at fresh
    exact absurd known fresh

/-- The marker of a group is made, and overwritten if it is there. -/
theorem mark (named : name ≠ []) (fresh : ⟨name, true⟩ ∉ children)
    (listed : .group (stem ++ name ++ [separator]) ∈
      start.contents.firstPages stem grouped pageSize pages) :
    Remarked fs stem grouped pageSize pages start (Entry.record ⟨name, true⟩ children)
      (state.1.insert (stem ++ name ++ fs.suffix) [],
        state.2 ++ state.1.overwrites (.createEmpty (stem ++ name ++ fs.suffix))) := by
  obtain ⟨unseen, same⟩ := remarked.untouched fresh
  have present := Memory.mem_of_object_eq same
  have seen_iff : ∀ key, key ∈ state.2 ++ state.1.overwrites
      (.createEmpty (stem ++ name ++ fs.suffix)) ↔
        key ∈ state.2 ∨ key = stem ++ name ++ fs.suffix ∧ key ∈ start.contents := by
    intro key
    rw [List.mem_append, Memory.mem_overwrites]
    refine or_congr_right (and_congr_right ?_)
    rintro rfl
    exact present
  constructor
  · intro key
    rw [Memory.object_insert, seen_iff]
    by_cases own : stem ++ name ++ fs.suffix = key
    · subst own
      refine .inr ⟨if_pos rfl, ?_, name, Entry.mem_record_self name children, rfl⟩
      rw [or_iff_right unseen, and_iff_right rfl]
    · rw [if_neg own]
      refine (remarked.bound key).imp ?_ ?_
      · exact fun ⟨out, kept⟩ => ⟨fun both => both.elim out fun eq => own eq.1.symm, kept⟩
      · rintro ⟨made, iff, other, known, eq⟩
        refine ⟨made, ?_, other, Entry.mem_record_of_mem known, eq⟩
        rw [← iff]
        exact or_iff_left fun both => own both.1.symm
  · intro key seen
    obtain old | ⟨rfl, there⟩ := (seen_iff key).mp seen
    · exact remarked.sound key old
    · exact ⟨pages, name, rfl, named, there, listed, fun shows =>
        fresh (remarked.shown name named shows)⟩
  · intro isGrouped other member there
    rw [seen_iff]
    obtain old | same := Entry.directory_of_mem_record member
    · exact (remarked.known isGrouped other old there).imp_right .inl
    · rw [(Entry.mk.inj same).1]
      exact .inr (.inr ⟨rfl, there⟩)
  · exact fun other given shows => Entry.mem_record_of_mem (remarked.shown other given shows)
  · exact fun turn earlier other parted =>
      (seen_iff _).mpr (.inl (remarked.complete turn earlier other parted))

/-- The objects of the next page overwrite nothing, and show the markers that they are. -/
theorem objects (given : fs.suffix ≠ [])
    (merged : Merged children
      (fs.Shows stem (start.contents.firstPages stem grouped pageSize pages)))
    (grown : Merged next fun entry =>
      fs.Shows stem (start.contents.firstPages stem grouped pageSize pages) entry ∨
      ∃ key ∈ Listed.objects
        (((start.contents.entries stem grouped).drop (pages * pageSize)).take pageSize),
        entry = .ofListed fs.suffix stem (.object key)) :
    Remarked fs stem grouped pageSize (pages + 1) start next state := by
  have directory_iff : ∀ name, ⟨name, true⟩ ∈ next ↔ ⟨name, true⟩ ∈ children ∨ name ≠ [] ∧
      ∃ key ∈ Listed.objects
        (((start.contents.entries stem grouped).drop (pages * pageSize)).take pageSize),
        ⟨name, true⟩ = Entry.ofListed fs.suffix stem (.object key) := by
    intro name
    rw [grown.directory_iff, merged.directory_iff, and_or_left]
  constructor
  · intro key
    apply (remarked.bound key).imp_right
    rintro ⟨made, iff, name, known, same⟩
    exact ⟨made, iff, name, (directory_iff name).mpr (.inl known), same⟩
  · exact remarked.sound
  · intro isGrouped name member there
    subst isGrouped
    rw [Contents.firstPages_succ, List.mem_append]
    obtain old | ⟨_, key, paged, shows⟩ := (directory_iff name).mp member
    · exact (remarked.known rfl name old there).imp_left .inl
    · rw [Listed.mem_objects] at paged
      have listed := List.mem_of_mem_drop (List.mem_of_mem_take paged)
      obtain ⟨rfl, _⟩ := Contents.marker_of_listed given listed shows.symm
      exact .inl (.inr paged)
  · intro name named member
    rw [Contents.firstPages_succ, List.mem_append] at member
    refine (directory_iff name).mpr (member.imp (remarked.shown name named) fun paged => ?_)
    exact ⟨named, _, Listed.mem_objects.mpr paged, (Entry.ofListed_marker given stem name).symm⟩
  · intro turn earlier name parted
    obtain before | rfl := Nat.lt_succ_iff_lt_or_eq.mp earlier
    · exact remarked.complete turn before name parted
    · have known : ⟨name, true⟩ ∈ children := merged.directory_iff.mpr ⟨parted.named, _,
        parted.before, (Entry.ofListed_cut fs.suffix stem parted.groups.first).symm⟩
      exact (remarked.known parted.grouped_eq name known parted.marked).resolve_left parted.behind

/-- Behind the last page exactly the parted markers have been overwritten. -/
theorem mem_iff (whole : separator ∉ fs.suffix)
    (all : (start.contents.entries stem grouped).drop (pages * pageSize) = []) (key : Key) :
    key ∈ state.2 ↔ ∃ turn name, key = stem ++ name ++ fs.suffix ∧
      start.contents.Parted fs.suffix stem grouped pageSize turn name := by
  refine ⟨remarked.sound key, ?_⟩
  rintro ⟨turn, name, rfl, parted⟩
  have short := parted.lt_length whole
  have long := List.drop_eq_nil_iff.mp all
  exact remarked.complete turn (Nat.lt_of_mul_lt_mul_right (short.trans_le long)) name parted

end Remarked

section walk
variable {path : Path} (given : fs.suffix ≠ [])
  (rootless : ∀ key ∈ start.contents, fs.root.stem path <+: key → ¬ fs.root.start <+: key)
include rootless

theorem keepsGroups_remarked : KeepsGroups fs Memory.watched (fs.root.stem path)
    (start.contents.firstPages (fs.root.stem path) grouped pageSize pages)
    (Remarked fs (fs.root.stem path) grouped pageSize pages start) := by
  intro group listed children state remarked named fresh
  obtain ⟨_, name, rfl, reads, groups⟩ :=
    @Contents.groups_of_listed fs.suffix _ _ _ _ (Contents.mem_entries_of_firstPages listed)
  rw [reads] at named fresh ⊢
  rw [markGroup, createMarker, markerKey_group (groups named) rootless]
  refine Ensures.notify (Returns.bind (Memory.returns_watched rfl) ?_)
  rintro made later ⟨rfl, rfl⟩
  exact ⟨(), rfl, remarked.mark named fresh listed⟩

include given

theorem returns_mergePage_remarked
    (merged : Merged children (fs.Shows (fs.root.stem path)
      (start.contents.firstPages (fs.root.stem path) grouped pageSize pages)))
    (remarked : Remarked fs (fs.root.stem path) grouped pageSize pages start children state) :
    (fs.mergePage (fs.root.stem path) children (Memory.page
        ((start.contents.entries (fs.root.stem path) grouped).drop (pages * pageSize))
        pageSize)).Returns Memory.watched state fun result later =>
      Remarked fs (fs.root.stem path) grouped pageSize (pages + 1) start result later ∧
        Merged result (fs.Shows (fs.root.stem path)
          (start.contents.firstPages (fs.root.stem path) grouped pageSize (pages + 1))) := by
  have within : ∀ listed ∈ (start.contents.entries (fs.root.stem path) grouped).drop
      (pages * pageSize), fs.root.stem path <+: listed.start := fun listed member =>
    Contents.prefix_start_of_mem_entries (List.mem_of_mem_drop member)
  obtain ⟨next, made, _, grown⟩ := mergeObjects_merged (fun _ => True)
    (fun _ _ _ _ => trivial) _ merged trivial objects_subset
    fun key member => within _ (objects_subset key member)
  have keeps : KeepsGroups fs Memory.watched (fs.root.stem path)
      (start.contents.firstPages (fs.root.stem path) grouped pageSize (pages + 1))
      (Remarked fs (fs.root.stem path) grouped pageSize (pages + 1) start) :=
    keepsGroups_remarked rootless
  rw [Contents.firstPages_succ] at keeps
  apply Returns.mono (returns_mergePage_groups pageSize
    (fun group member => keeps group (List.mem_append_right _ member)) within made grown
    (remarked.objects given merged grown))
  rintro result later ⟨kept, merged⟩
  refine ⟨kept, merged.congr fun entry _ => ?_⟩
  rw [Contents.firstPages_succ, shows_append]

/-- Walking a listing overwrites exactly the parted markers. -/
theorem returns_walk_remarked (whole : separator ∉ fs.suffix)
    (read : fs.settings.pageSize = .ok pageSize)
    (room : (start.contents.entries (fs.root.stem path) grouped).length < fs.limits.pages) :
    (Store.Page.walk (fs.mergePage (fs.root.stem path)) fs.limits.pages []
        (Memory.firstPage (start.contents.entries (fs.root.stem path) grouped) pageSize)).Returns
      Memory.watched (start, []) fun _ later =>
        (∀ key, (key ∉ later.2 ∧ later.1.object key = start.object key) ∨
          later.1.object key = (some [], none) ∧ (key ∈ later.2 ↔ key ∈ start.contents)) ∧
        ∀ key, key ∈ later.2 ↔ ∃ turn name, key = fs.root.stem path ++ name ++ fs.suffix ∧
          start.contents.Parted fs.suffix (fs.root.stem path) grouped pageSize turn name := by
  have positive := Settings.pageSize_pos read
  rw [Memory.firstPage, if_pos (by omega), Int.toNat_natCast]
  let walked (rest : List Listed) (known : List Entry) (state : Memory × List Key) : Prop :=
    ∃ pages, rest = (start.contents.entries (fs.root.stem path) grouped).drop (pages * pageSize) ∧
      Merged known (fs.Shows (fs.root.stem path)
        (start.contents.firstPages (fs.root.stem path) grouped pageSize pages)) ∧
      Remarked fs (fs.root.stem path) grouped pageSize pages start known state
  have begun : walked (start.contents.entries (fs.root.stem path) grouped) [] (start, []) := by
    refine ⟨0, by simp, Merged.nil.congr fun entry _ => ?_, .begin ..⟩
    simp [Shows, Contents.firstPages]
  refine Ensures.mono (ensures_pages walked False positive ?_ ?_ _ begun) ?_
  · rintro cursor ⟨memory, seen⟩
    apply Ensures.mono (Memory.returns_unchanged rfl rfl)
    rintro result later ⟨_, rfl, rfl, rfl⟩
    exact ⟨rfl, .inl rfl⟩
  · rintro _ known state ⟨pages, rfl, merged, remarked⟩
    apply Returns.mono (returns_mergePage_remarked given rootless merged remarked)
    rintro next later ⟨remarked, merged⟩
    exact ⟨pages + 1, by rw [List.drop_drop, Nat.succ_mul], merged, remarked⟩
  · rintro (failure | children) later ⟨_, ends, stops⟩
    · have long := (stops failure rfl).resolve_left id
      omega
    · obtain ⟨pages, all, _, remarked⟩ := ends children rfl
      refine ⟨children, rfl, fun key => ?_, remarked.mem_iff whole all.symm⟩
      exact (remarked.bound key).imp_right (And.imp_right And.left)

end walk

section look
variable {memory : Memory} {seen : List Key}

/-- A marker that is not there is made without overwriting anything. -/
theorem returns_healMarker_watched {marker : Key} (absent : marker ∉ memory.contents) :
    (healMarker marker).Returns Memory.watched (memory, seen) fun _ later => later.2 = seen ∧
      ∀ key ∈ memory.contents, later.1.object key = memory.object key := by
  refine Ensures.notify (Returns.bind (Memory.returns_watched rfl) ?_)
  rintro made later ⟨rfl, rfl⟩
  apply Returns.mono (Memory.returns_unchanged rfl rfl)
  rintro status later ⟨rfl, rfl⟩
  refine ⟨by simp [Memory.overwrites, absent], fun key present => ?_⟩
  refine (Memory.object_insert memory marker [] key).trans (if_neg ?_)
  rintro rfl
  exact absent present

/-- A look for a directory makes its marker only where none is. -/
theorem returns_isDirectory_watched (path : Path) :
    (fs.isDirectory path).Returns Memory.watched (memory, seen) fun _ later => later.2 = seen ∧
      ∀ key ∈ memory.contents, later.1.object key = memory.object key := by
  rw [isDirectory]
  split
  · exact ⟨true, rfl, rfl, fun _ _ => rfl⟩
  · rename_i below
    rw [probe, if_neg below, Program.bind_eq_bind, Program.bind_eq_bind, Program.bind_assoc]
    apply Returns.bind (Memory.returns_unchanged rfl rfl)
    rintro status later ⟨rfl, rfl⟩
    cases found : memory.status (fs.markerKey path) with
    | some status => exact ⟨true, rfl, rfl, fun _ _ => rfl⟩
    | none =>
      have absent : fs.markerKey path ∉ memory.contents := by simp [← status_isSome, found]
      have looks : (fs.probeBelow path).Returns Memory.watched (memory, seen) fun _ later =>
          later.2 = seen ∧ ∀ key ∈ memory.contents, later.1.object key = memory.object key := by
        apply Returns.bind (Returns.attempt (Memory.returns_unchanged rfl rfl))
        rintro answer later ⟨page, rfl, rfl, rfl⟩
        dsimp only
        split
        · exact ⟨none, rfl, rfl, fun _ _ => rfl⟩
        · exact returns_healMarker_watched absent
      exact Returns.bind looks fun _ _ kept => ⟨_, rfl, kept⟩

end look

section listing
variable {memory : Memory} (whole : separator ∉ fs.suffix) (given : fs.suffix ≠ [])
  (rootless : ∀ key ∈ memory.contents, ¬ fs.root.start <+: key)
  (read : fs.settings.pageSize = .ok pageSize) (room : memory.contents.size < fs.limits.pages)
include whole given rootless read room

theorem returns_children_watched (path : Path) (recursive : Bool) :
    (fs.children path recursive).Returns Memory.watched (memory, []) fun _ later =>
      (∀ key ∈ memory.contents, (key ∉ later.2 ∧ later.1.object key = memory.object key) ∨
        key ∈ later.2 ∧ later.1.object key = (some [], none)) ∧
      ∀ key, key ∈ later.2 ↔ ∃ turn name, key = fs.root.stem path ++ name ++ fs.suffix ∧
        memory.contents.Parted fs.suffix (fs.root.stem path) (!recursive) pageSize turn name := by
  have looks : (fs.isDirectory path).Returns Memory.watched (memory, []) fun found later =>
      Sought fs path memory found later.1 ∧ later.2 = [] ∧
        ∀ key ∈ memory.contents, later.1.object key = memory.object key :=
    Returns.and (Memory.ensures_watched (returns_isDirectory_at onlyDeletes_false path))
      (returns_isDirectory_watched path)
  unfold children
  refine Returns.bind looks ?_
  rintro found ⟨probed, _⟩ ⟨sought, rfl, unchanged⟩
  cases found with
  | false =>
    refine ⟨none, rfl, fun key present => .inl ⟨List.not_mem_nil, unchanged key present⟩,
      fun key => iff_of_false List.not_mem_nil ?_⟩
    rintro ⟨_, name, rfl, parted⟩
    cases sought.there.mpr (.inr (.inr ⟨_, parted.marked, prefix_behind _ name fs.suffix⟩))
  | true =>
    dsimp only
    rw [if_pos rfl, read]
    refine Ensures.bind_done (Returns.bind (Memory.returns_unchanged rfl rfl) ?_)
    rintro page later ⟨rfl, rfl⟩
    have same : probed.contents.entries (fs.root.stem path) (!recursive) =
        memory.contents.entries (fs.root.stem path) (!recursive) :=
      Contents.entries_congr (fun _ => sought.mem) fun _ => sought.lookup_below whole
    have short : (memory.contents.entries (fs.root.stem path) (!recursive)).length ≤
        memory.contents.keys.length :=
      Contents.length_entries_le _ fun _ present _ => Std.ExtTreeMap.mem_keys.mpr present
    rw [Std.ExtTreeMap.length_keys, ← same] at short
    have free := sought.healed.rootless whole rootless
    refine Returns.bind (returns_walk_remarked given (fun key present _ => free key present) whole
      read (short.trans_lt room)) ?_
    rintro children ⟨now, seen⟩ ⟨bound, seen_iff⟩
    refine ⟨some children, rfl, fun key present => ?_, fun key => (seen_iff key).trans ?_⟩
    · rw [← unchanged key present]
      exact (bound key).imp id fun ⟨made, iff⟩ => ⟨iff.mpr (sought.mem present), made⟩
    · refine exists_congr fun turn => exists_congr fun name => and_congr_right fun _ => ?_
      exact Contents.Parted.congr same
        (Contents.mem_of_lookup_eq (sought.lookup_below whole (prefix_behind _ name fs.suffix)))

/-- A listing is always answered. Of what is there it makes exactly those markers again that a page
boundary parts from their groups. They are empty afterwards and as new as anything that is written;
every other object keeps its bytes and its time. -/
theorem children_overwrites_iff (path : Path) (recursive : Bool) :
    let ended := (fs.children path recursive).run Memory.serve memory
    let overwritten := memory.overwritten (ended.exchanges.map Exchange.query)
    (∃ answer, ended.result = .ok answer) ∧
      (∀ key, key ∈ overwritten ↔ ∃ pages name, key = fs.root.stem path ++ name ++ fs.suffix ∧
        memory.contents.Parted fs.suffix (fs.root.stem path) (!recursive) pageSize pages name) ∧
      ∀ key ∈ memory.contents,
        (key ∉ overwritten → ended.state.contents[key]? = memory.contents[key]? ∧
          ended.state.status key = memory.status key) ∧
        (key ∈ overwritten → ended.state.contents[key]? = some [] ∧
          ended.state.status key = some ⟨0, Memory.writeTimeMs⟩) := by
  intro ended overwritten
  obtain ⟨answer, shows, kept, seen_iff⟩ := Memory.overwritten_of_ensures
    (returns_children_watched whole given rootless read room path recursive)
  refine ⟨⟨answer, shows⟩, seen_iff, fun key present => ⟨fun spared => ?_, fun hit => ?_⟩⟩
  · obtain ⟨_, same⟩ | ⟨seen, _⟩ := kept key present
    · exact ⟨(Prod.mk.inj same).1, Memory.status_of_object_eq same⟩
    · exact absurd seen spared
  · obtain ⟨unseen, _⟩ | ⟨_, made⟩ := kept key present
    · exact absurd hit unseen
    · exact ⟨(Prod.mk.inj made).1, Memory.status_of_object_empty made⟩

end listing

theorem children_overwrites_iff_parted :
    let fs : FileSystem := { usual with settings := { listingLength := .integer 1 } }
    let memory := Memory.holding [("d/x".toList, [120]), ("d_$folder$".toList, [98])]
    let ended := (fs.children [] false).run Memory.serve memory
    memory.contents.Tidy fs.suffix ∧ fs.settings.pageSize = .ok 1 ∧
      memory.contents.size < fs.limits.pages ∧
      "d_$folder$".toList ∈ memory.overwritten (ended.exchanges.map Exchange.query) ∧
      ended.state.contents["d_$folder$".toList]? = some [] := by
  intro fs memory ended
  have tidy : memory.contents.Tidy fs.suffix := by decide +kernel
  have rootless : ∀ key ∈ memory.contents, ¬ fs.root.start <+: key :=
    usual_proper.rootless tidy.neat
  have read : fs.settings.pageSize = .ok 1 := rfl
  have room : memory.contents.size < fs.limits.pages := by decide +kernel
  have whole : separator ∉ fs.suffix := usual_proper.suffix_whole
  have given : fs.suffix ≠ [] := usual_proper.suffix_ne_nil
  obtain ⟨_, overwritten_iff, objects⟩ :=
    children_overwrites_iff whole given rootless read room [] false
  have parted : memory.contents.Parted fs.suffix (fs.root.stem []) true 1 1 "d".toList :=
    ⟨by decide, by decide +kernel, by decide +kernel, by decide +kernel⟩
  have hit := (overwritten_iff "d_$folder$".toList).mpr ⟨1, _, by decide +kernel, parted⟩
  exact ⟨tidy, read, room, hit, ((objects _ (by decide +kernel)).2 hit).1⟩

/-- A marker is made again although it is there, if it is on the page behind that of its group. -/
theorem not_children_overwrites_nothing : ¬ ∀ (fs : FileSystem) (path : Path) (recursive : Bool)
      (memory : Memory) (pageSize : Nat), fs.Proper → fs.root.Clean → fs.Place path →
    memory.contents.Tidy fs.suffix → fs.settings.pageSize = .ok pageSize →
    let ended := (fs.children path recursive).run Memory.serve memory
    memory.overwritten (ended.exchanges.map Exchange.query) = [] := by
  intro spares
  have none_made := spares { usual with settings := { listingLength := .integer 1 } } [] false
    (.holding [("d/x".toList, [120]), ("d_$folder$".toList, [98])]) 1
    ⟨usual_proper.scheme, usual_proper.suffix_ne_nil, usual_proper.suffix_whole⟩ usual_clean
    (.inr (by decide +kernel)) (by decide +kernel) rfl
  revert none_made
  decide +kernel

end FileSystem
end KeyTree
