import KeyTree.Proofs.Mishaps
import KeyTree.Proofs.Walk

/-!
Tame stores. A change is made as it was asked for, or answered no and not made; a listing comes leaf
by leaf, and while only allowed keys are in the store each leaf shows what allowed keys show, and
goes on no further than a list of all allowed keys reaches. Buckets and memories are tame, whichever
of their requests fail (`S3.Bucket.tame`, `Memory.tame`).
-/
namespace KeyTree

/-- What a listing below the stem may show while only allowed keys are there. -/
def Listed.Permitted (allowed : Key → Prop) (stem : Key) (recursive : Bool) (listed : Listed) :
    Prop :=
  ∃ key, allowed key ∧ stem <+: key ∧ listed = Listed.ofKey stem (!recursive) key

/-- The name of what is listed is cut from its start. -/
theorem Listed.Permitted.childName {allowed : Key → Prop} {stem : Key} {recursive : Bool}
    {listed : Listed} (permitted : listed.Permitted allowed stem recursive) :
    Path.childName listed.start stem = .ok (listed.start.drop stem.length) := by
  obtain ⟨key, _, below, rfl⟩ := permitted
  exact Path.childName_eq (Listed.prefix_start_ofKey _ below)

namespace Store
variable {Cursor : Type}

/-- A page of a listing of allowed keys: what it shows, and where the listing goes on. -/
structure Leaf (ahead : Nat → Cursor → Prop) (allowed : Key → Prop) (stem : Key)
    (recursive : Bool) (size offset : Nat) (page : Page Cursor) : Prop where
  objects : ∀ key ∈ page.objects, Listed.Permitted allowed stem recursive (.object key)
  groups : ∀ start ∈ page.groups, Listed.Permitted allowed stem recursive (.group start)
  next : ∀ cursor, page.next = some cursor → ahead (offset + size) cursor ∧
    ∀ keys : List Key, (∀ key, allowed key → key ∈ keys) → offset + size < keys.length

/-- A leaf that was fetched, or a failure of the store; both leave the state. -/
def Turned {State : Type} (leaf : Page Cursor → Prop) (state : State)
    (answer : Except Failure (Option (Page Cursor))) (later : State) : Prop :=
  later = state ∧ ((∃ page, answer = .ok (some page) ∧ leaf page) ∨ S3.StoreFails answer)

/-- A behaviour that makes a change as it was asked for, or answers no and leaves everything, and
that lists what is there leaf by leaf. -/
class Tame (Cursor : Type) where
  State : Type
  may : Behaviour (interface Cursor) State
  contents : State → Contents
  /-- The cursor goes on with a listing of allowed keys behind so many entries. -/
  Ahead : (allowed : Key → Prop) → (stem : Key) → (recursive : Bool) → (size offset : Nat) →
    Cursor → Prop
  status : ∀ {key state answer later}, may (.status key) state answer later →
    later = state ∧ ∃ status, answer = .ok status
  createEmpty : ∀ {key state answer later}, may (.createEmpty key) state answer later →
    answer = .ok true ∧ contents later = (contents state).insert key [] ∨
      answer = .ok false ∧ later = state
  copy : ∀ {source destination state answer later},
    may (.copy source destination) state answer later →
    (∃ content, answer = .ok true ∧
      contents later = (contents state).insert destination content) ∨
        answer = .ok false ∧ later = state
  delete : ∀ {key state answer later}, may (.delete key) state answer later →
    answer = .ok true ∧ contents later = (contents state).erase key ∨
      answer = .ok false ∧ later = state
  list : ∀ {allowed stem recursive} {size : Nat} {state answer later},
    (∀ key ∈ contents state, allowed key) →
    may (.list stem recursive size) state answer later →
    Turned (Leaf (Ahead allowed stem recursive size) allowed stem recursive size 0)
      state answer later
  more : ∀ {allowed stem recursive size offset cursor state answer later},
    (∀ key ∈ contents state, allowed key) → Ahead allowed stem recursive size offset cursor →
    may (.more cursor) state answer later →
    Turned (Leaf (Ahead allowed stem recursive size) allowed stem recursive size offset)
      state answer later

end Store

section pages
variable {allowed : Key → Prop} {stem : Key} {recursive : Bool} {size offset : Nat}

theorem Contents.permitted_of_mem_entries {contents : Contents}
    (kept : ∀ key ∈ contents, allowed key) {listed : Listed}
    (shown : listed ∈ contents.entries stem !recursive) :
    listed.Permitted allowed stem recursive := by
  obtain ⟨key, present, below, same⟩ := (mem_entries _).mp shown
  exact ⟨key, kept key present, below, same⟩

theorem S3.Bucket.leaf_pageAt {contents : Contents} (kept : ∀ key ∈ contents, allowed key) :
    Store.Leaf (fun offset cursor => cursor = ⟨stem, recursive, size, Dictionary.tokenAt offset⟩)
      allowed stem recursive size offset
      (pageAt (contents.entries stem !recursive) stem recursive size offset) := by
  have member : ∀ listed ∈ ((contents.entries stem !recursive).drop offset).take size,
      listed.Permitted allowed stem recursive := fun listed shown =>
    contents.permitted_of_mem_entries kept (List.mem_of_mem_drop (List.mem_of_mem_take shown))
  constructor
  · exact fun key shown => member _ (Listed.mem_objects.mp shown)
  · exact fun start shown => member _ (Listed.mem_groups.mp shown)
  · intro cursor follows
    rw [pageAt] at follows
    split at follows
    · rename_i more
      refine ⟨(Option.some.inj follows).symm, fun keys covers => ?_⟩
      have short : (contents.entries stem !recursive).length ≤ keys.length :=
        contents.length_entries_le (!recursive) fun key present _ => covers key (kept key present)
      omega
    · cases follows

/-- A bucket lists afresh for each page, from the offset that its token names. -/
instance S3.Bucket.tame : Store.Tame S3.Cursor where
  State := Contents
  may := S3.Bucket.may
  contents := id
  Ahead _ stem recursive size offset cursor :=
    cursor = ⟨stem, recursive, size, S3.Dictionary.tokenAt offset⟩
  status := id
  createEmpty := id
  copy := id
  delete := id
  list := by
    intro allowed stem recursive size state answer later kept served
    obtain ⟨rfl, shown⟩ := served size rfl
    exact ⟨rfl, shown.imp_left fun same => ⟨_, same, S3.Bucket.leaf_pageAt kept⟩⟩
  more := by
    rintro allowed stem recursive size offset _ state answer later kept rfl served
    obtain ⟨rfl, shown⟩ := served stem recursive size offset rfl
    exact ⟨rfl, shown.imp_left fun same => ⟨_, same, S3.Bucket.leaf_pageAt kept⟩⟩

/-- The cursor holds permitted entries, and no more than so many keys can be listed with them. -/
structure Memory.Cursor.Ahead (allowed : Key → Prop) (stem : Key) (recursive : Bool)
    (size offset : Nat) (cursor : Memory.Cursor) : Prop where
  pageSize : cursor.pageSize = size
  permitted : ∀ listed ∈ cursor.entries, listed.Permitted allowed stem recursive
  within : ∀ keys : List Key, (∀ key, allowed key → key ∈ keys) →
    offset + cursor.entries.length ≤ keys.length

theorem Memory.leaf_page {entries : List Listed}
    (ahead : Memory.Cursor.Ahead allowed stem recursive size offset ⟨entries, size⟩) :
    Store.Leaf (Memory.Cursor.Ahead allowed stem recursive size) allowed stem recursive size offset
      (Memory.page entries size) where
  objects key shown :=
    ahead.permitted _ (List.mem_of_mem_take (Listed.mem_objects.mp shown))
  groups start shown :=
    ahead.permitted _ (List.mem_of_mem_take (Listed.mem_groups.mp shown))
  next cursor follows := by
    simp only [Memory.page] at follows
    split at follows
    · cases follows
    · rename_i more
      obtain rfl := Option.some.inj follows
      have some_left : 0 < (entries.drop size).length :=
        List.length_pos_iff.mpr fun bare => more (List.isEmpty_iff.mpr bare)
      rw [List.length_drop] at some_left
      have within := ahead.within
      refine ⟨⟨rfl, fun listed member => ahead.permitted _ (List.mem_of_mem_drop member), ?_⟩, ?_⟩
      · intro keys covers
        have room := within keys covers
        simp only [List.length_drop] at room ⊢
        omega
      · intro keys covers
        have room := within keys covers
        dsimp only at room
        omega

theorem Memory.leaf_firstPage {contents : Contents} (kept : ∀ key ∈ contents, allowed key) :
    Store.Leaf (Memory.Cursor.Ahead allowed stem recursive size) allowed stem recursive size 0
      (Memory.firstPage (contents.entries stem !recursive) size) := by
  unfold Memory.firstPage
  split
  · rw [Int.toNat_natCast]
    refine Memory.leaf_page ⟨rfl, fun listed => contents.permitted_of_mem_entries kept, ?_⟩
    intro keys covers
    rw [Nat.zero_add]
    exact contents.length_entries_le (!recursive) fun key present _ => covers key (kept key present)
  · exact ⟨nofun, nofun, nofun⟩

/-- A memory whose requests may fail lists once, and cuts its pages from what it found. -/
instance Memory.tame : Store.Tame Memory.Cursor where
  State := Memory
  may := Memory.may fun _ => True
  contents := Memory.contents
  Ahead := Memory.Cursor.Ahead
  status := by
    rintro key memory answer later (⟨rfl, rfl⟩ | ⟨-, ⟨_, rfl⟩, rfl⟩)
    · exact ⟨rfl, _, rfl⟩
    · exact ⟨rfl, _, rfl⟩
  createEmpty := by
    rintro key memory answer later (⟨rfl, rfl⟩ | ⟨-, ⟨_, rfl⟩, rfl⟩)
    · exact .inl ⟨rfl, rfl⟩
    · exact .inr ⟨rfl, rfl⟩
  copy := by
    rintro source destination memory answer later (⟨rfl, rfl⟩ | ⟨-, ⟨_, rfl⟩, rfl⟩)
    · cases found : memory.contents[source]? with
      | none =>
        have served : Memory.serve (.copy source destination) memory = (.ok false, memory) := by
          rw [Memory.serve, found]
        rw [served]
        exact .inr ⟨rfl, rfl⟩
      | some content =>
        have served : Memory.serve (.copy source destination) memory =
            (.ok true, memory.insert destination content) := by rw [Memory.serve, found]
        rw [served]
        exact .inl ⟨content, rfl, rfl⟩
    · exact .inr ⟨rfl, rfl⟩
  delete := by
    rintro key memory answer later (⟨rfl, rfl⟩ | ⟨-, ⟨_, rfl⟩, rfl⟩)
    · exact .inl ⟨rfl, rfl⟩
    · exact .inr ⟨rfl, rfl⟩
  list := by
    rintro allowed stem recursive size memory answer later kept
      (⟨rfl, rfl⟩ | ⟨-, ⟨message, rfl⟩, rfl⟩)
    · exact ⟨rfl, .inl ⟨_, rfl, Memory.leaf_firstPage kept⟩⟩
    · exact ⟨rfl, .inr ⟨_, rfl, rfl⟩⟩
  more := by
    rintro allowed stem recursive size offset ⟨entries, pageSize⟩ memory answer later kept ahead
      (⟨rfl, rfl⟩ | ⟨-, ⟨message, rfl⟩, rfl⟩)
    · obtain rfl : pageSize = size := ahead.pageSize
      exact ⟨rfl, .inl ⟨_, rfl, Memory.leaf_page ahead⟩⟩
    · exact ⟨rfl, .inr ⟨_, rfl, rfl⟩⟩

theorem Memory.serveFaulty_within_tame (faults : Faults) :
    Handler.Within (serveFaulty faults) Faulty.memory tame.may :=
  fun query faulty =>
    (serveFaulty_within faults query faulty).imp_right (And.imp_left fun _ => trivial)

end pages

end KeyTree
