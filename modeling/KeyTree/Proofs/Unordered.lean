import KeyTree.Proofs.Walk

/-!
The order of a listing does not matter. Whatever pages a store gives for a directory, and whether or
not it takes the markers, the entries that are told are the merge of what the pages show. So two
listings that hold the same objects and the same groups tell the same entries, in whatever order and
however often they hold them, and wherever their pages are cut (`children_unordered`).
-/
namespace KeyTree

open Program (Ensures Returns)

variable {Cursor σ : Type}

/-- The behaviour of a store that answers in one way only. -/
def Handler.does {I : Interface} (handler : Handler I σ) : Behaviour I σ :=
  fun query state answer later => (answer, later) = handler query state

theorem Handler.does_within {I : Interface} (handler : Handler I σ) :
    handler.Within id handler.does :=
  fun _ _ => rfl

/-- Where the first part of a sequence ended, its second part goes on. -/
theorem Program.Returns.run_after {I : Interface} {α β : Type} {handler : Handler I σ} {state : σ}
    {first : Program I α} {next : α → Program I β} {value : α} {post : β → Prop}
    (ended : (first.run handler state).result = .ok value)
    (rest : (next value).Returns handler.does (first.run handler state).state
      fun result _ => post result) :
    ∃ result, ((first.bind next).run handler state).result = .ok result ∧ post result := by
  have split := Program.run_bind handler state first next
  generalize first.run handler state = before at *
  obtain ⟨_, notices, exchanges, reached⟩ := before
  obtain rfl := ended
  rw [split, Run.andThen_ok, Run.after_result]
  exact Ensures.run handler.does_within rest

namespace Store

/-- What a page lists. -/
def Page.listed (page : Page Cursor) : List Listed :=
  page.objects.map .object ++ page.groups.map .group

/-- The pages that follow from what a listing began with, whatever becomes of the store in between:
each carries a cursor to the next one, and the last carries none, or one to no page. -/
inductive Delivers (handler : Handler (interface Cursor) σ) :
    Option (Page Cursor) → List (Page Cursor) → Prop where
  | none : Delivers handler none []
  | last {page : Page Cursor} (ends : page.next = .none) : Delivers handler (some page) [page]
  | next {page : Page Cursor} {cursor : Cursor} {following : Option (Page Cursor)}
    {pages : List (Page Cursor)} (follows : page.next = some cursor)
    (turns : ∀ state, (handler (.more cursor) state).1 = .ok following)
    (rest : Delivers handler following pages) : Delivers handler (some page) (page :: pages)

/-- A store that lists the pages of a script, each cursor being the number of a page. Every object
is there, and markers are taken or not. -/
def scripted (pages : List (Page Nat)) (takes : Bool) : Handler (interface Nat) Unit
  | .status _, _ => (.ok (some ⟨0, Memory.writeTimeMs⟩), ())
  | .createEmpty _, _ => (.ok takes, ())
  | .copy _ _, _ | .delete _, _ => (.ok false, ())
  | .list _ _ _, _ => (.ok pages[0]?, ())
  | .more turn, _ => (.ok pages[turn]?, ())
  | .openUpload _, _ | .store _ _, _ => (.ok (), ())

/-- Markers are created, or answered no. -/
def AnswersMarkers (handler : Handler (interface Cursor) σ) : Prop :=
  ∀ key state, ∃ made, (handler (.createEmpty key) state).1 = .ok made

/-- Some page holds the object. -/
def ListsObject (pages : List (Page Cursor)) (key : Key) : Prop :=
  ∃ page ∈ pages, key ∈ page.objects

/-- Some page holds the group. -/
def ListsGroup (pages : List (Page Cursor)) (start : Key) : Prop :=
  ∃ page ∈ pages, start ∈ page.groups

end Store

namespace FileSystem
variable {fs : FileSystem} {handler : Handler (Store.interface Cursor) σ} {state : σ}
  {stem : Key} {children : List Entry} {shown : Entry → Prop} {page : Store.Page Cursor}
  {pages : List (Store.Page Cursor)} {path : Path} {recursive : Bool}

theorem shows_listed {entry : Entry} : fs.Shows stem page.listed entry ↔
    (∃ key ∈ page.objects, entry = .ofListed fs.suffix stem (.object key)) ∨
      ∃ start ∈ page.groups, entry = .ofListed fs.suffix stem (.group start) := by
  rw [Store.Page.listed, shows_append]
  simp only [Shows, List.mem_map, exists_exists_and_eq_and]

/-- What the pages show is told by the objects and the groups that they hold. -/
theorem shows_pages {entry : Entry} : fs.Shows stem (pages.flatMap Store.Page.listed) entry ↔
    (∃ key, Store.ListsObject pages key ∧ entry = .ofListed fs.suffix stem (.object key)) ∨
      ∃ start, Store.ListsGroup pages start ∧ entry = .ofListed fs.suffix stem (.group start) := by
  have paged : fs.Shows stem (pages.flatMap Store.Page.listed) entry ↔
      ∃ page ∈ pages, fs.Shows stem page.listed entry := by
    simp only [Shows, List.mem_flatMap]
    constructor
    · rintro ⟨listed, ⟨page, among, member⟩, same⟩
      exact ⟨page, among, listed, member, same⟩
    · rintro ⟨page, among, listed, member, same⟩
      exact ⟨listed, ⟨page, among, member⟩, same⟩
  rw [paged]
  simp only [shows_listed]
  constructor
  · rintro ⟨page, among, ⟨key, member, same⟩ | ⟨start, member, same⟩⟩
    · exact .inl ⟨key, ⟨page, among, member⟩, same⟩
    · exact .inr ⟨start, ⟨page, among, member⟩, same⟩
  · rintro (⟨key, ⟨page, among, member⟩, same⟩ | ⟨start, ⟨page, among, member⟩, same⟩)
    · exact ⟨page, among, .inl ⟨key, member, same⟩⟩
    · exact ⟨page, among, .inr ⟨start, member, same⟩⟩

/-- Everything on the page stands below the stem. -/
def Below (stem : Key) (page : Store.Page Cursor) : Prop :=
  ∀ key ∈ page.objects ++ page.groups, stem <+: key

section answered
variable (creates : Store.AnswersMarkers handler)
include creates

theorem returns_markGroup_answered (group : Key) :
    (fs.markGroup group).Returns handler.does state fun _ _ => True := by
  have made : (fs.createMarker group).Returns handler.does state fun _ _ => True := by
    intro answer later served
    obtain ⟨made, answered⟩ := creates (fs.markerKey group) state
    rw [← served] at answered
    obtain rfl : answer = .ok made := answered
    exact ⟨made, rfl, trivial⟩
  refine Ensures.notify (Returns.bind made ?_)
  rintro made later -
  cases made with
  | true => exact ⟨(), rfl, trivial⟩
  | false => exact ⟨(), rfl, trivial⟩

/-- A page is merged with what was shown before it. -/
theorem returns_mergePage_shown (below : Below stem page) (merged : Merged children shown) :
    (fs.mergePage stem children page).Returns handler.does state fun result _ =>
      Merged result fun entry => shown entry ∨ fs.Shows stem page.listed entry := by
  have objects : ∀ key ∈ page.objects, .object key ∈ page.listed := fun key member =>
    List.mem_append_left _ (List.mem_map_of_mem member)
  have groups : ∀ start ∈ page.groups, .group start ∈ page.listed := fun start member =>
    List.mem_append_right _ (List.mem_map_of_mem member)
  have keeps : KeepsGroups fs handler.does stem page.listed fun _ _ => True :=
    fun start _ _ _ _ _ _ => returns_markGroup_answered creates start
  obtain ⟨next, made, _, grown⟩ := mergeObjects_merged (fun _ => True)
    (fun _ _ _ _ => trivial) page.objects merged trivial objects
    fun key member => below key (List.mem_append_left _ member)
  rw [mergePage, made]
  apply Ensures.bind_done
  apply Returns.mono (returns_mergeGroups keeps page.groups grown trivial groups
    fun start member => below start (List.mem_append_right _ member))
  rintro result later ⟨-, merged⟩
  exact merged.congr fun entry _ => by rw [shows_listed, or_assoc]

/-- A walk merges all pages that are delivered. -/
theorem returns_walk_delivered (delivers : Store.Delivers handler (some page) pages) {limit : Nat}
    (room : pages.length ≤ limit) (below : ∀ page ∈ pages, Below stem page)
    (merged : Merged children shown) :
    (Store.Page.walk (fs.mergePage stem) limit children page).Returns handler.does state
      fun result _ => Merged result fun entry =>
        shown entry ∨ fs.Shows stem (pages.flatMap Store.Page.listed) entry := by
  -- On the pages that follow; each visit adds what its page shows.
  induction pages generalizing page limit children shown state with
  | nil => cases delivers
  | cons first pages ih =>
    obtain ⟨limit, rfl⟩ := Nat.exists_eq_succ_of_ne_zero (Nat.ne_of_gt (Nat.zero_lt_of_lt room))
    cases delivers with
    | last ends =>
      apply Returns.bind (returns_mergePage_shown creates (below _ List.mem_cons_self) merged)
      intro result later merged
      rw [ends, List.flatMap_singleton]
      exact ⟨result, rfl, merged⟩
    | @next _ _ following _ follows turns rest =>
      apply Returns.bind (returns_mergePage_shown creates (below _ List.mem_cons_self) merged)
      intro result later merged
      rw [follows, List.flatMap_cons]
      intro answer final served
      obtain rfl : answer = .ok following := (congrArg Prod.fst served).trans (turns later)
      cases following with
      | none =>
        cases rest
        exact ⟨result, rfl, merged.congr fun entry _ => by rw [List.flatMap_nil, List.append_nil]⟩
      | some following =>
        apply Returns.mono (ih rest (Nat.le_of_succ_le_succ room)
          (fun page among => below page (List.mem_cons_of_mem _ among)) merged)
        exact fun result _ merged => merged.congr fun entry _ => by rw [shows_append, or_assoc]

end answered

/-- The path is a directory, and these are the pages that its listing comes to. -/
structure Lists (fs : FileSystem) (handler : Handler (Store.interface Cursor) σ) (state : σ)
    (path : Path) (recursive : Bool) (pages : List (Store.Page Cursor)) : Prop where
  directory : ((fs.isDirectory path).run handler state).result = .ok true
  delivers : ∃ pageSize first, fs.settings.pageSize = .ok pageSize ∧
    (handler (.list (fs.root.stem path) recursive pageSize)
      ((fs.isDirectory path).run handler state).state).1 = .ok first ∧
    Store.Delivers handler first pages
  below : ∀ page ∈ pages, Below (fs.root.stem path) page

/-- A listing tells the merge of what its pages show, and nothing if there is no page at all. -/
theorem run_children_delivered (lists : fs.Lists handler state path recursive pages)
    (creates : Store.AnswersMarkers handler) (room : pages.length ≤ fs.limits.pages) :
    ∃ told, ((fs.children path recursive).run handler state).result = .ok told ∧
      (told = none ↔ pages = []) ∧
      Merged (told.getD [])
        (fs.Shows (fs.root.stem path) (pages.flatMap Store.Page.listed)) := by
  obtain ⟨directory, ⟨pageSize, first, read, served, delivers⟩, below⟩ := lists
  rw [children, Program.bind_eq_bind]
  refine Returns.run_after directory ?_
  rw [if_pos rfl, read]
  apply Ensures.bind_done
  intro answer later given
  obtain rfl : answer = .ok first := (congrArg Prod.fst given).trans served
  cases first with
  | none =>
    cases delivers
    exact ⟨none, rfl, by simp, Merged.nil.congr fun entry _ => by simp [Shows]⟩
  | some first =>
    have given : pages ≠ [] := by
      rintro rfl
      cases delivers
    apply Returns.bind (returns_walk_delivered creates delivers room below .nil)
    intro children final merged
    exact ⟨some children, rfl, by simp [given], merged.congr fun entry _ => by rw [false_or]⟩

/-- Two listings of a directory that hold the same objects and the same groups tell the same
entries, each name once and none of them empty: in whatever order and however often they hold them,
wherever their pages are cut, and whether or not the markers are created. -/
theorem children_unordered {τ Other : Type} {handler : Handler (Store.interface Cursor) σ}
    {other : Handler (Store.interface Other) τ} {state : σ} {start : τ} {path : Path}
    {recursive : Bool} {pages : List (Store.Page Cursor)} {others : List (Store.Page Other)}
    (lists : fs.Lists handler state path recursive pages)
    (also : fs.Lists other start path recursive others)
    (creates : Store.AnswersMarkers handler) (marks : Store.AnswersMarkers other)
    (room : pages.length ≤ fs.limits.pages) (space : others.length ≤ fs.limits.pages)
    (objects : ∀ key, Store.ListsObject pages key ↔ Store.ListsObject others key)
    (groups : ∀ start, Store.ListsGroup pages start ↔ Store.ListsGroup others start) :
    ∃ told again, ((fs.children path recursive).run handler state).result = .ok told ∧
      ((fs.children path recursive).run other start).result = .ok again ∧
      (told = none ↔ pages = []) ∧ (again = none ↔ others = []) ∧
      (∀ entry, entry ∈ told.getD [] ↔ entry ∈ again.getD []) ∧
      ∀ children ∈ [told.getD [], again.getD []],
        (children.map Entry.name).Nodup ∧ ∀ entry ∈ children, entry.name ≠ [] := by
  obtain ⟨told, answered, given, merged⟩ := run_children_delivered lists creates room
  obtain ⟨again, repeated, has, second⟩ := run_children_delivered also marks space
  have same : Merged (again.getD [])
      (fs.Shows (fs.root.stem path) (pages.flatMap Store.Page.listed)) :=
    second.congr fun entry _ => by simp only [shows_pages, objects, groups]
  refine ⟨told, again, answered, repeated, given, has, fun entry => merged.mem_iff same, ?_⟩
  intro children either
  rcases List.mem_pair.mp either with rfl | rfl
  · exact ⟨merged.once, merged.named⟩
  · exact ⟨second.once, second.named⟩

/-- A file that is also a marker, a file and a group: on one page, and on two pages in another order
with repetitions, where the marker of the group is not created. -/
theorem children_unordered_scripted :
    let whole : List (Store.Page Nat) :=
      [{ objects := ["a/x".toList, "a/x_$folder$".toList, "a/y".toList]
         groups := ["a/z/".toList] }]
    let torn : List (Store.Page Nat) :=
      [{ objects := ["a/y".toList, "a/x_$folder$".toList]
         groups := ["a/z/".toList], next := some 1 },
       { objects := ["a/x".toList, "a/y".toList], groups := ["a/z/".toList] }]
    usual.Lists (Store.scripted whole true) () "a".toList false whole ∧
    usual.Lists (Store.scripted torn false) () "a".toList false torn ∧
    (∀ key, Store.ListsObject whole key ↔ Store.ListsObject torn key) ∧
    (∀ start, Store.ListsGroup whole start ↔ Store.ListsGroup torn start) ∧
    ∃ told again,
      ((usual.children "a".toList false).run (Store.scripted whole true) ()).result = .ok told ∧
      ((usual.children "a".toList false).run (Store.scripted torn false) ()).result = .ok again ∧
      (told = none ↔ whole = []) ∧ (again = none ↔ torn = []) ∧
      (∀ entry, entry ∈ told.getD [] ↔ entry ∈ again.getD []) ∧
      ∀ children ∈ [told.getD [], again.getD []],
        (children.map Entry.name).Nodup ∧ ∀ entry ∈ children, entry.name ≠ [] := by
  intro whole torn
  have lists : usual.Lists (Store.scripted whole true) () "a".toList false whole :=
    { directory := by decide +kernel
      delivers := ⟨_, _, Settings.pageSize_integer rfl, rfl, .last rfl⟩
      below := by unfold Below; decide +kernel }
  have also : usual.Lists (Store.scripted torn false) () "a".toList false torn :=
    { directory := by decide +kernel
      delivers := ⟨_, _, Settings.pageSize_integer rfl, rfl, .next rfl (fun _ => rfl) (.last rfl)⟩
      below := by unfold Below; decide +kernel }
  have objects : ∀ key, Store.ListsObject whole key ↔ Store.ListsObject torn key := by
    intro key
    simp only [Store.ListsObject, whole, torn, List.mem_cons, List.not_mem_nil, or_false,
      exists_eq_or_imp, exists_eq_left]
    tauto
  have groups : ∀ start, Store.ListsGroup whole start ↔ Store.ListsGroup torn start := by
    intro start
    simp only [Store.ListsGroup, whole, torn, List.mem_cons, List.not_mem_nil, or_false,
      exists_eq_or_imp, exists_eq_left, or_self]
  exact ⟨lists, also, objects, groups, children_unordered lists also
    (fun _ _ => ⟨true, rfl⟩) (fun _ _ => ⟨false, rfl⟩) (by decide) (by decide) objects groups⟩

end FileSystem
end KeyTree
