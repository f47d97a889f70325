import KeyTree.Proofs.Children
import KeyTree.Proofs.Live

/-!
Pages of a bucket, one after the other. The entries of a listing stand in order, each once. A client
that answers with so many of them from the offset of a token, and tells a token for the rest exactly
if there is one, is asked for page after page with the token of the response before, and with nothing
else changed. So the pages are the entries cut into parts of one size, and each page is asked for only
when it is taken (`pages_delivered`).
-/
namespace KeyTree

open KeyTree.Path (separator)
open Std (TransCmp OrientedCmp)

namespace Key
variable {short long key other : Key}

/-- The order of keys in a store. -/
def Before (key other : Key) : Prop := compare key other = .lt

theorem not_before_start (within : short <+: long) : ¬ Before long short := by
  obtain ⟨rest, rfl⟩ := within
  induction short with
  | nil => cases rest <;> exact nofun
  | cons c short ih => simpa [Before, List.compare_cons_cons, Std.ReflCmp.compare_self] using ih

/-- Between a key and a longer one that it starts there are only keys that it starts. -/
theorem prefix_of_between (within : short <+: long) (low : ¬ Before key short)
    (high : Before key long) : short <+: key := by
  obtain ⟨rest, rfl⟩ := within
  induction short generalizing key with
  | nil => exact List.nil_prefix
  | cons c short ih =>
    cases key with
    | nil => exact absurd rfl low
    | cons d key =>
      simp only [Before, List.cons_append, List.compare_cons_cons, Ordering.then_eq_lt] at low high
      rcases high with less | ⟨same, high⟩
      · exact absurd (.inl less) low
      · rw [Std.LawfulEqCmp.compare_eq_iff_eq] at same
        subst same
        rw [List.cons_prefix_cons]
        exact ⟨rfl, ih (fun less => low (.inr ⟨Std.ReflCmp.compare_self, less⟩)) high⟩

/-- What starts a key stands before all that the key stands before. -/
theorem before_of_start (within : short <+: long) (less : Before long other) :
    Before short other := by
  cases order : compare short other with
  | lt => exact order
  | eq =>
    rw [Std.LawfulEqCmp.compare_eq_iff_eq] at order
    exact absurd (order ▸ less) (not_before_start within)
  | gt =>
    exact absurd (TransCmp.lt_trans less (OrientedCmp.lt_of_gt order)) (not_before_start within)

end Key

namespace Listed
variable {stem key other : Key} {grouped : Bool}

/-- A key is listed as it is, or under the first part that a separator ends. -/
theorem ofKey_cases (grouped : Bool) (below : stem <+: key) :
    (ofKey stem grouped key = .object key ∧ (grouped = true → separator ∉ key.drop stem.length)) ∨
      grouped = true ∧ ∃ name, separator ∉ name ∧ stem ++ name ++ [separator] <+: key ∧
        ofKey stem grouped key = .group (stem ++ name ++ [separator]) := by
  obtain ⟨rest, rfl⟩ := below
  rw [List.drop_left]
  by_cases cut : grouped = true ∧ separator ∈ rest
  · obtain ⟨rfl, cut⟩ := cut
    obtain ⟨name, later, rfl, first⟩ := List.eq_append_cons_of_mem cut
    refine .inr ⟨rfl, name, first, ⟨later, by simp⟩, ?_⟩
    rw [Contents.ofKey_append_group stem first]
  · refine .inl ⟨?_, fun isGrouped inside => cut ⟨isGrouped, inside⟩⟩
    rw [ofKey, List.drop_left, if_neg (by simpa using cut)]

/-- The entries stand in this order, or they are one group. -/
def Ordered (first second : Listed) : Prop :=
  Key.Before first.start second.start ∨ first = second ∧ ∃ start, first = .group start

/-- Keys in order are listed in order. -/
theorem ordered_ofKey (below : stem <+: key) (also : stem <+: other) (less : Key.Before key other) :
    Ordered (ofKey stem grouped key) (ofKey stem grouped other) := by
  rcases ofKey_cases grouped below with
    ⟨same, whole⟩ | ⟨_, name, first, inside, same⟩ <;>
  rcases ofKey_cases grouped also with
    ⟨shown, _⟩ | ⟨isGrouped, next, _, within, shown⟩
  · rw [same, shown]
    exact .inl less
  · rw [same, shown]
    by_contra high
    have starts : stem ++ next ++ [separator] <+: key :=
      Key.prefix_of_between within (fun low => high (.inl low)) less
    obtain ⟨rest, rfl⟩ := starts
    apply whole isGrouped
    simp
  · rw [same, shown]
    exact .inl (Key.before_of_start inside less)
  · rw [same, shown]
    cases order : compare (stem ++ name ++ [separator]) (stem ++ next ++ [separator]) with
    | lt => exact .inl order
    | eq =>
      rw [Std.LawfulEqCmp.compare_eq_iff_eq] at order
      exact .inr ⟨by rw [order], _, rfl⟩
    | gt =>
      have starts : stem ++ next ++ [separator] <+: stem ++ name ++ [separator] :=
        Key.prefix_of_between within (fun low => by
          rw [Key.Before, order] at low
          cases low) (Key.before_of_start inside less)
      rw [stem_prefix_stem] at starts
      rcases starts with same | ⟨rest, same⟩
      · rw [List.append_cancel_left same]
        exact .inr ⟨rfl, _, rfl⟩
      · rw [List.append_assoc, List.append_assoc, List.append_cancel_left_eq] at same
        exact absurd (same ▸ first) (by simp)

/-- What is left of ordered entries stands in order, each once. -/
theorem oncePerGroup_ordered {entries : List Listed} (seen : List Key)
    (ordered : entries.Pairwise Ordered) :
    (oncePerGroup seen entries).Pairwise fun first second =>
      Key.Before first.start second.start := by
  -- Only groups can repeat what is before them, and what is left of those is new.
  induction ordered generalizing seen with
  | nil => exact .nil
  | @cons first later follows _ ih =>
    cases first with
    | object key =>
      refine .cons (fun second member => ?_) (ih seen)
      have member := ((mem_oncePerGroup seen later).mp member).1
      rcases follows second member with less | ⟨_, _, ⟨⟩⟩
      exact less
    | group start =>
      rw [oncePerGroup]
      split
      · exact ih seen
      · refine .cons (fun second member => ?_) (ih _)
        obtain ⟨member, unseen⟩ := (mem_oncePerGroup _ later).mp member
        rcases follows second member with less | ⟨rfl, _⟩
        · exact less
        · exact absurd rfl (unseen start List.mem_cons_self)

end Listed

/-- A listing is in the order of what its entries show, and shows nothing twice. -/
theorem Contents.entries_ordered (contents : Contents) (stem : Key) (grouped : Bool) :
    (contents.entries stem grouped).Pairwise fun first second =>
      Key.Before first.start second.start := by
  apply Listed.oncePerGroup_ordered
  rw [List.pairwise_map]
  refine (Std.ExtTreeMap.ordered_keys.filter _).imp_of_mem fun below also less => ?_
  exact Listed.ordered_ofKey (of_decide_eq_true (List.mem_filter.mp below).2)
    (of_decide_eq_true (List.mem_filter.mp also).2) less

namespace Listed
variable {size : Nat} {entries : List Listed}

/-- The entries in parts of one size. There is always a part, and only the last can be shorter. -/
def cut (size : Nat) (entries : List Listed) : List (List Listed) :=
  if 0 < size ∧ size < entries.length then entries.take size :: cut size (entries.drop size)
  else [entries]
termination_by entries.length
decreasing_by
  rw [List.length_drop]
  omega

theorem cut_flatten (size : Nat) (entries : List Listed) : (cut size entries).flatten = entries := by
  induction entries using cut.induct size with
  | case1 entries more ih =>
    rw [cut, if_pos more, List.flatten_cons, ih, List.take_append_drop]
  | case2 entries last => rw [cut, if_neg last, List.flatten_singleton]

theorem cut_ne_nil (size : Nat) (entries : List Listed) : cut size entries ≠ [] := by
  rw [cut]
  split <;> exact List.cons_ne_nil _ _

theorem length_of_mem_cut {part : List Listed} (positive : 0 < size)
    (member : part ∈ cut size entries) : part.length ≤ size := by
  induction entries using cut.induct size with
  | case1 entries more ih =>
    rw [cut, if_pos more, List.mem_cons] at member
    rcases member with rfl | later
    · exact List.length_take_le _ _
    · exact ih later
  | case2 entries last =>
    rw [cut, if_neg last, List.mem_singleton] at member
    subst member
    exact Nat.not_lt.mp fun more => last ⟨positive, more⟩

theorem length_of_mem_cut_dropLast {part : List Listed}
    (member : part ∈ (cut size entries).dropLast) : part.length = size := by
  induction entries using cut.induct size with
  | case1 entries more ih =>
    rw [cut, if_pos more, List.dropLast_cons_of_ne_nil (cut_ne_nil _ _), List.mem_cons] at member
    rcases member with rfl | later
    · rw [List.length_take, Nat.min_eq_left (Nat.le_of_lt more.2)]
    · exact ih later
  | case2 entries last =>
    rw [cut, if_neg last] at member
    cases member

/-- The first part, and the parts of what is behind it. -/
theorem cut_eq (positive : 0 < size) : cut size entries =
    entries.take size ::
      if size < entries.length then cut size (entries.drop size) else [] := by
  rw [cut]
  by_cases more : size < entries.length
  · rw [if_pos ⟨positive, more⟩, if_pos more]
  · rw [if_neg fun both => more both.2, if_neg more, List.take_of_length_le (Nat.not_lt.mp more)]

theorem objects_flatten (parts : List (List Listed)) :
    objects parts.flatten = parts.flatMap objects := by
  rw [objects, List.filterMap_flatten, List.flatMap_def]
  rfl

theorem groups_flatten (parts : List (List Listed)) :
    groups parts.flatten = parts.flatMap groups := by
  rw [groups, List.filterMap_flatten, List.flatMap_def]
  rfl

/-- What a page of these entries shows: its keys, and its common starts. -/
def split (entries : List Listed) : List Key × List Key := (objects entries, groups entries)

end Listed

/-- What a page shows. -/
def Store.Page.shown {Cursor : Type} (page : Store.Page Cursor) : List Key × List Key :=
  (page.objects, page.groups)

/-- Pages that show parts of some entries show them all. -/
theorem Store.Page.shown_flatten {Cursor : Type} {pages : List (Store.Page Cursor)}
    {parts : List (List Listed)} (same : pages.map shown = parts.map Listed.split) :
    pages.flatMap objects = Listed.objects parts.flatten ∧
      pages.flatMap groups = Listed.groups parts.flatten := by
  have keys := congrArg (List.flatMap Prod.fst) same
  have starts := congrArg (List.flatMap Prod.snd) same
  rw [List.flatMap_map, List.flatMap_map] at keys starts
  rw [Listed.objects_flatten, Listed.groups_flatten]
  exact ⟨keys, starts⟩

/-- Keeps a page behind those before it. -/
def Store.Page.keep {Cursor : Type} (before : List (Store.Page Cursor)) (page : Store.Page Cursor) :
    Store.Action Cursor (List (Store.Page Cursor)) :=
  pure (before ++ [page])

/-- All pages of a listing that has begun, if there are no more than the limit. -/
def Store.Page.all {Cursor : Type} (limit : Nat) :
    Option (Store.Page Cursor) → Store.Action Cursor (List (Store.Page Cursor))
  | none => pure []
  | some first => walk keep limit [] first

namespace S3

/-- The response shows so many of the entries from a start on, and it has a token for what is behind
them exactly if there is more. -/
structure Listing.Shows (offset : Token → Option Nat) (entries : List Listed) (start size : Nat)
    (response : Listing) : Prop where
  keys : response.keys = (Listed.objects ((entries.drop start).take size)).map some
  groups : response.groups = (Listed.groups ((entries.drop start).take size)).map some
  more : (response.truncated = true ∧ ∃ token, response.nextToken = some token ∧ token ≠ []) ↔
    start + size < entries.length
  next : ∀ token, start + size < entries.length → response.nextToken = some token →
    offset token = some (start + size)

/-- The offset that a token names, if it counts from the start. -/
def Dictionary.start? (token : Token) : Option Nat :=
  match offset (some token) with
  | .ok (.ofNat start) => some start
  | _ => none

theorem Dictionary.offset_of_start? {token : Option Token} {start : Nat}
    (started : token.elim (some 0) start? = some start) : offset token = .ok (start : Int) := by
  cases token with
  | none =>
    cases started
    rfl
  | some token =>
    rw [Option.elim_some, start?] at started
    split at started
    · rename_i value read
      cases started
      exact read
    · cases started

namespace Bucket
variable {σ : Type} {client : Handler S3.client σ} {held : σ → Contents}
  {offset : Token → Option Nat}

/-- What is asked for a page of a listing. -/
def pageQuery (bucket : Bucket) (stem : Key) (recursive : Bool) (pageSize : Int)
    (token : Option Token) : ListQuery where
  bucket := bucket.name
  maxKeys := pageSize
  stem := if stem = [] then none else some stem
  delimiter := if recursive then none else some [separator]
  token := token

/-- The client lists the objects that it holds in this bucket from the offset of the token, or from
the start where none is given, and holds the same objects afterwards. -/
structure PagedBy (bucket : Bucket) (client : Handler S3.client σ) (held : σ → Contents)
    (offset : Token → Option Nat) : Prop where
  shows : ∀ (query : ListQuery) (start size : Nat) (recursive : Bool) (state : σ),
    query.bucket = bucket.name → query.token.elim (some 0) offset = some start →
    0 < size → query.maxKeys = size →
    query.delimiter = (if recursive then none else some [separator]) →
    ∃ response, (client (.list query) state).1 = .ok (.ok response) ∧
      response.Shows offset ((held state).entries (query.stem.getD []) !recursive) start size
  holds : ∀ query state, held (client (.list query) state).2 = held state

/-- A dictionary lists as much as it is asked for. -/
theorem pagedBy_dictionary (bucket : Bucket) :
    bucket.PagedBy Dictionary.serve id Dictionary.start? where
  shows query start size recursive contents _ started _ sized grouped := by
    have isGrouped : query.delimiter.isSome = !recursive := by
      rw [grouped, isSome_delimiter]
    have answers : Dictionary.answerList contents query = .ok (Dictionary.listing
        (contents.entries (query.stem.getD []) !recursive) start size) := by
      simp only [Dictionary.answerList, Dictionary.offset_of_start? started, isGrouped, sized]
      rfl
    refine ⟨_, by simp only [Dictionary.serve, answers]; rfl, ?_⟩
    rw [listing_natCast]
    refine ⟨rfl, rfl, ?_, fun token more told => ?_⟩
    · constructor
      · exact fun told => of_decide_eq_true told.1
      · intro more
        exact ⟨decide_eq_true more, _, if_pos more, Dictionary.tokenAt_ne_nil _⟩
    · dsimp only [id] at more told
      rw [if_pos more, Option.some.injEq] at told
      rw [← told, Dictionary.start?, Dictionary.offset_tokenAt]
  holds query contents := by
    rw [Dictionary.serve]
    split <;> rfl

/-- The calls ask for one listing, each with the token of the response before it. -/
def Chained (query : Option Token → ListQuery) :
    Option Token → List (Exchange S3.client) → Prop
  | _, [] => True
  | token, exchange :: later => ∃ response : Listing,
    exchange = ⟨.list (query token), .ok (.ok response)⟩ ∧ Chained query response.nextToken later

/-- The page shows the entries behind a start, and goes on where it ends with the token of its
response. -/
structure Delivered (offset : Token → Option Nat) (entries : List Listed) (stem : Key) (recursive : Bool)
    (size start : Nat) (response : Listing) (page : Store.Page Cursor) : Prop where
  shown : page.shown = Listed.split ((entries.drop start).take size)
  last : ¬ size < (entries.drop start).length → page.next = none
  more : size < (entries.drop start).length → ∃ token, response.nextToken = some token ∧
    offset token = some (start + size) ∧ page.next = some ⟨stem, recursive, size, token⟩

section run
variable {bucket : Bucket} {entries : List Listed} {stem : Key} {recursive : Bool}
  {size start : Nat} {response : Listing} {page : Store.Page Cursor} {state : σ}

theorem pageOf_shows (stem : Key) (recursive : Bool)
    (shows : response.Shows offset entries start size) :
    ∃ page, pageOf stem recursive size response = .ok page ∧
      Delivered offset entries stem recursive size start response page := by
  rw [pageOf, shows.keys, shows.groups, mapM_required, mapM_required]
  refine ⟨_, rfl, rfl, fun last => ?_, fun more => ?_⟩
  · have ended : ¬ (response.truncated = true ∧
        ∃ token, response.nextToken = some token ∧ token ≠ []) := by
      rw [shows.more]
      rw [List.length_drop] at last
      omega
    cases told : response.nextToken with
    | none => rfl
    | some token =>
      dsimp only
      rw [if_neg]
      intro goesOn
      rw [Bool.and_eq_true, decide_eq_true_eq] at goesOn
      exact ended ⟨goesOn.1, token, told, goesOn.2⟩
  · rw [List.length_drop] at more
    have inside : start + size < entries.length := by omega
    obtain ⟨truncated, token, told, given⟩ := shows.more.mpr inside
    refine ⟨token, told, shows.next token inside told, ?_⟩
    simp only [told, truncated, given, ne_eq, not_false_eq_true, decide_true, Bool.and_self,
      if_true]

variable (paged : bucket.PagedBy client held offset) (positive : 0 < size)
  (same : (held state).entries stem (!recursive) = entries)
include paged positive same

/-- A page takes one call of the client. -/
theorem run_fetch_paged {token : Option Token} (started : token.elim (some 0) offset = some start) :
    ∃ response page later, (bucket.fetch stem recursive size token).run client state =
        ⟨.ok (some page), [], [⟨.list (bucket.pageQuery stem recursive size token),
          .ok (.ok response)⟩], later⟩ ∧ held later = held state ∧
      Delivered offset entries stem recursive size start response page := by
  obtain ⟨response, answered, shows⟩ := paged.shows
    (bucket.pageQuery stem recursive size token) start size recursive state rfl started positive
    rfl rfl
  simp only [pageQuery, getD_stem, same] at shows
  obtain ⟨page, made, delivered⟩ := pageOf_shows stem recursive shows
  refine ⟨response, page, (client (.list (bucket.pageQuery stem recursive size token)) state).2, ?_,
    paged.holds _ state, delivered⟩
  have asked : bucket.fetch stem recursive size token =
      (list (bucket.pageQuery stem recursive size token)).bind _ := rfl
  rw [asked, Program.run_bind, list, Program.run_request, answered, Run.andThen_ok]
  simp only [made]
  rfl

/-- So does the page behind one that goes on. -/
theorem run_more_paged
    (delivered : Delivered offset entries stem recursive size start response page)
    (goesOn : size < (entries.drop start).length) :
    ∃ cursor next behind later, page.next = some cursor ∧
      ((Store.more cursor).servedBy bucket.serve).run client state =
        ⟨.ok (some behind), [], [⟨.list (bucket.pageQuery stem recursive size response.nextToken),
          .ok (.ok next)⟩], later⟩ ∧ held later = held state ∧
      Delivered offset entries stem recursive size (start + size) next behind := by
  obtain ⟨token, told, named, cursor⟩ := delivered.more goesOn
  have started : (some token).elim (some 0) offset = some (start + size) := named
  obtain ⟨next, behind, later, fetched, kept, follows⟩ :=
    run_fetch_paged paged positive same started
  refine ⟨_, next, behind, later, cursor, ?_, kept, follows⟩
  rw [told]
  exact (Program.run_servedBy_request client state _).trans fetched

/-- Each page that is taken behind the first one takes one more call. -/
theorem run_take_paged (count : Nat)
    (delivered : Delivered offset entries stem recursive size start response page) :
    ∃ pages exchanges later,
      ((Store.Page.take (count + 1) (some page)).servedBy bucket.serve).run client state =
        ⟨.ok (pages, none), [], exchanges, later⟩ ∧ held later = held state ∧
      pages.map Store.Page.shown =
        ((Listed.cut size (entries.drop start)).take (count + 1)).map Listed.split ∧
      exchanges.length + 1 = pages.length ∧
      Chained (bucket.pageQuery stem recursive size) response.nextToken exchanges := by
  -- The page in hand moves on with its start, and what is behind it is what is left to cut.
  induction count generalizing start response page state with
  | zero =>
    refine ⟨[page], [], state, rfl, rfl, ?_, rfl, trivial⟩
    rw [Listed.cut_eq positive, List.take_succ_cons, List.take_zero]
    exact congrArg (· :: []) delivered.shown
  | succ count ih =>
    rw [Listed.cut_eq positive, List.take_succ_cons, List.map_cons, ← delivered.shown]
    by_cases goesOn : size < (entries.drop start).length
    · obtain ⟨cursor, next, behind, later, told, fetched, kept, follows⟩ :=
        run_more_paged paged positive same delivered goesOn
      obtain ⟨pages, exchanges, final, taken, still, shown, counted, chained⟩ :=
        ih (by rw [kept, same]) follows
      refine ⟨page :: pages, _ :: exchanges, final, ?_, still.trans kept, ?_,
        congrArg Nat.succ counted, next, rfl, chained⟩
      · rw [Store.Page.take, told]
        simp only [Program.bind_eq_bind, Program.servedBy_bind, Program.run_bind,
          Program.run_servedBy_outcome, fetched, taken, Run.andThen_ok, Program.pure_eq_done,
          Program.servedBy, Program.run_done, Run.after, List.append_nil]
        rfl
      · rw [if_pos goesOn, List.drop_drop, ← shown, List.map_cons]
    · refine ⟨[page], [], state, ?_, rfl, ?_, rfl, trivial⟩
      · rw [Store.Page.take, delivered.last goesOn]
        rfl
      · rw [if_neg goesOn]
        rfl

/-- A walk within the limit collects every page, with one call for each. -/
theorem run_walk_paged (limit : Nat) (before : List (Store.Page Cursor))
    (delivered : Delivered offset entries stem recursive size start response page)
    (room : (Listed.cut size (entries.drop start)).length ≤ limit) :
    ∃ pages exchanges later,
      ((Store.Page.walk Store.Page.keep limit before page).servedBy bucket.serve).run client
          state = ⟨.ok (before ++ pages), [], exchanges, later⟩ ∧ held later = held state ∧
      pages.map Store.Page.shown = (Listed.cut size (entries.drop start)).map Listed.split ∧
      exchanges.length + 1 = pages.length ∧
      Chained (bucket.pageQuery stem recursive size) response.nextToken exchanges := by
  -- The parts that are left are one fewer with each page, as is the limit.
  induction limit generalizing start response page state before with
  | zero => exact absurd (List.length_eq_zero_iff.mp (Nat.le_zero.mp room)) (Listed.cut_ne_nil _ _)
  | succ limit ih =>
    rw [Listed.cut_eq positive] at room
    rw [Listed.cut_eq positive, List.map_cons, ← delivered.shown]
    by_cases goesOn : size < (entries.drop start).length
    · obtain ⟨cursor, next, behind, later, told, fetched, kept, follows⟩ :=
        run_more_paged paged positive same delivered goesOn
      rw [if_pos goesOn, List.drop_drop, List.length_cons] at room
      obtain ⟨pages, exchanges, final, walked, still, shown, counted, chained⟩ :=
        ih (by rw [kept, same]) (before ++ [page]) follows (Nat.le_of_succ_le_succ room)
      refine ⟨page :: pages, _ :: exchanges, final, ?_, still.trans kept, ?_,
        congrArg Nat.succ counted, next, rfl, chained⟩
      · rw [Store.Page.walk, told]
        simp only [Store.Page.keep, Program.bind_eq_bind, Program.pure_eq_done, Program.bind,
          Program.servedBy_bind, Program.run_bind, fetched, walked, Run.andThen_ok,
          List.append_assoc]
        rfl
      · rw [if_pos goesOn, List.drop_drop, ← shown, List.map_cons]
    · refine ⟨[page], [], state, ?_, rfl, ?_, rfl, trivial⟩
      · rw [Store.Page.walk, delivered.last goesOn]
        rfl
      · rw [if_neg goesOn]
        rfl

omit same in
/-- The pages of a listing are its entries in order, each once, and so many on every page but the
last. A walk ends with all of them. A listing has its first page at once, and each page that is taken
has made one call, with the same bucket, size, stem and delimiter, and with the token of the response
before it. -/
theorem pages_delivered (state : σ) (stem : Key) (recursive : Bool) :
    let entries := (held state).entries stem !recursive
    let parts := Listed.cut size entries
    let query := bucket.pageQuery stem recursive size
    (entries.Pairwise fun first second => Key.Before first.start second.start) ∧
    parts.flatten = entries ∧ (∀ part ∈ parts.dropLast, part.length = size) ∧
    (∀ part ∈ parts, part.length ≤ size) ∧
    (∀ limit, parts.length ≤ limit →
      let walked := (((Store.list stem recursive size).bind (Store.Page.all limit)).servedBy
        bucket.serve).run client state
      ∃ pages, walked.result = .ok pages ∧ pages.map Store.Page.shown = parts.map Listed.split ∧
        pages.flatMap Store.Page.objects = Listed.objects entries ∧
        pages.flatMap Store.Page.groups = Listed.groups entries ∧
        walked.exchanges.length = pages.length ∧ Chained query none walked.exchanges) ∧
    ∀ count, 0 < count →
      let taken := (((Store.list stem recursive size).bind (Store.Page.take count)).servedBy
        bucket.serve).run client state
      ∃ pages, taken.result = .ok (pages, none) ∧
        pages.map Store.Page.shown = (parts.take count).map Listed.split ∧
        taken.exchanges.length = min count parts.length ∧ Chained query none taken.exchanges := by
  intro entries parts query
  have same : (held state).entries stem (!recursive) = entries := rfl
  have started : (none : Option Token).elim (some 0) offset = some 0 := rfl
  obtain ⟨response, first, later, fetched, kept, delivered⟩ :=
    run_fetch_paged paged positive same started
  have listed : ((Store.list stem recursive size).servedBy bucket.serve).run client state = _ :=
    (Program.run_servedBy_request client state _).trans fetched
  refine ⟨Contents.entries_ordered _ _ _, Listed.cut_flatten _ _,
    fun part => Listed.length_of_mem_cut_dropLast, fun part => Listed.length_of_mem_cut positive,
    fun limit room => ?_, fun count taken => ?_⟩
  · obtain ⟨pages, exchanges, final, walked, _, shown, counted, chained⟩ :=
      run_walk_paged paged positive (by rw [kept]) limit [] delivered room
    rw [Program.servedBy_bind, Program.run_bind, listed, Run.andThen_ok, Store.Page.all, walked]
    obtain ⟨keys, starts⟩ := Store.Page.shown_flatten shown
    rw [Listed.cut_flatten] at keys starts
    exact ⟨pages, rfl, shown, keys, starts, counted, response, rfl, chained⟩
  · obtain ⟨count, rfl⟩ := Nat.exists_eq_succ_of_ne_zero (Nat.ne_of_gt taken)
    obtain ⟨pages, exchanges, final, taken, _, shown, counted, chained⟩ :=
      run_take_paged paged positive (by rw [kept]) count delivered
    rw [Program.servedBy_bind, Program.run_bind, listed, Run.andThen_ok, taken]
    refine ⟨pages, rfl, shown, ?_, response, rfl, chained⟩
    have counts := congrArg List.length shown
    rw [List.length_map, List.length_map, List.length_take] at counts
    exact counted.trans counts

end run

/-- A key, two groups and another key, two to a page. -/
theorem pages_delivered_dictionary :
    let bucket : Bucket := ⟨"bucket".toList, "_$folder$".toList, by decide⟩
    let contents := (Memory.holding [("d/a".toList, [120]), ("d/b/x".toList, [121]),
      ("d/b/y".toList, [122]), ("d/c/x".toList, [123]), ("d/e".toList, [124])]).contents
    let taken (count : Nat) := (((Store.list "d/".toList false 2).bind
      (Store.Page.take count)).servedBy bucket.serve).run Dictionary.serve contents
    bucket.PagedBy Dictionary.serve id Dictionary.start? ∧
    (contents.entries "d/".toList true).length = 4 ∧
    (taken 1).exchanges.length = 1 ∧ (taken 2).exchanges.length = 2 ∧
    ∃ pages, (taken 2).result = .ok (pages, none) ∧ pages.map Store.Page.shown =
      [(["d/a".toList], ["d/b/".toList]), (["d/e".toList], ["d/c/".toList])] := by
  intro bucket contents taken
  have paged := pagedBy_dictionary bucket
  have listed : (id contents).entries "d/".toList (!false) = [.object "d/a".toList, .group "d/b/".toList,
      .group "d/c/".toList, .object "d/e".toList] := by decide +kernel
  have parts : Listed.cut 2 ((id contents).entries "d/".toList (!false)) =
      [[.object "d/a".toList, .group "d/b/".toList],
        [.group "d/c/".toList, .object "d/e".toList]] := by
    rw [listed, Listed.cut_eq (by decide), if_pos (by decide), Listed.cut_eq (by decide),
      if_neg (by decide)]
    rfl
  obtain ⟨_, _, _, _, _, takes⟩ := pages_delivered paged (by decide : 0 < 2)
    contents "d/".toList false
  obtain ⟨_, _, _, once, _⟩ := takes 1 (by decide)
  obtain ⟨pages, answered, shown, twice, _⟩ := takes 2 (by decide)
  rw [parts] at once twice shown
  exact ⟨paged, congrArg List.length listed, once, twice, pages, answered, shown⟩

end Bucket
end S3
end KeyTree
