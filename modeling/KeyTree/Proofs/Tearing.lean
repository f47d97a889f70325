import KeyTree.Proofs.Stopping
import KeyTree.Proofs.Transparency

/-!
Listings that break off. A page that cannot be had ends the listing of a directory, and by then
the markers of the pages before it may be there. All of them are markers of directories that the
listing had shown, so the next listing shows what the first one would have shown, and puts in the
rest: it ends as one does that never broke off (`children_torn`).
-/
namespace KeyTree

open KeyTree.Path (separator)
open Program (Ensures Returns StopsAt)

variable {α β σ : Type}

section pages
variable {Cursor : Type}

/-- Whether the request is for a page of a listing. -/
def Store.Request.fetches : Store.Request Cursor → Bool
  | .list _ _ _ | .more _ => true
  | _ => false

namespace Exchange

/-- A page that was asked for and could not be had. -/
def Torn (exchange : Exchange (Store.interface Cursor)) : Prop :=
  Store.Request.fetches exchange.query = true ∧ ∃ failure, exchange.answer = .error failure

/-- The failure is the one that was answered. -/
def Answers (exchange : Exchange (Store.interface Cursor)) (failure : Failure) : Prop :=
  exchange.answer = .error failure

end Exchange

/-- Whatever is asked for stops where it is a page that cannot be had. -/
theorem Program.StopsAt.fetch (query : Store.Request Cursor) :
    StopsAt Exchange.Torn Exchange.Answers
      (Program.request query : Program (Store.interface Cursor) _) := by
  intro answer
  cases answer with
  | ok value => exact ⟨fun ⟨_, _, failed⟩ => (nomatch failed), trivial⟩
  | error failure => exact ⟨fun _ => rfl, trivial⟩

namespace Run

/-- How many pages were asked for. -/
def pages (run : Run (Store.interface Cursor) σ α) : Nat :=
  run.exchanges.countP fun exchange => Store.Request.fetches exchange.query

theorem pages_after (notices : List Notice) (exchanges : List (Exchange (Store.interface Cursor)))
    (run : Run (Store.interface Cursor) σ α) :
    (run.after notices exchanges).pages =
      (exchanges.countP fun exchange => Store.Request.fetches exchange.query) + run.pages :=
  List.countP_append

end Run
end pages

/-- A memory with the number of pages that it was asked for. -/
structure Memory.Leafing where
  memory : Memory
  pages : Nat := 0

section leafed
variable (run : Run (Store.interface Memory.Cursor) Memory α)

/-- The same run, with its pages counted on. -/
def Run.leafed (pages : Nat) : Run (Store.interface Memory.Cursor) Memory.Leafing α :=
  ⟨run.result, run.notices, run.exchanges, ⟨run.state, pages + run.pages⟩⟩

theorem Run.leafed_after (notices : List Notice)
    (exchanges : List (Exchange (Store.interface Memory.Cursor))) (pages : Nat) :
    (run.after notices exchanges).leafed pages = (run.leafed (pages +
      exchanges.countP fun exchange => Store.Request.fetches exchange.query)).after
        notices exchanges := by
  simp only [Run.leafed, Run.pages_after, Nat.add_assoc]
  rfl

end leafed

namespace Memory

/-- Serves from memory, but some pages cannot be had. Which ones, and in which words, is told by
their turn. -/
def serveTorn (torn : Nat → Option String) : Handler (Store.interface Cursor) Leafing :=
  fun query leafing =>
    let served := serve query leafing.memory
    if Store.Request.fetches query then
      match torn leafing.pages with
      | some message => (query.failed message, ⟨leafing.memory, leafing.pages + 1⟩)
      | none => (served.1, ⟨served.2, leafing.pages + 1⟩)
    else (served.1, ⟨served.2, leafing.pages⟩)

theorem serveTorn_within (torn : Nat → Option String) :
    Handler.Within (serveTorn torn) Leafing.memory (may (Store.Request.fetches · = true)) := by
  intro query leafing
  simp only [serveTorn]
  split
  · rename_i fetches
    split
    · exact .inr ⟨fetches, ⟨_, rfl⟩, rfl⟩
    · exact .inl ⟨rfl, rfl⟩
  · exact .inl ⟨rfl, rfl⟩

section run
variable {torn : Nat → Option String} {memory : Memory} {pages turn : Nat} {message : String}

theorem run_of_ensures_torn {program : Store.Action Cursor α}
    {post : Except Failure α → Memory → Prop} (pages : Nat)
    (ensured : program.Ensures (may (Store.Request.fetches · = true)) memory post) :
    post (program.run (serveTorn torn) ⟨memory, pages⟩).result
      (program.run (serveTorn torn) ⟨memory, pages⟩).state.memory :=
  Ensures.run (serveTorn_within torn) ensured

theorem serveTorn_other {query : Store.Request Cursor} (other : query.fetches = false) :
    serveTorn torn query ⟨memory, pages⟩ =
      ((serve query memory).1, ⟨(serve query memory).2, pages⟩) := by
  rw [serveTorn, other]
  rfl

theorem serveTorn_spared {query : Store.Request Cursor} (fetches : query.fetches = true)
    (spared : torn pages = none) : serveTorn torn query ⟨memory, pages⟩ =
      ((serve query memory).1, ⟨(serve query memory).2, pages + 1⟩) := by
  simp only [serveTorn, fetches, spared, if_true]

theorem serveTorn_hit {query : Store.Request Cursor} (fetches : query.fetches = true)
    (hit : torn pages = some message) : serveTorn torn query ⟨memory, pages⟩ =
      (.error (.refused (.stated .storeFailure message)), ⟨memory, pages + 1⟩) := by
  simp only [serveTorn, fetches, hit, if_true]
  cases query with
  | list stem recursive pageSize => rfl
  | more cursor => rfl
  | _ => cases fetches

/-- As long as the pages can be had, the run is the one without faults. -/
theorem run_serveTorn (program : Store.Action Cursor α) (memory : Memory) (pages : Nat)
    (spared : ∀ page < (program.run serve memory).pages, torn (pages + page) = none) :
    program.run (serveTorn torn) ⟨memory, pages⟩ = (program.run serve memory).leafed pages := by
  -- Faults go by their turn, so the pages asked for so far are carried through the program.
  induction program generalizing memory pages with
  | done value => rfl
  | fail failure => rfl
  | report notice rest ih =>
    rw [Program.run_report, Run.pages_after, List.countP_nil, Nat.zero_add] at spared
    rw [Program.run_report, Program.run_report, Run.leafed_after, ih memory _ spared]
    rfl
  | ask query next ih =>
    simp only [Program.run, Run.leafed_after, Run.pages_after, List.countP_singleton] at spared ⊢
    cases fetches : Store.Request.fetches query with
    | true =>
      simp only [fetches, if_true] at spared ⊢
      have first : torn pages = none := spared 0 (by omega)
      rw [serveTorn_spared fetches first]
      dsimp only
      rw [ih]
      intro page less
      rw [Nat.add_assoc]
      exact spared (1 + page) (by omega)
    | false =>
      simp only [fetches, Bool.false_eq_true, if_false, Nat.zero_add] at spared ⊢
      rw [serveTorn_other fetches, ih _ _ _ spared]
      rfl

/-- The first page that cannot be had is asked for if the run without faults comes to it. -/
theorem run_serveTorn_torn (program : Store.Action Cursor α) (memory : Memory) (pages : Nat)
    (spared : ∀ page < turn, torn (pages + page) = none)
    (hit : torn (pages + turn) = some message)
    (reached : turn < (program.run serve memory).pages) :
    ∃ before exchange after,
      (program.run (serveTorn torn) ⟨memory, pages⟩).exchanges = before ++ exchange :: after ∧
        Store.Request.fetches exchange.query = true ∧
          exchange.answer = .error (.refused (.stated .storeFailure message)) := by
  -- Every page that is had brings the turn one closer; no other request moves it.
  induction program generalizing memory pages turn with
  | done value => exact absurd reached (Nat.not_lt_zero _)
  | fail failure => exact absurd reached (Nat.not_lt_zero _)
  | report notice rest ih =>
    rw [Program.run_report, Run.pages_after, List.countP_nil, Nat.zero_add] at reached
    exact ih memory pages spared hit reached
  | ask query next ih =>
    simp only [Program.run, Run.pages_after, List.countP_singleton] at reached ⊢
    cases fetches : Store.Request.fetches query with
    | true =>
      cases turn with
      | zero =>
        have first : torn pages = some message := hit
        rw [serveTorn_hit fetches first]
        exact ⟨[], _, _, rfl, fetches, rfl⟩
      | succ turn =>
        have first : torn pages = none := spared 0 (Nat.zero_lt_succ turn)
        rw [fetches, if_pos rfl, Nat.add_comm 1] at reached
        rw [serveTorn_spared fetches first]
        obtain ⟨before, exchange, after, asked, met⟩ := ih _ _ (pages + 1)
          (fun page less => by
            rw [Nat.add_right_comm]
            exact spared (page + 1) (Nat.succ_lt_succ less))
          (by rwa [Nat.add_right_comm]) (Nat.lt_of_succ_lt_succ reached)
        exact ⟨_ :: before, exchange, after, congrArg (List.cons _) asked, met⟩
    | false =>
      rw [fetches, if_neg Bool.false_ne_true, Nat.zero_add] at reached
      rw [serveTorn_other fetches]
      obtain ⟨before, exchange, after, asked, met⟩ := ih _ _ pages spared hit reached
      exact ⟨_ :: before, exchange, after, congrArg (List.cons _) asked, met⟩

/-- What stops where a page cannot be had fails as that page does. -/
theorem run_bind_serveTorn {program : Store.Action Cursor α} {next : α → Store.Action Cursor β}
    (stops : ∀ value, (next value).StopsAt Exchange.Torn Exchange.Answers)
    (spared : ∀ page < (program.run serve memory).pages + turn, torn page = none)
    (hit : torn ((program.run serve memory).pages + turn) = some message)
    (reached : (program.run serve memory).pages + turn <
      ((program.bind next).run serve memory).pages) :
    ((program.bind next).run (serveTorn torn) ⟨memory, 0⟩).result =
      .error (.refused (.stated .storeFailure message)) := by
  have first : program.run (serveTorn torn) ⟨memory, 0⟩ = (program.run serve memory).leafed 0 :=
    run_serveTorn program memory 0 fun page less => by
      rw [Nat.zero_add]
      exact spared page (Nat.lt_add_right turn less)
  rw [Program.run_bind] at reached ⊢
  rw [first]
  -- What was asked first had all its pages, so the fault is behind it, where the program stops.
  generalize program.run serve memory = asked at spared hit reached ⊢
  obtain ⟨result, notices, exchanges, later⟩ := asked
  cases result with
  | error failure => exact absurd reached (Nat.not_lt.mpr (Nat.le_add_right _ turn))
  | ok value =>
    rw [Run.andThen_ok, Run.pages_after] at reached
    rw [Run.leafed, Run.andThen_ok, Run.after_result, Nat.zero_add]
    obtain ⟨before, exchange, after, asks, fetches, answer⟩ := run_serveTorn_torn (next value) later _
      (fun page less => spared _ (Nat.add_lt_add_left less _)) hit (Nat.lt_of_add_lt_add_left reached)
    obtain ⟨-, failure, same, failed⟩ := (stops value).run _ asks ⟨fetches, _, answer⟩
    cases answer.symm.trans same
    exact failed

end run
end Memory

namespace Strewn
variable {keys : Key → Prop} {before middle after : Contents} {suffix stem : Key} {grouped : Bool}

theorem refl (keys : Key → Prop) (contents : Contents) : Strewn keys contents contents :=
  fun _ => .inl rfl

theorem eq_of_none (strewn : Strewn keys before after) (none : ∀ key, ¬ keys key) :
    after = before :=
  Std.ExtTreeMap.ext_getElem? fun key => (strewn key).resolve_right fun fresh => none key fresh.2

/-- What is emptied in the end makes no difference before. -/
theorem blanks (strewn : Strewn keys before middle) (blanks : Blanks keys middle after) :
    Blanks keys before after where
  lands := blanks.lands
  lookup_iff key content := by
    rw [blanks.lookup_iff]
    refine or_congr_left (and_congr_right fun other => ?_)
    rw [(strewn key).resolve_right fun fresh => other fresh.2]

variable (whole : separator ∉ suffix) (hollow : before.Hollow suffix)
  (strewn : Strewn (before.Inferred suffix stem grouped) before after)
include whole hollow strewn

/-- New markers of inferred directories infer no others. -/
theorem inferred_iff {key : Key} :
    after.Inferred suffix stem grouped key ↔ before.Inferred suffix stem grouped key := by
  have mended := Mended.of_strewn hollow strewn
  exact exists_congr fun path => and_congr_right fun _ => and_congr_left' (mended.under_iff whole)

/-- Nor does a listing show more. -/
theorem shown_iff (given : suffix ≠ []) (at_stem : Path.Stem suffix stem)
    (neat : before.Neat suffix) {entry : Entry} :
    after.Shown suffix stem grouped entry ↔ before.Shown suffix stem grouped entry := by
  cases grouped with
  | true => exact (Mended.of_strewn hollow strewn).shown_iff whole given at_stem neat
  | false => exact Contents.Shown.congr fun key => strewn.below whole

end Strewn

namespace FileSystem
variable {fs : FileSystem} {fallible : Store.Request Memory.Cursor → Prop} {memory : Memory}
  {path : Path} {recursive : Bool}

section place
variable (proper : fs.Proper) (place : fs.Place path)
include proper place

/-- Where a listing infers a directory, there is something to list. -/
theorem holds_of_inferred {contents : Contents} {grouped : Bool} {key : Key}
    (inferred : contents.Inferred fs.suffix (fs.root.stem path) grouped key) :
    fs.Holds contents path := by
  cases place with
  | inr root => exact .inl root
  | inl plain =>
    rw [proper.stem_plain plain] at inferred
    obtain ⟨other, _, ⟨deep, stored, below⟩, _, own | ⟨_, name, _, _, rfl⟩⟩ := inferred
    · cases List.append_cancel_right own
      exact .inr (.inr ⟨deep, stored, below⟩)
    · refine .inr (.inr ⟨deep, stored, List.IsPrefix.trans ?_ below⟩)
      rw [List.append_assoc]
      exact List.prefix_append _ _

/-- A listing of what an earlier one has left is a listing of what that one has found. -/
theorem Catalogued.of_strewn {before middle after : Contents} {listed : Option (List Entry)}
    (neat : before.Neat fs.suffix) (hollow : before.Hollow fs.suffix)
    (strewn : Strewn (before.Inferred fs.suffix (fs.root.stem path) !recursive) before middle)
    (catalogued : Catalogued fs path recursive middle listed after) :
    Catalogued fs path recursive before listed after := by
  have whole := proper.suffix_whole
  have holds : fs.Holds middle path ↔ fs.Holds before path :=
    holds_mended_iff proper (.of_strewn hollow strewn)
  cases listed with
  | none =>
    obtain ⟨missing, rfl⟩ := catalogued
    refine ⟨holds.not.mp missing, strewn.eq_of_none fun key inferred => ?_⟩
    exact missing (holds.mpr (holds_of_inferred proper place inferred))
  | some children =>
    obtain ⟨there, merged, blanks⟩ := catalogued
    refine ⟨holds.mp there, merged.congr fun entry _ => ?_, strewn.blanks ?_⟩
    · exact strewn.shown_iff whole hollow proper.suffix_ne_nil (place.stem proper) neat
    · exact blanks.congr (fun _ => strewn.inferred_iff whole hollow)
        fun _ _ => and_congr_left' (strewn.inferred_iff whole hollow)

omit place in
/-- There is room for the markers that are new. -/
theorem Listable.still {before after : Contents} {stem : Key} (listable : fs.Listable stem before)
    (mended : Mended fs.suffix before after) : fs.Listable stem after where
  readable := listable.readable
  pages := by
    obtain ⟨keys, short, covers⟩ := listable.pages
    exact ⟨keys, short, fun key below potential =>
      covers key below (mended.potential proper.suffix_whole potential)⟩

theorem returns_isDirectory_strewn :
    (fs.isDirectory path).Returns (Memory.may fallible) memory fun _ later =>
      Strewn (memory.contents.Inferred fs.suffix (fs.root.stem path) false) memory.contents
        later.contents := by
  cases place with
  | inl plain =>
    rw [proper.stem_plain plain]
    exact Returns.mono (returns_isDirectory proper plain) fun _ _ look => look.strewn plain
  | inr root =>
    rw [isDirectory_root root]
    exact ⟨true, rfl, .refl _ _⟩

/-- Wherever a listing breaks off, it leaves nothing but some of the markers that it infers. -/
theorem ensures_children_strewn (neat : memory.contents.Neat fs.suffix) (recursive : Bool) :
    (fs.children path recursive).Ensures (Memory.may fallible) memory fun _ later =>
      Strewn (memory.contents.Inferred fs.suffix (fs.root.stem path) !recursive) memory.contents
        later.contents := by
  have at_stem := place.stem proper
  apply Returns.bind (returns_isDirectory_strewn proper place)
  intro found probed strewn
  have looked : Strewn (memory.contents.Inferred fs.suffix (fs.root.stem path) !recursive)
      memory.contents probed.contents := strewn.mono fun _ => Contents.Inferred.mono
  cases found with
  | false => exact looked
  | true =>
    dsimp only
    rw [if_pos rfl]
    cases read : fs.settings.pageSize with
    | error defect => exact looked
    | ok pageSize =>
      have upholds : Upholds fs fallible (fs.root.stem path)
          (probed.contents.entries (fs.root.stem path) !recursive) fun _ now =>
            Strewn (memory.contents.Inferred fs.suffix (fs.root.stem path) !recursive)
              memory.contents now.contents :=
        .of_memory fun start member now => strewn_markGroup proper at_stem neat
          (Contents.entries_subset (fun key => strewn.below proper.suffix_whole) member)
      apply Ensures.bind_done
      apply Ensures.bind (Memory.ensures_list fallible probed _ _ _)
      · rintro page later ⟨rfl, ⟨⟨⟩⟩ | ⟨_, _, ⟨⟩⟩⟩
        apply Ensures.bind (ensures_walk_entries read upholds looked)
        · rintro children final ⟨⟨_, kept⟩, _⟩
          exact kept
        · rintro failure final ⟨⟨_, kept⟩, _⟩
          exact kept
      · rintro failure later ⟨rfl, _⟩
        exact looked

end place

/-- The look for the directory is all that asks for a page and does not fail with it. -/
theorem run_children_torn {torn : Nat → Option String} {page : Nat} {message : String}
    (spared : ∀ earlier < ((fs.isDirectory path).run Memory.serve memory).pages + page,
      torn earlier = none)
    (hit : torn (((fs.isDirectory path).run Memory.serve memory).pages + page) = some message)
    (reached : ((fs.isDirectory path).run Memory.serve memory).pages + page <
      ((fs.children path recursive).run Memory.serve memory).pages) :
    ((fs.children path recursive).run (Memory.serveTorn torn) ⟨memory, 0⟩).result =
      .error (.refused (.stated .storeFailure message)) := by
  have creates : ∀ key, StopsAt Exchange.Torn Exchange.Answers
      (Store.createEmpty key : Store.Action Memory.Cursor Bool) := fun _ => .fetch _
  obtain ⟨rest, same, stops⟩ := exists_stopsAt_children creates (fun _ => .fetch _) fs
    (fun _ _ _ => .fetch _) path recursive
  rw [same] at reached ⊢
  exact Memory.run_bind_serveTorn stops spared hit reached

/-- A listing that cannot get one of its pages fails as that page does, and a listing that ends
before that page is not touched by it. Whatever was there is as it was, and what is new are empty
markers of directories. The next listing tells the same entries and leaves the same objects as one
that never failed. The pages are counted from the first one that the listing itself asks for, behind
the look for the directory. -/
theorem children_torn {pageSize page : Nat} {torn : Nat → Option String} {message : String}
    (proper : fs.Proper) (place : fs.Place path) (tidy : memory.contents.Tidy fs.suffix)
    (hollow : memory.contents.Hollow fs.suffix) (read : fs.settings.pageSize = .ok pageSize)
    (room : memory.contents.reach ≤ fs.limits.pages) (recursive : Bool) :
    let asked := (fs.isDirectory path).run Memory.serve memory
    let whole := (fs.children path recursive).run Memory.serve memory
    let cut := (fs.children path recursive).run (Memory.serveTorn torn) ⟨memory, 0⟩
    let again := (fs.children path recursive).run Memory.serve cut.state.memory
    (∀ earlier < asked.pages + page, torn earlier = none) →
    torn (asked.pages + page) = some message →
      (asked.pages + page < whole.pages →
        cut.result = .error (.refused (.stated .storeFailure message))) ∧
      (whole.pages ≤ asked.pages + page →
        cut.result = whole.result ∧ cut.state.memory = whole.state) ∧
      (∀ key ∈ memory.contents, cut.state.memory.contents[key]? = memory.contents[key]?) ∧
      (∀ key ∈ cut.state.memory.contents, key ∉ memory.contents →
        cut.state.memory.contents[key]? = some [] ∧ ∃ inner, Path.Plain fs.suffix inner ∧
          memory.contents.HasDirectory fs.suffix inner ∧ key = inner ++ fs.suffix) ∧
      (∃ listed told, whole.result = .ok listed ∧ again.result = .ok told ∧
        SameEntries told listed) ∧
      again.state.contents = whole.state.contents := by
  intro asked whole cut again spared hit
  have whole_suffix := proper.suffix_whole
  have strewn : Strewn (memory.contents.Inferred fs.suffix (fs.root.stem path) !recursive)
      memory.contents cut.state.memory.contents :=
    Memory.run_of_ensures_torn 0 (ensures_children_strewn proper place tidy.neat recursive)
  have mended := Mended.of_strewn hollow strewn
  have listable := Listable.of_reach (fs.root.stem path) ⟨pageSize, read⟩ room
  obtain ⟨listed, answered, once⟩ := Memory.run_of_ensures
    (returns_children_catalogued proper place tidy.neat hollow listable recursive)
  obtain ⟨told, repeated, twice⟩ := Memory.run_of_ensures
    (returns_children_catalogued proper place (mended.neat tidy.neat) (mended.hollow hollow)
      (listable.still proper mended) recursive)
  obtain ⟨same_contents, same_entries⟩ :=
    (Catalogued.of_strewn proper place tidy.neat hollow strewn twice).agree once
  refine ⟨run_children_torn spared hit, fun ended => ?_, fun key present => ?_,
    fun key present fresh => ?_, ⟨listed, told, answered, repeated, same_entries⟩, same_contents⟩
  · have same : cut = whole.leafed 0 := Memory.run_serveTorn _ _ _ fun earlier less => by
      rw [Nat.zero_add]
      exact spared earlier (Nat.lt_of_lt_of_le less ended)
    rw [same]
    exact ⟨rfl, rfl⟩
  · exact mended.kept present
  · obtain ⟨empty, inner, plain, under, marker⟩ := mended.fresh present fresh
    exact ⟨empty, inner, plain, .inr under, marker⟩

/-- Two groups on a page each: the second page cannot be had, and the first marker is there. -/
theorem children_torn_groups :
    let fs : FileSystem := { usual with settings := { listingLength := .integer 1 } }
    let memory := Memory.holding [("a/x/y".toList, [120]), ("a/z/y".toList, [121])]
    let torn : Nat → Option String := fun page => if page = 2 then some "torn" else none
    let cut := (fs.children "a".toList false).run (Memory.serveTorn torn) ⟨memory, 0⟩
    ((fs.isDirectory "a".toList).run Memory.serve memory).pages = 1 ∧
    ((fs.children "a".toList false).run Memory.serve memory).pages = 3 ∧
    cut.result = .error (.refused (.stated .storeFailure "torn")) ∧
    "a/x_$folder$".toList ∈ cut.state.memory.contents ∧
    "a/z_$folder$".toList ∉ cut.state.memory.contents ∧
    ((fs.children "a".toList false).run Memory.serve cut.state.memory).state.contents =
      ((fs.children "a".toList false).run Memory.serve memory).state.contents := by
  intro fs memory torn cut
  have proper : fs.Proper := usual_proper.tuned ⟨fs.settings, fs.limits⟩
  have tidy : memory.contents.Tidy fs.suffix := by decide +kernel
  have hollow : memory.contents.Hollow fs.suffix := by decide +kernel
  have room : memory.contents.reach ≤ fs.limits.pages := by decide +kernel
  have plain : Path.Plain fs.suffix "a".toList := by decide
  have asked : ((fs.isDirectory "a".toList).run Memory.serve memory).pages = 1 := by
    decide +kernel
  have whole : ((fs.children "a".toList false).run Memory.serve memory).pages = 3 := by
    decide +kernel
  have spared : ∀ earlier < ((fs.isDirectory "a".toList).run Memory.serve memory).pages + 1,
      torn earlier = none := by rw [asked]; decide
  have hit : torn (((fs.isDirectory "a".toList).run Memory.serve memory).pages + 1) =
      some "torn" := by rw [asked]; rfl
  obtain ⟨fails, _, _, _, _, same⟩ := children_torn proper (.inl plain) tidy hollow
    (Settings.pageSize_integer rfl) room false spared hit
  exact ⟨asked, whole, fails (by rw [asked, whole]; decide), by decide +kernel,
    by decide +kernel, same⟩

end FileSystem
end KeyTree
