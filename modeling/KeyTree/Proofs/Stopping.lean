import KeyTree.Proofs.Moves

/-!
Stopping at the first change that is not made. Deletions of directories and renames ask for
copies and deletions one after the other. The first one that is answered no is the last
request of all, whatever the store holds and whatever else it answers; markers that cannot
be created do not count (`removal_and_rename_stop`).
-/
namespace KeyTree

variable {I : Interface} {α β σ : Type}

namespace Program

/-- The program ends in such a failure and asks for nothing before. -/
def Halts (allowed : Failure → Prop) : Program I α → Prop
  | done _ | ask _ _ => False
  | fail failure => allowed failure
  | report _ rest => rest.Halts allowed

/-- After an exchange of the kind the program asks for nothing more and ends in a failure
that the exchange calls for. -/
def StopsAt (kind : Exchange I → Prop) (fate : Exchange I → Failure → Prop) :
    Program I α → Prop
  | done _ | fail _ => True
  | report _ rest => rest.StopsAt kind fate
  | ask query next => ∀ answer,
    (kind ⟨query, answer⟩ → (next answer).Halts (fate ⟨query, answer⟩)) ∧
      (next answer).StopsAt kind fate

namespace Halts
variable {allowed : Failure → Prop} {program : Program I α}

theorem bind (halts : program.Halts allowed) (next : α → Program I β) :
    (program.bind next).Halts allowed := by
  induction program with
  | done value => exact halts.elim
  | fail failure => exact halts
  | report notice rest ih => exact ih halts
  | ask query rest ih => exact halts.elim

theorem run (halts : program.Halts allowed) (handler : Handler I σ) (state : σ) :
    (program.run handler state).exchanges = [] ∧
      ∃ failure, allowed failure ∧ (program.run handler state).result = .error failure := by
  induction program with
  | done value => exact halts.elim
  | fail failure => exact ⟨rfl, failure, halts, rfl⟩
  | report notice rest ih => exact ih halts
  | ask query rest ih => exact halts.elim

end Halts

namespace StopsAt
variable {kind : Exchange I → Prop} {fate : Exchange I → Failure → Prop} {program : Program I α}

theorem done (value : α) : StopsAt kind fate (.done value : Program I α) := trivial

theorem fail (failure : Failure) : StopsAt kind fate (.fail failure : Program I α) := trivial

theorem notify (notice : Notice) : StopsAt kind fate (notify notice : Program I Unit) := trivial

theorem ofExcept (result : Except Failure α) :
    StopsAt kind fate (ofExcept result : Program I α) := by
  cases result <;> trivial

theorem ite {condition : Prop} [Decidable condition] {first second : Program I α}
    (yes : first.StopsAt kind fate) (no : second.StopsAt kind fate) :
    StopsAt kind fate (if condition then first else second) := by
  split
  · exact yes
  · exact no

theorem bind {next : α → Program I β} (first : program.StopsAt kind fate)
    (rest : ∀ value, (next value).StopsAt kind fate) :
    (program.bind next).StopsAt kind fate := by
  induction program with
  | done value => exact rest value
  | fail failure => trivial
  | report notice inner ih => exact ih first
  | ask query inner ih =>
    intro answer
    exact ⟨fun met => ((first answer).1 met).bind next, ih answer (first answer).2⟩

theorem forM {next : β → Program I PUnit} (each : ∀ item, (next item).StopsAt kind fate)
    (items : List β) : StopsAt kind fate (items.forM next) := by
  induction items with
  | nil => trivial
  | cons item later ih => exact bind (each item) fun _ => ih

theorem foldlM {next : α → β → Program I α}
    (each : ∀ value item, (next value item).StopsAt kind fate) (items : List β) (value : α) :
    StopsAt kind fate (items.foldlM next value) := by
  induction items generalizing value with
  | nil => trivial
  | cons item later ih => exact bind (each value item) fun next => ih next

section request
variable {query : I.Request} (other : ∀ answer, ¬ kind ⟨query, answer⟩)
include other

theorem request : StopsAt kind fate (request query) := by
  intro answer
  refine ⟨fun met => (other answer met).elim, ?_⟩
  cases answer <;> trivial

theorem attempt_request : StopsAt kind fate (Program.request query).attempt := by
  intro answer
  refine ⟨fun met => (other answer met).elim, ?_⟩
  cases answer with
  | ok value => trivial
  | error failure => cases failure <;> trivial

end request

/-- Of the exchanges of a run only the last can be of the kind, and the run fails as that
exchange calls for. -/
theorem run (stops : program.StopsAt kind fate) (handler : Handler I σ) {state : σ}
    {before after : List (Exchange I)} {exchange : Exchange I}
    (asked : (program.run handler state).exchanges = before ++ exchange :: after)
    (met : kind exchange) :
    after = [] ∧
      ∃ failure, fate exchange failure ∧ (program.run handler state).result = .error failure := by
  induction program generalizing state before with
  | done value => cases before <;> cases asked
  | fail failure => cases before <;> cases asked
  | report notice rest ih => exact ih stops asked
  | ask query next ih =>
    obtain ⟨halts, rest⟩ := stops (handler query state).1
    cases before with
    | nil =>
      obtain ⟨rfl, rfl⟩ := List.cons.inj asked
      exact (halts met).run handler _
    | cons first before => exact ih _ rest (List.cons.inj asked).2

end StopsAt
end Program

variable {Cursor : Type}

namespace Exchange

/-- A copy or a deletion that was answered so. -/
def Altered (answer : Except Failure Bool) : Exchange (Store.interface Cursor) → Prop
  | ⟨.copy _ _, given⟩ | ⟨.delete _, given⟩ => given = answer
  | _ => False

/-- A copy or a deletion that was not answered yes. -/
def Unmade (exchange : Exchange (Store.interface Cursor)) : Prop :=
  ∃ answer ≠ .ok true, exchange.Altered answer

/-- A change that is answered no is refused, not just failed. -/
def Refuses (exchange : Exchange (Store.interface Cursor)) (failure : Failure) : Prop :=
  exchange.Altered (.ok false) → ∃ cause, failure = .refused cause

end Exchange

/-- The run asks for nothing after a copy or a deletion that was answered no, and then
answers no; it answers yes only after copies and deletions that were answered yes. -/
structure Run.StopsAtDenial (ended : Run (Store.interface Cursor) σ Bool) : Prop where
  denied : ∀ before exchange after, ended.exchanges = before ++ exchange :: after →
    exchange.Altered (.ok false) → after = [] ∧ ended.result = .ok false
  granted : ended.result = .ok true → ∀ exchange ∈ ended.exchanges, ∀ answer,
    exchange.Altered answer → answer = .ok true

namespace FileSystem

open Program (Halts StopsAt)

variable {fs : FileSystem}

/-- The program stops at the first copy or deletion that is not made. -/
abbrev Stops (program : Store.Action Cursor α) : Prop :=
  program.StopsAt Exchange.Unmade Exchange.Refuses

section requests
variable (key : Key)

theorem stops_status : Stops (Store.status key : Store.Action Cursor _) :=
  .request fun _ ⟨_, _, altered⟩ => altered

theorem stops_createEmpty : Stops (Store.createEmpty key : Store.Action Cursor _) :=
  .request fun _ ⟨_, _, altered⟩ => altered

theorem stops_list (recursive : Bool) (pageSize : Int) :
    Stops (Store.list key recursive pageSize : Store.Action Cursor _) :=
  .request fun _ ⟨_, _, altered⟩ => altered

theorem stops_attempt_list (recursive : Bool) (pageSize : Int) :
    Stops (Store.list key recursive pageSize : Store.Action Cursor _).attempt :=
  .attempt_request fun _ ⟨_, _, altered⟩ => altered

theorem stops_more (cursor : Cursor) : Stops (Store.more cursor) :=
  .request fun _ ⟨_, _, altered⟩ => altered

variable {yes : Store.Action Cursor α} (goesOn : Stops yes) (cause : Cause)
include goesOn

theorem stops_delete :
    Stops ((Store.delete key).bind fun made => if made then yes else Program.refuse cause) := by
  intro answer
  cases answer with
  | ok made =>
    cases made with
    | true => exact ⟨fun ⟨_, other, same⟩ => (other same.symm).elim, goesOn⟩
    | false => exact ⟨fun _ _ => ⟨cause, rfl⟩, trivial⟩
  | error failure => exact ⟨fun _ same => (nomatch same), trivial⟩

theorem stops_copy (destination : Key) :
    Stops ((Store.copy key destination).bind fun made =>
      if made then yes else Program.refuse cause) := by
  intro answer
  cases answer with
  | ok made =>
    cases made with
    | true => exact ⟨fun ⟨_, other, same⟩ => (other same.symm).elim, goesOn⟩
    | false => exact ⟨fun _ _ => ⟨cause, rfl⟩, trivial⟩
  | error failure => exact ⟨fun _ same => (nomatch same), trivial⟩

end requests

theorem stops_isDirectory (path : Path) :
    Stops (fs.isDirectory path : Store.Action Cursor Bool) := by
  have heal : Stops (healMarker (fs.markerKey path) : Store.Action Cursor _) :=
    .bind (.notify _) fun _ => .bind (stops_createEmpty _) fun _ => stops_status _
  have below : Stops (fs.probeBelow path : Store.Action Cursor _) := by
    apply StopsAt.bind (stops_attempt_list _ true 1)
    intro answer
    cases answer with
    | error cause => exact .ite (.bind (.notify _) fun _ => .done none) (.fail _)
    | ok page =>
      cases page with
      | none => exact .done none
      | some page => exact .ite (.done none) heal
  have probe : Stops (fs.probe path : Store.Action Cursor _) := by
    apply StopsAt.ite (.fail _)
    apply StopsAt.bind (stops_status _)
    intro status
    cases status with
    | some status => exact .done _
    | none => exact below
  exact .ite (.done true) (.bind probe fun _ => .done _)

theorem stops_isFile (path : Path) : Stops (fs.isFile path : Store.Action Cursor Bool) :=
  .bind (stops_status _) fun _ => .done _

section listing
variable {kind : Exchange (Store.interface Cursor) → Prop}
  {fate : Exchange (Store.interface Cursor) → Failure → Prop}
  (creates : ∀ key, StopsAt kind fate (Store.createEmpty key : Store.Action Cursor Bool))
include creates

theorem stopsAt_mergePage (stem : Key) (children : List Entry) (page : Store.Page Cursor) :
    StopsAt kind fate (fs.mergePage stem children page) := by
  have marks : ∀ group, StopsAt kind fate (fs.markGroup group : Store.Action Cursor _) :=
    fun group => .bind (.notify _) fun _ => .bind (creates _) fun _ => .ite (.done ()) (.notify _)
  have groups : ∀ children group, StopsAt kind fate (fs.mergeGroup stem children group :
      Store.Action Cursor _) := fun children group =>
    .bind (.ofExcept _) fun _ => .ite (.done _) (.bind (marks group) fun _ => .done _)
  exact .bind (.ofExcept _) fun children => .foldlM groups page.groups children

variable (turns : ∀ cursor : Cursor, StopsAt kind fate (Store.more cursor))
include turns

theorem stopsAt_walk (stem : Key) (limit : Nat) (children : List Entry)
    (page : Store.Page Cursor) :
    StopsAt kind fate (Store.Page.walk (fs.mergePage stem) limit children page) := by
  induction limit generalizing children page with
  | zero => exact .fail _
  | succ limit ih =>
    apply StopsAt.bind (stopsAt_mergePage creates stem children page)
    intro merged
    cases page.next with
    | none => exact .done merged
    | some cursor =>
      apply StopsAt.bind (turns cursor)
      intro next
      cases next with
      | none => exact .done merged
      | some next => exact ih merged next

/-- What a listing of children asks for behind the look for the directory. -/
theorem exists_stopsAt_children (fs : FileSystem)
    (lists : ∀ stem recursive pageSize, StopsAt kind fate
      (Store.list stem recursive pageSize : Store.Action Cursor (Option (Store.Page Cursor))))
    (path : Path) (recursive : Bool) :
    ∃ rest : Bool → Store.Action Cursor (Option (List Entry)),
      fs.children path recursive = (fs.isDirectory path).bind rest ∧
        ∀ found, StopsAt kind fate (rest found) := by
  refine ⟨_, rfl, fun found => .ite (.bind (.ofExcept _) fun pageSize => ?_) (.done none)⟩
  apply StopsAt.bind (lists _ recursive pageSize)
  intro first
  cases first with
  | none => exact .done none
  | some first => exact .bind (stopsAt_walk creates turns _ _ _ first) fun _ => .done _

end listing

theorem stops_requireChildren (path : Path) (recursive : Bool) :
    Stops (fs.requireChildren path recursive : Store.Action Cursor (List Entry)) := by
  have listed : Stops (fs.children path recursive : Store.Action Cursor _) := by
    obtain ⟨rest, same, stops⟩ := exists_stopsAt_children stops_createEmpty stops_more fs
      stops_list path recursive
    rw [same]
    exact .bind (stops_isDirectory path) stops
  apply StopsAt.bind listed
  intro children
  cases children with
  | none => exact .fail _
  | some children => exact .done children

theorem stops_removePlaceholder (path : Path) :
    Stops (fs.removePlaceholder path : Store.Action Cursor Unit) := by
  apply StopsAt.ite (.done ())
  apply StopsAt.bind (stops_status _)
  intro status
  cases status with
  | none => exact .done ()
  | some status => exact stops_delete _ (.notify _) _

theorem stops_removeEntry (path : Path) (entry : Entry) :
    Stops (fs.removeEntry path entry : Store.Action Cursor Unit) :=
  stops_delete _ (.bind (.notify _) fun _ => .ite (stops_removePlaceholder _) (.done ())) _

theorem stops_removeDirectory (path : Path) (recursive : Bool) :
    Stops (fs.removeDirectory path recursive : Store.Action Cursor Unit) := by
  have below : Stops (fs.removeBelow path recursive : Store.Action Cursor Unit) :=
    .bind (stops_requireChildren path recursive) fun children =>
      .ite (.forM (stops_removeEntry path) children) (.ite (.done ()) (.fail _))
  exact .bind below fun _ => .bind (stops_removePlaceholder path) fun _ =>
    stops_delete _ (.done ()) _

theorem stops_requireAbsent (path : Path) :
    Stops (fs.requireAbsent path : Store.Action Cursor Unit) :=
  .bind (stops_isFile path) fun _ => .ite (.fail _)
    (.bind (stops_isDirectory path) fun _ => .ite (.fail _) (.done ()))

theorem stops_moveFile (source destination : Path) :
    Stops (fs.moveFile source destination : Store.Action Cursor Unit) :=
  .bind (stops_isFile source) fun _ => .ite
    (.bind (stops_requireAbsent destination) fun _ =>
      stops_copy _ (stops_delete _ (.done ()) _) _ _)
    (.fail _)

theorem stops_moveDirectory (depth : Nat) (source destination : Path) :
    Stops (fs.moveDirectory depth source destination : Store.Action Cursor Unit) := by
  induction depth generalizing source destination with
  | zero => exact .fail _
  | succ depth ih =>
    rw [moveDirectory_succ]
    apply StopsAt.ite (.fail _)
    apply StopsAt.bind (stops_requireChildren source false)
    intro children
    apply StopsAt.bind (stops_requireAbsent destination)
    intro _
    apply StopsAt.bind (stops_copy _ (.done ()) _ _)
    intro _
    have entry : ∀ entry, Stops (fs.moveEntry depth source destination entry :
        Store.Action Cursor Unit) := fun entry =>
      .ite (ih _ _) (stops_moveFile _ _)
    exact .bind (.forM entry children) fun _ => stops_removeDirectory source true

/-- A program that stops at such a change and is asked for its success stops there too. -/
theorem stopsAtDenial_succeeds {program : Store.Action Cursor Unit} (stops : Stops program)
    (notice : Cause → Notice) (handler : Handler (Store.interface Cursor) σ) (state : σ) :
    ((program.succeeds notice).run handler state).StopsAtDenial := by
  obtain ⟨result, _, asked⟩ := Program.run_succeeds handler program notice state
  constructor
  · intro before exchange after split denied
    obtain ⟨last, failure, refuses, failed⟩ :=
      stops.run handler (asked ▸ split) ⟨.ok false, nofun, denied⟩
    obtain ⟨cause, rfl⟩ := refuses denied
    exact ⟨last, by rw [result, failed]⟩
  · intro yes exchange member answer altered
    by_contra unmade
    obtain ⟨before, after, split⟩ := List.append_of_mem (asked ▸ member)
    obtain ⟨-, failure, -, failed⟩ := stops.run handler split ⟨answer, unmade, altered⟩
    rw [result, failed] at yes
    cases failure <;> cases yes

/-- A copy or a deletion that is answered no is the last request of a removal or a rename,
which then answers no. -/
theorem removal_and_rename_stop (fs : FileSystem) (handler : Handler (Store.interface Cursor) σ)
    (state : σ) :
    (∀ path recursive, ((fs.deleteDirectory path recursive).run handler state).StopsAtDenial) ∧
    (∀ source destination, ((fs.renameDirectory source destination).run handler
      state).StopsAtDenial) ∧
    ∀ source destination, ((fs.renameFile source destination).run handler
      state).StopsAtDenial :=
  ⟨fun _ _ => stopsAtDenial_succeeds (stops_removeDirectory _ _) _ handler state,
    fun _ _ => stopsAtDenial_succeeds (stops_moveDirectory _ _ _) _ handler state,
    fun _ _ => stopsAtDenial_succeeds (stops_moveFile _ _) _ handler state⟩

end FileSystem
end KeyTree
