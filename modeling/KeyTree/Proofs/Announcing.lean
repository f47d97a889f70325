import KeyTree.Proofs.Moves
import KeyTree.Proofs.Noted
import KeyTree.Proofs.Settling

/-!
Moves that are told before they are made. A rename that announces the renames nested in it asks for
the same requests as one that does not (`servedBy_silent_announcedMove`), so what is announced is
what is called. Whatever settles without announcements settles beside them.
-/
namespace KeyTree

open Program (Ensures Returns Settles handlerOf)

variable {Cursor α β σ : Type}

namespace Move

/-- What a move asks for: requests to the store, and the moves nested in it, each before it is
made. -/
inductive Request (Cursor : Type) where
  | store (query : Store.Request Cursor)
  | nested (source destination : Path)

abbrev Request.Answer {Cursor : Type} : Request Cursor → Type
  | store query => query.Answer
  | nested _ _ => Unit

abbrev interface (Cursor : Type) : Interface := ⟨Request Cursor, Request.Answer⟩

/-- A program over a store, which announces nothing. -/
def ofStore (program : Store.Action Cursor α) : Program (interface Cursor) α :=
  program.servedBy fun query => Program.request (I := interface Cursor) (.store query)

def announce (source destination : Path) : Program (interface Cursor) Unit :=
  Program.request (I := interface Cursor) (.nested source destination)

/-- Passes on what is asked of the store, and lets announcements go unheard. -/
def silent : (query : Request Cursor) → Store.Action Cursor query.Answer
  | .store query => Program.request (I := Store.interface Cursor) query
  | .nested _ _ => .done ()

theorem servedBy_silent_ofStore (program : Store.Action Cursor α) :
    (ofStore program).servedBy silent = program := by
  induction program with
  | done value => rfl
  | fail failure => rfl
  | report notice rest ih => exact congrArg (Program.report notice) ih
  | ask query next ih =>
    refine congrArg (Program.ask query) (funext fun answer => ?_)
    cases answer with
    | ok value => exact ih (.ok value)
    | error failure => exact ih (.error failure)

theorem servedBy_silent_forM {next : β → Program (interface Cursor) PUnit} (items : List β) :
    (items.forM next).servedBy silent = items.forM fun item => (next item).servedBy silent := by
  induction items with
  | nil => rfl
  | cons item later ih => exact (Program.servedBy_bind _ _).trans (congrArg _ (funext fun _ => ih))

/-- The sources of the nested moves that were announced, in their order. -/
def nestedSources (exchanges : List (Exchange (interface Cursor))) : List Path :=
  exchanges.filterMap fun exchange =>
    match exchange.query with
    | .nested source _ => some source
    | .store _ => none

/-- The exchange announces a nested move from such a source. -/
def Announces (kind : Path → Prop) (exchange : Exchange (interface Cursor)) : Prop :=
  ∃ source destination, exchange.query = .nested source destination ∧ kind source

theorem exists_announces {kind : Path → Prop} {exchanges : List (Exchange (interface Cursor))}
    {source : Path} (member : source ∈ nestedSources exchanges) (holds : kind source) :
    ∃ exchange ∈ exchanges, Announces kind exchange := by
  obtain ⟨exchange, among, told⟩ := List.mem_filterMap.mp member
  refine ⟨exchange, among, ?_⟩
  obtain ⟨query, answer⟩ := exchange
  cases query with
  | store query => cases told
  | nested inner outer =>
    cases told
    exact ⟨_, outer, rfl, holds⟩

end Move

/-- Moves a directory as `moveDirectory` does, and announces each nested move. -/
def FileSystem.announcedMove (fs : FileSystem) : (depth : Nat) → (source destination : Path) →
    Program (Move.interface Cursor) Unit
  | 0, _, _ => .fail .tooDeep
  | depth + 1, source, destination =>
    if fs.root.stem source <+: fs.root.stem destination then
      Program.refuse (.destinationInside source destination)
    else do
      let children ← Move.ofStore (fs.requireChildren source false)
      Move.ofStore (fs.requireAbsent destination)
      Move.ofStore (fs.copyMarker source destination)
      children.forM fun child => do
        let old := Path.join source child.name
        let new := Path.join destination child.name
        if child.isDirectory then
          Move.announce old new
          announcedMove fs depth old new
        else Move.ofStore (fs.moveFile old new)
      Move.ofStore (fs.removeDirectory source true)

namespace FileSystem
variable {fs : FileSystem} {source destination : Path}

def announcedEntry (fs : FileSystem) (depth : Nat) (source destination : Path) (entry : Entry) :
    Program (Move.interface Cursor) Unit :=
  let old := Path.join source entry.name
  let new := Path.join destination entry.name
  if entry.isDirectory then (Move.announce old new).bind fun _ => fs.announcedMove depth old new
  else Move.ofStore (fs.moveFile old new)

theorem announcedMove_succ (fs : FileSystem) (depth : Nat) (source destination : Path) :
    (fs.announcedMove (depth + 1) source destination : Program (Move.interface Cursor) Unit) =
      if fs.root.stem source <+: fs.root.stem destination then
        Program.refuse (.destinationInside source destination)
      else
        (Move.ofStore (fs.requireChildren source false)).bind fun children =>
          (Move.ofStore (fs.requireAbsent destination)).bind fun _ =>
            (Move.ofStore (fs.copyMarker source destination)).bind fun _ =>
              (children.forM (fs.announcedEntry depth source destination)).bind fun _ =>
                Move.ofStore (fs.removeDirectory source true) :=
  rfl

/-- Unheard, a rename that announces its nested renames is the rename. -/
theorem servedBy_silent_announcedMove (fs : FileSystem) (depth : Nat) (source destination : Path) :
    (fs.announcedMove depth source destination).servedBy Move.silent =
      (fs.moveDirectory depth source destination : Store.Action Cursor Unit) := by
  induction depth generalizing source destination with
  | zero => rfl
  | succ depth ih =>
    have entry : ∀ entry : Entry,
        (fs.announcedEntry depth source destination entry).servedBy Move.silent =
          (fs.moveEntry depth source destination entry : Store.Action Cursor Unit) := by
      intro entry
      rw [announcedEntry, moveEntry]
      split
      · exact (Program.servedBy_bind _ _).trans (ih _ _)
      · exact Move.servedBy_silent_ofStore _
    rw [announcedMove_succ, moveDirectory_succ]
    split
    · rfl
    · simp only [Program.servedBy_bind, Move.servedBy_silent_ofStore, Move.servedBy_silent_forM,
        entry]

end FileSystem

namespace Move

/-- The behaviour of a store beside which announcements are heard. -/
def heard (may : Behaviour (Store.interface Cursor) σ) : Behaviour (interface Cursor) σ
  | .store query, state, answer, later => may query state answer later
  | .nested _ _, state, answer, later => answer = .ok () ∧ later = state

theorem heard_within {τ : Type} {handler : Handler (Store.interface Cursor) τ} {view : τ → σ}
    {may : Behaviour (Store.interface Cursor) σ} (within : handler.Within view may) :
    Handler.Within (handlerOf silent handler) view (heard may) := by
  intro query state
  cases query with
  | store query =>
    rw [handlerOf, silent, Program.run_request]
    exact within query state
  | nested source destination => exact ⟨rfl, rfl⟩

section settles
variable {may : Behaviour (Store.interface Cursor) σ} {inv : σ → Prop} {expected : Failure → Prop}
  {kind : Path → Prop}

/-- The program settles, and announces no nested move from a source of the kind. -/
abbrev Spares (may : Behaviour (Store.interface Cursor) σ) (inv : σ → Prop)
    (expected : Failure → Prop) (kind : Path → Prop) (program : Program (interface Cursor) α)
    (post : α → Prop) : Prop :=
  program.Settles ((heard may).noting (Announces kind)) (fun state => inv state.1 ∧ ¬ state.2)
    expected post

theorem ensures_ofStore {program : Store.Action Cursor α} {post : Except Failure α → σ → Prop}
    {state : σ × Prop} (ensured : program.Ensures may state.1 post) :
    (ofStore program).Ensures ((heard may).noting (Announces kind)) state fun result later =>
      post result later.1 ∧ (later.2 ↔ state.2) := by
  induction program generalizing state with
  | done value => exact ⟨ensured, Iff.rfl⟩
  | fail failure => exact ⟨ensured, Iff.rfl⟩
  | report notice rest ih => exact ih ensured
  | ask query next ih =>
    rintro answer later ⟨served, noted⟩
    have unmet : ¬ Announces kind (⟨.store query, answer⟩ : Exchange (interface Cursor)) := by
      rintro ⟨_, _, ⟨⟩, _⟩
    have rest : (ofStore (next answer)).Ensures ((heard may).noting (Announces kind)) later
        fun result final => post result final.1 ∧ (final.2 ↔ state.2) := by
      apply Ensures.mono (ih answer (ensured answer later.1 served))
      rintro result final ⟨holds, same⟩
      exact ⟨holds, same.trans (noted.trans (or_iff_left unmet))⟩
    cases answer with
    | ok value => exact rest
    | error failure => exact rest

theorem spares_ofStore {program : Store.Action Cursor α} {post : α → Prop}
    (settles : program.Settles may inv expected post) :
    Spares may inv expected kind (ofStore program) post := by
  rintro state ⟨kept, unmet⟩
  apply Ensures.mono (ensures_ofStore (settles state.1 kept))
  rintro result later ⟨⟨kept, fate⟩, same⟩
  exact ⟨⟨kept, fun met => unmet (same.mp met)⟩, fate⟩

theorem spares_announce {source destination : Path} (other : ¬ kind source) :
    Spares may inv expected kind (announce source destination) fun _ => True := by
  rintro state ⟨kept, unmet⟩ answer later ⟨⟨rfl, same⟩, noted⟩
  refine ⟨⟨same ▸ kept, fun met => ?_⟩, trivial⟩
  obtain before | ⟨inner, _, ⟨⟩, holds⟩ := noted.mp met
  · exact unmet before
  · exact other holds

/-- What is announced in a run is of no such kind. -/
theorem Spares.run {τ : Type} {handler : Handler (Store.interface Cursor) τ} {view : τ → σ}
    {program : Program (interface Cursor) α} {post : α → Prop}
    (spares : Spares may inv expected kind program post) (within : handler.Within view may)
    (start : τ) (kept : inv (view start)) :
    let ended := program.run (handlerOf silent handler) start
    Program.Fate expected post ended.result ∧
      ∀ source ∈ nestedSources ended.exchanges, ¬ kind source := by
  obtain ⟨⟨_, unmet⟩, fate⟩ := Ensures.met start (heard_within within)
    (spares (view start, False) ⟨kept, id⟩)
  exact ⟨fate, fun source member holds => unmet (.inr (exists_announces member holds))⟩

end settles
end Move
end KeyTree
