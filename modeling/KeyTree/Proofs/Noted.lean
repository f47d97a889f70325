import KeyTree.FileSystem.Removal
import KeyTree.Proofs.Ensures

/-!
Notes of what a run has met. Beside the state one bit is kept, whether some exchange of a
kind has been met, so that what a program does after such an exchange can be told from what
it does otherwise (`Ensures.met`). A listing that fails is the last that a removal asks for:
the names below the directory are then not known, and nothing is deleted.
-/
namespace KeyTree

variable {I : Interface} {α β σ τ : Type}

/-- The behaviour, with a note whether an exchange of the kind has been met. -/
def Behaviour.noting (may : Behaviour I σ) (kind : Exchange I → Prop) : Behaviour I (σ × Prop) :=
  fun query state answer later =>
    may query state.1 answer later.1 ∧ (later.2 ↔ state.2 ∨ kind ⟨query, answer⟩)

namespace Program
variable {may : Behaviour I σ} {kind : Exchange I → Prop}

namespace Ensures
variable {program : Program I α} {post other : Except Failure α → σ → Prop}

/-- What holds without notes holds beside them. -/
theorem unnoted {state : σ × Prop} (ensured : program.Ensures may state.1 post) :
    program.Ensures (may.noting kind) state fun result later => post result later.1 :=
  ensured.of_view fun _ _ _ _ served => served.1

/-- At the end of a run the note tells whether its exchanges hold one of the kind. -/
theorem met {handler : Handler I τ} {view : τ → σ} (start : τ) {noted : Prop}
    {post : Except Failure α → σ × Prop → Prop} (within : handler.Within view may)
    (ensured : program.Ensures (may.noting kind) (view start, noted) post) :
    let ended := program.run handler start
    post ended.result
      (view ended.state, noted ∨ ∃ exchange ∈ ended.exchanges, kind exchange) := by
  induction program generalizing start noted with
  | done value => simpa [Program.run, Ensures] using ensured
  | fail failure => simpa [Program.run, Ensures] using ensured
  | report notice rest ih => simpa [Program.run, Ensures] using ih start ensured
  | ask query next ih =>
    have ended := ih _ _ (ensured _ (view (handler query start).2,
      noted ∨ kind ⟨query, (handler query start).1⟩) ⟨within query start, Iff.rfl⟩)
    simpa [Program.run, or_assoc] using ended

end Ensures

/-- The program meets no exchange of the kind, whatever is answered. -/
def Avoids (kind : Exchange I → Prop) (program : Program I α) : Prop :=
  ∀ (σ : Type) (may : Behaviour I σ) (state : σ × Prop),
    program.Ensures (may.noting kind) state fun _ later => later.2 ↔ state.2

namespace Avoids

theorem done (value : α) : Avoids kind (.done value : Program I α) :=
  fun _ _ _ => Iff.rfl

theorem fail (failure : Failure) : Avoids kind (.fail failure : Program I α) :=
  fun _ _ _ => Iff.rfl

theorem notify (notice : Notice) : Avoids kind (notify notice : Program I Unit) :=
  fun _ _ _ => Iff.rfl

theorem ite {condition : Prop} [Decidable condition] {first second : Program I α}
    (yes : Avoids kind first) (no : Avoids kind second) :
    Avoids kind (if condition then first else second) := by
  split
  · exact yes
  · exact no

theorem request {query : I.Request} (other : ∀ answer, ¬ kind ⟨query, answer⟩) :
    Avoids kind (request query) := by
  intro σ may state answer later served
  have same : later.2 ↔ state.2 := served.2.trans (or_iff_left (other answer))
  cases answer with
  | ok value => exact same
  | error failure => exact same

theorem bind {program : Program I α} {next : α → Program I β} (first : Avoids kind program)
    (second : ∀ value, Avoids kind (next value)) : Avoids kind (program.bind next) := by
  intro σ may state
  apply Ensures.bind (first σ may state)
  · intro value later same
    exact Ensures.mono (second value σ may later) fun _ _ still => still.trans same
  · intro failure later same
    exact same

theorem forM {next : β → Program I PUnit} (each : ∀ item, Avoids kind (next item))
    (items : List β) : Avoids kind (items.forM next) := by
  induction items with
  | nil => exact fun _ _ _ => Iff.rfl
  | cons item later ih => exact bind (each item) fun _ => ih

theorem foldlM {next : α → β → Program I α} (each : ∀ value item, Avoids kind (next value item))
    (items : List β) (value : α) : Avoids kind (items.foldlM next value) := by
  induction items generalizing value with
  | nil => exact fun _ _ _ => Iff.rfl
  | cons item later ih => exact bind (each value item) fun next => ih next

end Avoids
/-- Whatever is answered, a value that the program returns is one of these. -/
def Yields (program : Program I α) (allowed : α → Prop) : Prop :=
  ∀ (σ : Type) (may : Behaviour I σ) (state : σ),
    program.Ensures may state fun result _ => ∀ value, result = .ok value → allowed value

/-- A value that the program returns although it has met an exchange of the kind is one of
these. -/
def Heeds (kind : Exchange I → Prop) (program : Program I α) (allowed : α → Prop) : Prop :=
  ∀ (σ : Type) (may : Behaviour I σ) (state : σ × Prop), ¬ state.2 →
    program.Ensures (may.noting kind) state fun result later =>
      later.2 → ∀ value, result = .ok value → allowed value

theorem Yields.done {value : α} {allowed : α → Prop} (holds : allowed value) :
    Yields (.done value : Program I α) allowed := by
  intro σ may state other same
  cases same
  exact holds

theorem Yields.fail (failure : Failure) (allowed : α → Prop) :
    Yields (.fail failure : Program I α) allowed := by
  intro σ may state value same
  cases same

theorem Avoids.heeds {program : Program I α} (avoids : Avoids kind program)
    (allowed : α → Prop) : Heeds kind program allowed := by
  intro σ may state unmet
  apply Ensures.mono (avoids σ may state)
  intro result later same met
  exact absurd (same.mp met) unmet

namespace Heeds
variable {program : Program I α} {next : α → Program I β} {early : α → Prop} {allowed : β → Prop}

/-- What has been met in the first part decides how the second part may end. -/
theorem bind (first : Heeds kind program early)
    (stops : ∀ value, early value → Yields (next value) allowed)
    (rest : ∀ value, Heeds kind (next value) allowed) :
    Heeds kind (program.bind next) allowed := by
  intro σ may state unmet
  apply Ensures.bind (first σ may state unmet)
  · intro value later returned
    by_cases met : later.2
    · apply Ensures.mono (stops value (returned met value rfl) _ _ later)
      intro result final yields _
      exact yields
    · exact rest value σ may later met
  · intro failure later _ _ value same
    cases same

theorem bind_avoids (first : Avoids kind program) (rest : ∀ value, Heeds kind (next value) allowed) :
    Heeds kind (program.bind next) allowed :=
  bind (first.heeds fun _ => False) (fun _ => False.elim) rest

/-- A refusal after such an exchange is still seen where it is caught. -/
theorem attempt (first : Heeds kind program fun _ => False) :
    Heeds kind program.attempt fun answer => ∃ cause, answer = .error cause := by
  intro σ may state unmet
  apply Ensures.mono (Ensures.attempt (first σ may state unmet))
  intro result later ended met answer same
  subst same
  rcases ended with ⟨value, _, returned⟩ | ⟨cause, same, _⟩ | ⟨failure, _, same, _⟩
  · exact (returned met value rfl).elim
  · exact ⟨cause, Except.ok.inj same⟩
  · cases same

end Heeds
end Program

variable {Cursor : Type}

/-- A listing was asked for, its first page or a later one, and failed. -/
def Exchange.ListingFails : Exchange (Store.interface Cursor) → Prop
  | ⟨.list _ _ _, .error _⟩ | ⟨.more _, .error _⟩ => True
  | _ => False

namespace FileSystem

open Program (Ensures Avoids Heeds)

variable {fs : FileSystem}

/-- A program that asks for no listing meets none that fails. -/
abbrev Unlisted (program : Store.Action Cursor α) : Prop :=
  Avoids Exchange.ListingFails program

theorem unlisted_status (key : Key) : Unlisted (Store.status key : Store.Action Cursor _) :=
  .request fun _ => id

theorem unlisted_createEmpty (key : Key) :
    Unlisted (Store.createEmpty key : Store.Action Cursor _) :=
  .request fun _ => id

theorem unlisted_delete (key : Key) : Unlisted (Store.delete key : Store.Action Cursor _) :=
  .request fun _ => id

theorem unlisted_removePlaceholder (path : Path) :
    Unlisted (fs.removePlaceholder path : Store.Action Cursor _) := by
  unfold removePlaceholder
  apply Avoids.ite (.done ())
  apply Avoids.bind (unlisted_status _)
  intro status
  cases status with
  | none => exact .done ()
  | some status => exact .bind (unlisted_delete _) fun made => .ite (.notify _) (.fail _)

theorem unlisted_removeEntry (path : Path) (entry : Entry) :
    Unlisted (fs.removeEntry path entry : Store.Action Cursor _) := by
  apply Avoids.bind (unlisted_delete _)
  intro made
  exact .ite (.ite (unlisted_removePlaceholder _) (.done ())) (.fail _)

theorem unlisted_removeMarker (path : Path) :
    Unlisted (fs.removeMarker path : Store.Action Cursor _) :=
  .bind (unlisted_delete _) fun _ => .ite (.done ()) (.fail _)

theorem unlisted_mergePage (stem : Key) (children : List Entry) (page : Store.Page Cursor) :
    Unlisted (fs.mergePage stem children page) := by
  have group : ∀ children group, Unlisted (fs.mergeGroup stem children group :
      Store.Action Cursor _) := by
    intro children group
    unfold mergeGroup
    cases Path.childName group stem with
    | error cause => exact .fail _
    | ok below =>
      apply Avoids.ite (.done _)
      have marks : Unlisted (fs.markGroup group : Store.Action Cursor _) := by
        apply Avoids.bind (.notify _)
        intro _
        exact .bind (unlisted_createEmpty _) fun made => .ite (.done ()) (.notify _)
      exact .bind marks fun _ => .done _
  unfold mergePage
  cases page.objects.foldlM (fs.mergeObject stem) children with
  | error cause => exact .fail _
  | ok children => exact .foldlM group page.groups children

theorem heeds_list (stem : Key) (recursive : Bool) (pageSize : Int) :
    Heeds Exchange.ListingFails (Store.list stem recursive pageSize : Store.Action Cursor _)
      fun _ => False := by
  intro σ may state unmet answer later served
  cases answer with
  | ok page => exact fun met => absurd (served.2.mp met) (not_or_intro unmet id)
  | error failure => exact fun _ _ same => nomatch same

theorem heeds_more (cursor : Cursor) :
    Heeds Exchange.ListingFails (Store.more cursor) fun _ => False := by
  intro σ may state unmet answer later served
  cases answer with
  | ok page => exact fun met => absurd (served.2.mp met) (not_or_intro unmet id)
  | error failure => exact fun _ _ same => nomatch same

/-- A look whose listing fails finds no directory. -/
theorem heeds_isDirectory (path : Path) :
    Heeds Exchange.ListingFails (fs.isDirectory path : Store.Action Cursor Bool)
      fun found => found = false := by
  have below : Heeds Exchange.ListingFails
      (fs.probeBelow path : Store.Action Cursor _) fun status => status = none := by
    apply Heeds.bind (heeds_list _ true 1).attempt
    · rintro _ ⟨cause, rfl⟩
      dsimp only
      split
      · exact .done rfl
      · exact .fail _ _
    · intro answer
      apply Avoids.heeds
      cases answer with
      | error cause => exact .ite (.bind (.notify _) fun _ => .done none) (.fail _)
      | ok page =>
        cases page with
        | none => exact .done none
        | some page =>
          apply Avoids.ite (.done none)
          apply Avoids.bind (.notify _)
          intro _
          exact .bind (unlisted_createEmpty _) fun _ => unlisted_status _
  have probe : Heeds Exchange.ListingFails
      (fs.probe path : Store.Action Cursor _) fun status => status = none := by
    unfold probe
    split
    · exact (Avoids.fail _).heeds _
    · apply Heeds.bind_avoids (unlisted_status _)
      intro status
      cases status with
      | some status => exact (Avoids.done _).heeds _
      | none => exact below
  unfold isDirectory
  split
  · exact (Avoids.done _).heeds _
  · apply Heeds.bind probe
    · rintro _ rfl
      exact .done rfl
    · exact fun status => (Avoids.done _).heeds _

theorem heeds_walk (stem : Key) (limit : Nat) (children : List Entry) (page : Store.Page Cursor) :
    Heeds Exchange.ListingFails (Store.Page.walk (fs.mergePage stem) limit children page)
      fun _ => False := by
  induction limit generalizing children page with
  | zero => exact (Avoids.fail _).heeds _
  | succ limit ih =>
    apply Heeds.bind_avoids (unlisted_mergePage stem children page)
    intro merged
    cases page.next with
    | none => exact (Avoids.done _).heeds _
    | some cursor =>
      apply Heeds.bind (heeds_more cursor)
      · exact fun _ => False.elim
      · intro next
        cases next with
        | none => exact (Avoids.done _).heeds _
        | some next => exact ih merged next

/-- Whoever asks for the entries of a directory learns of a listing that fails. -/
theorem heeds_requireChildren (path : Path) (recursive : Bool) :
    Heeds Exchange.ListingFails
      (fs.requireChildren path recursive : Store.Action Cursor (List Entry)) fun _ => False := by
  have children : Heeds Exchange.ListingFails
      (fs.children path recursive : Store.Action Cursor _) fun listed => listed = none := by
    apply Heeds.bind (heeds_isDirectory path)
    · rintro _ rfl
      exact .done rfl
    · intro found
      cases found with
      | false => exact (Avoids.done _).heeds _
      | true =>
        dsimp only
        cases fs.settings.pageSize with
        | error defect => exact (Avoids.fail _).heeds _
        | ok pageSize =>
          apply Heeds.bind (heeds_list _ recursive pageSize)
          · exact fun _ => False.elim
          · intro first
            cases first with
            | none => exact (Avoids.done _).heeds _
            | some first =>
              apply Heeds.bind (heeds_walk _ _ _ first)
              · exact fun _ => False.elim
              · exact fun merged => (Avoids.done _).heeds _
  apply Heeds.bind children
  · rintro _ rfl
    exact .fail _ _
  · intro listed
    cases listed with
    | none => exact (Avoids.fail _).heeds _
    | some listed => exact (Avoids.done _).heeds _

end FileSystem
end KeyTree
