import KeyTree.Store.Request

/-!
Walking a listing. A page is fetched only when the one before it has been dealt
with, and no page behind the last wanted one is fetched.
-/
namespace KeyTree.Store.Page

variable {Cursor β : Type}

/-- Visits every page in order, the first one given, at most `limit` of them. -/
def walk (visit : β → Page Cursor → Action Cursor β) :
    (limit : Nat) → β → Page Cursor → Action Cursor β
  | 0, _, _ => .fail .tooManyPages
  | limit + 1, value, page => do
    let value ← visit value page
    match page.next with
    | none => pure value
    | some cursor =>
      match ← more cursor with
      | none => pure value
      | some next => walk visit limit value next

/-- Collects the first `count` pages, and the failure that ended the listing early. -/
def take : (count : Nat) → Option (Page Cursor) →
    Action Cursor (List (Page Cursor) × Option Failure)
  | 0, _ => pure ([], none)
  | _, none => pure ([], none)
  | 1, some page => pure ([page], none)
  | count + 2, some page =>
    match page.next with
    | none => pure ([page], none)
    | some cursor => do
      match ← (more cursor).outcome with
      | .error failure => pure ([page], some failure)
      | .ok next =>
        let (later, stop) ← take (count + 1) next
        pure (page :: later, stop)

end KeyTree.Store.Page
