import KeyTree.Store.Request

/-!
Uploads. What is written to an upload is kept until it is closed, and reaches the
store at the first close. An upload is closed after that, whether or not the store
took its content.
-/
namespace KeyTree

structure Upload where
  key : Key
  content : Content := []
  closed : Bool := false
  deriving DecidableEq, Repr

namespace Upload
variable {Cursor : Type}

def start (key : Key) : Store.Action Cursor Upload := do
  Store.openUpload key
  pure { key }

/-- Appends to an open upload and answers how many bytes were written. -/
def write (upload : Upload) (content : Content) : Except Defect (Nat × Upload) :=
  if upload.closed then .error .closedUpload
  else .ok (content.length, { upload with content := upload.content ++ content })

/-- Appends one content after the other. -/
def writeAll (upload : Upload) : List Content → Except Defect (List Nat × Upload)
  | [] => .ok ([], upload)
  | content :: later => do
    let (count, upload) ← upload.write content
    let (counts, upload) ← upload.writeAll later
    pure (count :: counts, upload)

/-- Stores the content, unless the upload was closed before. -/
def close (upload : Upload) : Store.Action Cursor (Except Failure Unit × Upload) :=
  if upload.closed then pure (.ok (), upload)
  else do
    let answer ← (Store.store upload.key upload.content).outcome
    pure (answer, { upload with closed := true })

end Upload

/-- Uploads under names of their own; a name that is used again replaces the
upload that had it. One that is replaced while it is open is dropped, not closed,
and what becomes of a dropped upload is not modelled. -/
abbrev Uploads := List (String × Upload)

namespace Uploads
variable {Cursor : Type}

/-- What can be done to an upload. -/
inductive Step where
  | start (key : Key)
  | write (content : Content)
  | close
  | askClosed
  deriving DecidableEq, Repr

inductive Reply where
  | started
  | written (count : Nat)
  | stored
  | closed (isClosed : Bool)
  deriving DecidableEq, Repr

def find (uploads : Uploads) (name : String) : Except Failure Upload :=
  match uploads.lookup name with
  | some upload => .ok upload
  | none => .error (.defect (.unknownUpload name))

def put (uploads : Uploads) (name : String) (upload : Upload) : Uploads :=
  (name, upload) :: uploads.filter fun entry => entry.1 ≠ name

/-- Takes one step with the upload of that name. A step that fails still leaves the
uploads as they are after it. A start under a name that has an open upload drops
that upload. -/
def step (uploads : Uploads) (name : String) :
    Step → Store.Action Cursor (Except Failure Reply × Uploads)
  | .start key => do
    match ← (Upload.start key).outcome with
    | .ok upload => pure (.ok .started, uploads.put name upload)
    | .error failure => pure (.error failure, uploads)
  | .write content =>
    match uploads.find name with
    | .error failure => pure (.error failure, uploads)
    | .ok upload =>
      match upload.write content with
      | .ok (count, upload) => pure (.ok (.written count), uploads.put name upload)
      | .error defect => pure (.error (.defect defect), uploads)
  | .close =>
    match uploads.find name with
    | .error failure => pure (.error failure, uploads)
    | .ok upload => do
      let (answer, upload) ← upload.close
      pure (answer.map fun _ => .stored, uploads.put name upload)
  | .askClosed =>
    match uploads.find name with
    | .error failure => pure (.error failure, uploads)
    | .ok upload => pure (.ok (.closed upload.closed), uploads)

end Uploads
end KeyTree
