import KeyTree.FileSystem.Basic
import KeyTree.S3.Client
import KeyTree.S3.Time
import KeyTree.Text.Quoted

/-!
A bucket as an object store. Each request of a store becomes one call of the client.
An error of the client is an answer where the store has one for it: a change that
was not made, or an object without a status. Only listings and uploads are refused.
A cursor repeats its listing with the token that the last response gave.
-/
namespace KeyTree.S3

open Program (refuse notify ofExcept)

/-- A listing to be continued. -/
structure Cursor where
  stem : Key
  recursive : Bool
  pageSize : Int
  token : Token
  deriving DecidableEq, Repr

structure Bucket where
  name : Key
  suffix : Key
  name_ne_nil : name ≠ []

namespace Bucket

def scheme : Path := ['s', '3', ':', '/', '/']

def rootKey (bucket : Bucket) : Key := scheme ++ bucket.name

def root (bucket : Bucket) : Root :=
  ⟨bucket.rootKey, List.append_ne_nil_of_right_ne_nil scheme bucket.name_ne_nil⟩

/-- The file system in a bucket. -/
def fileSystem (bucket : Bucket) (settings : Settings := {}) (limits : Limits := {}) :
    FileSystem where
  root := bucket.root
  suffix := bucket.suffix
  settings := settings
  limits := limits

/-- Answers whether a change was made, and reports the error if it was not. -/
def made (answer : Except ClientError Unit) (notice : String → Notice) : Action Bool :=
  match answer with
  | .ok _ => pure true
  | .error error => do
    notify (notice error.message)
    pure false

def createEmpty (bucket : Bucket) (key : Key) : Action Bool := do
  made (← put bucket.name key [] (some 0)) (.objectNotCreated key)

def copyObject (bucket : Bucket) (source destination : Key) : Action Bool := do
  made (← copy bucket.name destination bucket.name source)
    (.objectNotCopied source destination)

def deleteObject (bucket : Bucket) (key : Key) : Action Bool := do
  made (← delete bucket.name key) (.objectNotDeleted key)

/-- The size that a response gives; one that is missing or empty counts as zero. -/
def sizeOf (size : Option Scalar) : Except Defect Int :=
  match size with
  | none => .ok 0
  | some size => if size.isEmpty then .ok 0 else size.toInt

def statusOf (response : Head) : Except Defect Store.Status := do
  let sizeBytes ← sizeOf response.sizeBytes
  pure ⟨sizeBytes, (response.lastModified.map millisecondsOfMicroseconds).getD 0⟩

/-- The status of an object. Every error reads as absence, and is reported unless it
says just that. -/
def status (bucket : Bucket) (key : Key) : Action (Option Store.Status) := do
  match ← head bucket.name key with
  | .ok response => some <$> ofExcept ((statusOf response).mapError .defect)
  | .error error =>
    if error.saysAbsent then pure none
    else
      notify (.statusNotFetched key error.message)
      pure none

def required (name : String) (field : Option Key) : Except Defect Key :=
  match field with
  | some key => .ok key
  | none => .error (.missingField name)

/-- A page from a response. There is a next page only if the response is cut and
brings a token for the rest. -/
def pageOf (stem : Key) (recursive : Bool) (pageSize : Int) (response : Listing) :
    Except Defect (Store.Page Cursor) := do
  let objects ← response.keys.mapM (required "Key")
  let groups ← response.groups.mapM (required "Prefix")
  let next := match response.nextToken with
    | some token =>
      if response.truncated && token ≠ [] then some ⟨stem, recursive, pageSize, token⟩
      else none
    | none => none
  pure { objects, groups, next }

def fetch (bucket : Bucket) (stem : Key) (recursive : Bool) (pageSize : Int)
    (token : Option Token) : Action (Option (Store.Page Cursor)) := do
  let answer ← list
    { bucket := bucket.name
      maxKeys := pageSize
      stem := if stem = [] then none else some stem
      delimiter := if recursive then none else some [Path.separator]
      token }
  match answer with
  | .ok response => some <$> ofExcept ((pageOf stem recursive pageSize response).mapError .defect)
  | .error error =>
    refuse (.listingFailed (String.ofList (Text.quoted stem)) bucket.name error.message)

/-- Stores the content of an upload. -/
def upload (bucket : Bucket) (key : Key) (content : Content) : Action Unit := do
  match ← put bucket.name key content with
  | .ok _ => pure ()
  | .error error => refuse (.uploadFailed key error.message)

/-- Serves the requests of a store by calls of a client. -/
def serve (bucket : Bucket) :
    (query : Store.Request Cursor) → Action (Store.Request.Answer query)
  | .status key => bucket.status key
  | .createEmpty key => bucket.createEmpty key
  | .copy source destination => bucket.copyObject source destination
  | .delete key => bucket.deleteObject key
  | .list stem recursive pageSize => bucket.fetch stem recursive pageSize none
  | .more cursor =>
    bucket.fetch cursor.stem cursor.recursive cursor.pageSize (some cursor.token)
  | .openUpload _ => pure ()
  | .store key content => bucket.upload key content

end Bucket
end KeyTree.S3
