import KeyTree.Number.Numeral
import KeyTree.S3.Error
import KeyTree.Store.Request

/-!
What an S3 client is asked, and what it answers. An answer may be an error of the
client. Fields of a response that the service left out are kept as absent.
-/
namespace KeyTree.S3

abbrev Token := List Char

/-- The response to a look at one object. -/
structure Head where
  sizeBytes : Option Scalar := none
  /-- Microseconds since 1970. -/
  lastModified : Option Int := none

/-- What a listing asks for; what is not given is left out of the call. -/
structure ListQuery where
  bucket : Key
  maxKeys : Int
  stem : Option Key := none
  delimiter : Option Path := none
  token : Option Token := none
  deriving DecidableEq, Repr

/-- The response to a listing; an entry without its key or stem is kept as absent. -/
structure Listing where
  keys : List (Option Key) := []
  groups : List (Option Key) := []
  truncated : Bool := false
  nextToken : Option Token := none

inductive Request where
  | head (bucket key : Key)
  | put (bucket key : Key) (content : Content) (contentLength : Option Nat)
  | copy (bucket key sourceBucket source : Key)
  | delete (bucket key : Key)
  | list (query : ListQuery)

abbrev Request.Answer : Request → Type
  | head _ _ => Except ClientError Head
  | put _ _ _ _ | copy _ _ _ _ | delete _ _ => Except ClientError Unit
  | list _ => Except ClientError Listing

abbrev client : Interface := ⟨Request, Request.Answer⟩

/-- A program over an S3 client. -/
abbrev Action (α : Type) := Program client α

def head (bucket key : Key) : Action (Except ClientError Head) :=
  Program.request (I := client) (.head bucket key)

def put (bucket key : Key) (content : Content) (contentLength : Option Nat := none) :
    Action (Except ClientError Unit) :=
  Program.request (I := client) (.put bucket key content contentLength)

def copy (bucket key sourceBucket source : Key) : Action (Except ClientError Unit) :=
  Program.request (I := client) (.copy bucket key sourceBucket source)

def delete (bucket key : Key) : Action (Except ClientError Unit) :=
  Program.request (I := client) (.delete bucket key)

def list (query : ListQuery) : Action (Except ClientError Listing) :=
  Program.request (I := client) (.list query)

end KeyTree.S3
