import KeyTree.Program.Run
import KeyTree.S3.Client
import KeyTree.Store.Contents

/-!
A client over a dictionary of objects. It never fails on its own account, except to
say that an object is absent. Each page of a listing is cut from the entries as they
are at that call, from the offset that the token names. Offsets have any length in
`serve`, and in `serveBounded` only so many digits as a numeral may have.
-/
namespace KeyTree.S3.Dictionary

/-- Every object was written one second after the start of 1970. -/
def writeTime : Int := 1000000

def absent (call : Call) (code message : String) : ClientError :=
  .service call (some code) (some message)

def offset (token : Option Token) : Except Defect Int :=
  match token with
  | none => .ok 0
  | some token =>
    match Numeral.integer? token with
    | some value => .ok value
    | none => .error (.notAnInteger token)

def tokenAt : (offset : Int) → Token
  | .ofNat value => Nat.toDigits 10 value
  | .negSucc value => '-' :: Nat.toDigits 10 (value + 1)

/-- The place that an offset names among so many entries. A negative offset counts
from the end, and one that misses either end is brought to it. -/
def place (count : Nat) (offset : Int) : Nat :=
  if offset < 0 then (offset + count).toNat else min offset.toNat count

@[simp] theorem place_natCast (count offset : Nat) : place count offset = min offset count := by
  rw [place, if_neg (by omega), Int.toNat_natCast]

/-- The entries from one offset up to another. -/
def slice (entries : List Listed) (start stop : Int) : List Listed :=
  (entries.take (place entries.length stop)).drop (place entries.length start)

/-- Offsets that count from the start drop what is before them and take what is left. -/
theorem slice_natCast (entries : List Listed) (start size : Nat) :
    slice entries start (start + size) = (entries.drop start).take size := by
  rw [slice, ← Int.natCast_add, place_natCast, place_natCast, List.drop_take]
  grind [List.take_eq_take_iff, List.drop_eq_drop_iff]

/-- The part of the entries that a listing asks for. -/
def listing (entries : List Listed) (start pageSize : Int) : Listing :=
  let page := slice entries start (start + pageSize)
  let truncated := decide (start + pageSize < entries.length)
  { keys := (Listed.objects page).map some
    groups := (Listed.groups page).map some
    truncated
    nextToken := if truncated then some (tokenAt (start + pageSize)) else none }

def answerList (contents : Contents) (query : ListQuery) : Except Defect Listing := do
  let start ← offset query.token
  let entries := contents.entries (query.stem.getD []) query.delimiter.isSome
  pure (listing entries start query.maxKeys)

def serve : Handler client Contents
  | .head _ key, contents =>
    match contents[key]? with
    | some content => (.ok (.ok ⟨some (.integer content.length), some writeTime⟩), contents)
    | none => (.ok (.error (absent .head "404" "Not Found")), contents)
  | .put _ key content _, contents => (.ok (.ok ()), contents.insert key content)
  | .copy _ key _ source, contents =>
    match contents[source]? with
    | some content => (.ok (.ok ()), contents.insert key content)
    | none => (.ok (.error (absent .copy "NoSuchKey" "NoSuchKey")), contents)
  | .delete _ key, contents => (.ok (.ok ()), contents.erase key)
  | .list query, contents =>
    match answerList contents query with
    | .ok response => (.ok (.ok response), contents)
    | .error defect => (.error (.defect defect), contents)

def tooLong (token : Token) : Bool := Numeral.longest < token.countP Char.isDigit

/-- Serves as `serve` does, but refuses an offset with too many digits, in the token of
a query as in the token for the next page. -/
def serveBounded : Handler client Contents
  | .list query, contents =>
    match query.token.map Scalar.ofText with
    | some (.error defect) => (.error (.defect defect), contents)
    | _ =>
      match answerList contents query with
      | .error defect => (.error (.defect defect), contents)
      | .ok response =>
        if response.nextToken.any tooLong then
          (.error (.defect (.integerTooLong Numeral.longest)), contents)
        else (.ok (.ok response), contents)
  | query, contents => serve query contents

end KeyTree.S3.Dictionary
