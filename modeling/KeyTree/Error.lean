import KeyTree.Path
import KeyTree.Text.Quoted

/-!
What can go wrong, by cause. A `Cause` is a refusal of the file system or of its
store: operations that answer with a Boolean turn it into `false`. A `Defect` is
a misuse or a broken answer from outside, and no operation turns it into an
answer. The wording of each stands in one place, its `message`.
-/
namespace KeyTree

/-- The kinds of refusal. -/
inductive Kind where
  | general
  | notFound
  | alreadyExists
  | conflict
  | directoryNotEmpty
  | invalidPrefix
  | missingParent
  | storeFailure
  deriving DecidableEq, Repr

/-- What a handler of errors may ask for: a kind with its special cases, or one
of the four families of errors known outside the file system. -/
inductive Category where
  | kind (kind : Kind)
  | entryExists
  | entryMissing
  | system
  | invalidValue
  deriving DecidableEq, Repr

/-- Whether a refusal of this kind belongs to the category. Every kind is a
`general` one, and a conflict is a special case of an existing entry. -/
def Kind.isA : Kind → Category → Bool
  | kind, .kind other =>
    kind = other || other = .general || (kind = .conflict && other = .alreadyExists)
  | kind, .entryExists => kind = .alreadyExists || kind = .conflict
  | kind, .entryMissing => kind = .notFound
  | kind, .system =>
    kind = .notFound || kind = .alreadyExists || kind = .conflict || kind = .storeFailure
  | kind, .invalidValue => kind = .invalidPrefix

/-- Why an operation was refused. -/
inductive Cause where
  | alreadyFile (path : Path)
  | ancestorIsFile (ancestor : Path)
  | parentMissing (path : Path)
  | markerNotCreated (marker : Key)
  | outsideParent (parent child : Key)
  | notListable (path : Path)
  | notEmpty (path : Path)
  | childNotDeleted (key : Key)
  | markerNotDeleted (marker : Key)
  | placeholderNotDeleted (placeholder : Key)
  | destinationExists (path : Path)
  | destinationInside (source destination : Path)
  | markerNotCopied (source destination : Key)
  | sourceMissing (path : Path)
  | notCopied (source destination : Key)
  | sourceNotDeleted (source destination : Key)
  | unknownPath (path : Path)
  | uploadFailed (key : Key) (reason : String)
  | listingFailed (stem : String) (bucket : Key) (reason : String)
  /-- A refusal in the words of the one who raised it. -/
  | stated (kind : Kind) (message : String)
  deriving DecidableEq, Repr

namespace Cause

def kind : Cause → Kind
  | alreadyFile _ | ancestorIsFile _ => .conflict
  | parentMissing _ => .missingParent
  | outsideParent _ _ | destinationInside _ _ => .invalidPrefix
  | notListable _ | sourceMissing _ | unknownPath _ => .notFound
  | notEmpty _ => .directoryNotEmpty
  | destinationExists _ => .alreadyExists
  | markerNotCreated _ | childNotDeleted _ | markerNotDeleted _ | placeholderNotDeleted _
  | markerNotCopied _ _ | notCopied _ _ | sourceNotDeleted _ _
  | uploadFailed _ _ | listingFailed _ _ _ => .storeFailure
  | stated kind _ => kind

open KeyTree.Path (text) in
def message : Cause → String
  | alreadyFile path => s!"{text path} is already a file"
  | ancestorIsFile ancestor => s!"ancestor {text ancestor} is already a file"
  | parentMissing path => s!"parent of {text path} does not exist"
  | markerNotCreated marker => s!"failed to create folder marker {text marker}"
  | outsideParent parent child =>
    s!"Invalid prefix. Parent: {text parent} Child: {text child}"
  | notListable path => s!"{text path} could not be listed as a directory"
  | notEmpty path =>
    s!"{text path} is not empty; delete it recursively to remove its children"
  | childNotDeleted key => s!"failed to delete {text key}, delete aborted"
  | markerNotDeleted marker => s!"failed to delete folder marker {text marker}"
  | placeholderNotDeleted placeholder =>
    s!"failed to delete folder placeholder {text placeholder}, delete aborted"
  | destinationExists path => s!"destination {text path} already exists"
  | destinationInside source destination =>
    s!"destination {text destination} is inside source {text source}"
  | markerNotCopied source destination =>
    s!"failed to copy folder marker {text source} to {text destination}"
  | sourceMissing path => s!"source {text path} does not exist or is a directory"
  | notCopied source destination => s!"failed to copy {text source} to {text destination}"
  | sourceNotDeleted source destination =>
    s!"copied {text source} to {text destination} but failed to delete the source; both keys exist"
  | unknownPath path => text path
  | uploadFailed key reason => s!"Failed to upload {text key}: {reason}"
  | listingFailed stem bucket reason => s!"Failed to list {stem} in {text bucket}: {reason}"
  | stated _ message => message

end Cause

/-- A misuse of the library, or an answer that its client broke. -/
inductive Defect where
  | emptyRoot
  | emptyBucket
  | rootHasNoMarker
  | unknownSpace (name : String)
  | closedUpload
  | notAnInteger (text : List Char)
  | numeralTooLong (limit count : Nat)
  | integerTooLong (limit : Nat)
  | missingField (name : String)
  | unknownUpload (name : String)
  /-- A value that the outside would not take, in its words. -/
  | rejectedValue (message : String)
  /-- A failure from outside that is none of the library's own. -/
  | foreign (message : String)
  deriving DecidableEq, Repr

namespace Defect

/-- A text as messages show it. -/
def quoted (text : List Char) : String := String.ofList (Text.quoted text)

/-- At most so many characters are shown of a text that is no integer. -/
def shownLength : Nat := 200

def message : Defect → String
  | emptyRoot => "root_key must not be empty"
  | emptyBucket => "bucket_name must not be empty"
  | rootHasNoMarker => "The root has no folder marker"
  | unknownSpace name => s!"Unknown space type: {name}"
  | closedUpload => "I/O operation on closed file."
  | notAnInteger text =>
    let shown := (Text.quoted text).take shownLength
    s!"invalid literal for int() with base 10: {String.ofList shown}"
  | numeralTooLong limit count =>
    s!"Exceeds the limit ({limit} digits) for integer string conversion: " ++
      s!"value has {count} digits; use sys.set_int_max_str_digits() to increase the limit"
  | integerTooLong limit =>
    s!"Exceeds the limit ({limit} digits) for integer string conversion; " ++
      "use sys.set_int_max_str_digits() to increase the limit"
  | missingField name | unknownUpload name => quoted name.toList
  | rejectedValue message | foreign message => message

end Defect

/-- How a program stops without a value. -/
inductive Failure where
  | refused (cause : Cause)
  | defect (defect : Defect)
  /-- A listing had more pages than the limits allow. -/
  | tooManyPages
  /-- A rename met more nested directories than the limits allow. -/
  | tooDeep
  deriving DecidableEq, Repr

end KeyTree
