import KeyTree.Error

/-!
What the file system reports while it works. A notice has a level, the component
that reports it, and a message; none of them changes an answer.
-/
namespace KeyTree

inductive Level where
  | debug
  | warning
  | error
  deriving DecidableEq, Repr

inductive Component where
  | directories
  | listing
  | operations
  | fileSystem
  | s3
  deriving DecidableEq, Repr

inductive Notice where
  /-- The keys below a path could not be listed, so it counts as no directory. -/
  | unlistable (path : Path) (stem : String) (cause : Cause)
  | markerMissing (marker : Key)
  | directoryNotMade (path : Path) (cause : Cause)
  | directoryInferred (group : Key)
  | inferredMarkerNotCreated (group : Key)
  | deleted (key : Key)
  | directoryNotDeleted (path : Path) (cause : Cause)
  | directoryNotRenamed (source destination : Path) (cause : Cause)
  | fileNotRenamed (source destination : Path) (cause : Cause)
  | statusMissing (path : Path)
  | objectNotCreated (key : Key) (reason : String)
  | objectNotCopied (source destination : Key) (reason : String)
  | objectNotDeleted (key : Key) (reason : String)
  | statusNotFetched (key : Key) (reason : String)
  deriving DecidableEq, Repr

namespace Notice

def level : Notice → Level
  | markerMissing _ | directoryInferred _ | deleted _ => .debug
  | unlistable _ _ _ | inferredMarkerNotCreated _ | statusNotFetched _ _ => .warning
  | directoryNotMade _ _ | directoryNotDeleted _ _ | directoryNotRenamed _ _ _
  | fileNotRenamed _ _ _ | statusMissing _ | objectNotCreated _ _ | objectNotCopied _ _ _
  | objectNotDeleted _ _ => .error

def component : Notice → Component
  | unlistable _ _ _ | markerMissing _ | directoryNotMade _ _ => .directories
  | directoryInferred _ | inferredMarkerNotCreated _ => .listing
  | deleted _ | directoryNotDeleted _ _ | directoryNotRenamed _ _ _
  | fileNotRenamed _ _ _ => .operations
  | statusMissing _ => .fileSystem
  | objectNotCreated _ _ | objectNotCopied _ _ _ | objectNotDeleted _ _
  | statusNotFetched _ _ => .s3

open KeyTree.Path (text) in
def message : Notice → String
  | unlistable path stem cause =>
    s!"Treating {text path} as not a directory, listing {stem} failed: {cause.message}"
  | markerMissing marker => s!"Creating missing folder marker {text marker}"
  | directoryNotMade path cause => s!"Cannot create directory {text path}: {cause.message}"
  | directoryInferred group =>
    s!"Creating folder marker for inferred directory {text group}"
  | inferredMarkerNotCreated group => s!"Unable to create folder marker for {text group}"
  | deleted key => s!"Deleted {text key}"
  | directoryNotDeleted path cause =>
    s!"Unable to delete directory {text path}: {cause.message}"
  | directoryNotRenamed source destination cause =>
    s!"Unable to rename directory {text source} to {text destination}: {cause.message}"
  | fileNotRenamed source destination cause =>
    s!"Unable to rename file {text source} to {text destination}: {cause.message}"
  | statusMissing path =>
    s!"Error fetching metadata for {text path}, assuming it does not exist"
  | objectNotCreated key reason => s!"Failed to create object {text key}: {reason}"
  | objectNotCopied source destination reason =>
    s!"Failed to copy {text source} to {text destination}: {reason}"
  | objectNotDeleted key reason => s!"Failed to delete {text key}: {reason}"
  | statusNotFetched key reason => s!"Failed to fetch metadata for {text key}: {reason}"

end Notice
end KeyTree
