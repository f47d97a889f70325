import KeyTree.FileSystem.Basic
import KeyTree.Text.Quoted

/-!
Directories. A directory is a path with a marker, an empty object under the path's
key and the suffix, or a path with keys below it. One that has only keys below it
gets its marker when it is looked for. Making a directory makes the missing ones
above it first, from the outermost inwards, and leaves them if it fails later.
-/
namespace KeyTree.FileSystem

open Program (refuse notify)

variable {Cursor : Type}

def createMarker (fs : FileSystem) (path : Path) : Store.Action Cursor Bool :=
  Store.createEmpty (fs.markerKey path)

/-- Creates a missing marker for a directory with keys below it. -/
def healMarker (marker : Key) : Store.Action Cursor (Option Store.Status) := do
  notify (.markerMissing marker)
  let _ ← Store.createEmpty marker
  Store.status marker

/-- Looks for keys below a path and heals the marker if there are any. A store that
fails to list them is reported, and the path counts as no directory. -/
def probeBelow (fs : FileSystem) (path : Path) :
    Store.Action Cursor (Option Store.Status) := do
  let stem := fs.root.stem path
  match ← (Store.list stem true 1).attempt with
  | .error cause =>
    if cause.kind = .storeFailure then
      notify (.unlistable path (String.ofList (Text.quoted stem)) cause)
      pure none
    else refuse cause
  | .ok none => pure none
  | .ok (some page) =>
    if page.objects = [] then pure none else healMarker (fs.markerKey path)

/-- The status of the marker of a path, if the path is a directory. -/
def probe (fs : FileSystem) (path : Path) : Store.Action Cursor (Option Store.Status) :=
  if fs.root.isRoot path then .fail (.defect .rootHasNoMarker)
  else do
    match ← Store.status (fs.markerKey path) with
    | some status => pure (some status)
    | none => fs.probeBelow path

def isDirectory (fs : FileSystem) (path : Path) : Store.Action Cursor Bool :=
  if fs.root.isRoot path then pure true
  else do
    let status ← fs.probe path
    pure status.isSome

def isFile (fs : FileSystem) (path : Path) : Store.Action Cursor Bool := do
  let status ← Store.status (fs.root.relative path)
  pure status.isSome

/-- Whether the directory above is there; above the root, and above a name right
below it, it always is. -/
def parentExists (fs : FileSystem) (path : Path) : Store.Action Cursor Bool :=
  match fs.root.parent? path with
  | none => pure true
  | some parent => fs.isDirectory parent

def requireMarker (fs : FileSystem) (path : Path) : Store.Action Cursor Unit := do
  if ← fs.createMarker path then pure ()
  else refuse (.markerNotCreated (fs.markerKey path))

/-- Of the paths upwards from one, those before the first directory, the outermost
first. -/
def missing (fs : FileSystem) : List Path → Store.Action Cursor (List Path)
  | [] => pure []
  | path :: above => do
    if ← fs.isDirectory path then pure []
    else
      let outer ← fs.missing above
      pure (outer ++ [path])

/-- Creates the marker of a missing ancestor, unless a file is in its place. -/
def makeAncestor (fs : FileSystem) (ancestor : Path) : Store.Action Cursor Unit := do
  if ← fs.isFile ancestor then refuse (.ancestorIsFile ancestor)
  else fs.requireMarker ancestor

/-- Makes a path that is neither a directory nor a file into a directory. -/
def makeMissing (fs : FileSystem) (path : Path) (createParents : Bool) :
    Store.Action Cursor Unit :=
  if createParents then do
    let ancestors ← fs.missing (fs.root.ancestors path)
    ancestors.forM fs.makeAncestor
    fs.requireMarker path
  else do
    if ← fs.parentExists path then fs.requireMarker path
    else refuse (.parentMissing path)

def makeDirectory (fs : FileSystem) (path : Path) (createParents : Bool) :
    Store.Action Cursor Unit := do
  let path := if fs.root.isRoot path then path else Path.trimEnd path
  if ← fs.isDirectory path then pure ()
  else if ← fs.isFile path then refuse (.alreadyFile path)
  else fs.makeMissing path createParents

/-- Makes a directory, and answers whether the path is one afterwards. -/
def makeDirectories (fs : FileSystem) (path : Path) (createParents : Bool := true) :
    Store.Action Cursor Bool :=
  (fs.makeDirectory path createParents).succeeds (.directoryNotMade path)

end KeyTree.FileSystem
