import KeyTree.FileSystem.Removal

/-!
Renaming. A file is copied and its source deleted. A directory is renamed by its
marker, then child by child, and at the end the source is removed with whatever is
left in it. A rename never goes to a place that is taken, nor into its own source.
It stops at the first step that fails and takes nothing back.
-/
namespace KeyTree.FileSystem

open Program (refuse)

variable {Cursor : Type}

def requireAbsent (fs : FileSystem) (path : Path) : Store.Action Cursor Unit := do
  if ← fs.isFile path then refuse (.destinationExists path)
  else if ← fs.isDirectory path then refuse (.destinationExists path)
  else pure ()

/-- Copies the object of one key to another, then deletes the first. -/
def moveObject (source destination : Key) : Store.Action Cursor Unit := do
  if ← Store.copy source destination then
    if ← Store.delete source then pure ()
    else refuse (.sourceNotDeleted source destination)
  else refuse (.notCopied source destination)

def moveFile (fs : FileSystem) (source destination : Path) : Store.Action Cursor Unit := do
  if ← fs.isFile source then
    fs.requireAbsent destination
    moveObject (fs.root.relative source) (fs.root.relative destination)
  else refuse (.sourceMissing source)

def copyMarker (fs : FileSystem) (source destination : Path) :
    Store.Action Cursor Unit := do
  if ← Store.copy (fs.markerKey source) (fs.markerKey destination) then pure ()
  else refuse (.markerNotCopied (fs.markerKey source) (fs.markerKey destination))

/-- Moves a directory and those nested in it, to at most `depth` levels. -/
def moveDirectory (fs : FileSystem) : (depth : Nat) → (source destination : Path) →
    Store.Action Cursor Unit
  | 0, _, _ => .fail .tooDeep
  | depth + 1, source, destination =>
    if fs.root.stem source <+: fs.root.stem destination then
      refuse (.destinationInside source destination)
    else do
      let children ← fs.requireChildren source false
      fs.requireAbsent destination
      fs.copyMarker source destination
      children.forM fun child =>
        let old := Path.join source child.name
        let new := Path.join destination child.name
        if child.isDirectory then moveDirectory fs depth old new else fs.moveFile old new
      fs.removeDirectory source true

def renameFile (fs : FileSystem) (source destination : Path) : Store.Action Cursor Bool :=
  (fs.moveFile source destination).succeeds (.fileNotRenamed source destination)

def renameDirectory (fs : FileSystem) (source destination : Path) :
    Store.Action Cursor Bool :=
  (fs.moveDirectory fs.limits.depth source destination).succeeds
    (.directoryNotRenamed source destination)

end KeyTree.FileSystem
