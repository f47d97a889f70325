import KeyTree.FileSystem.Children

/-!
Removing directories. A removal works from the names that a listing gives, deletes
child by child, and stops at the first key that cannot be deleted; what was deleted
before stays deleted. The directory's own marker goes last.
-/
namespace KeyTree.FileSystem

open Program (refuse notify)

variable {Cursor : Type}

/-- The entries below a path that has to be a directory. -/
def requireChildren (fs : FileSystem) (path : Path) (recursive : Bool) :
    Store.Action Cursor (List Entry) := do
  match ← fs.children path recursive with
  | some children => pure children
  | none => refuse (.notListable path)

/-- Deletes the object that other tools keep for a directory under its path and a
separator, if there is one. -/
def removePlaceholder (fs : FileSystem) (path : Path) : Store.Action Cursor Unit :=
  let placeholder := fs.root.stem path
  if placeholder = [] then pure ()
  else do
    match ← Store.status placeholder with
    | none => pure ()
    | some _ =>
      if ← Store.delete placeholder then notify (.deleted placeholder)
      else refuse (.placeholderNotDeleted placeholder)

/-- The key that stands for an entry of a listing: the object itself, or the marker
of a directory. -/
def entryKey (fs : FileSystem) (path : Path) (entry : Entry) : Key :=
  let key := fs.root.relative (Path.join path entry.name)
  if entry.isDirectory then fs.markerOf key else key

def removeEntry (fs : FileSystem) (path : Path) (entry : Entry) :
    Store.Action Cursor Unit := do
  let key := fs.entryKey path entry
  if ← Store.delete key then
    notify (.deleted key)
    if entry.isDirectory then fs.removePlaceholder (Path.join path entry.name)
    else pure ()
  else refuse (.childNotDeleted key)

/-- Empties a directory, or makes sure that it is empty. -/
def removeBelow (fs : FileSystem) (path : Path) (recursive : Bool) :
    Store.Action Cursor Unit := do
  let children ← fs.requireChildren path recursive
  if recursive then children.forM (fs.removeEntry path)
  else if children = [] then pure ()
  else refuse (.notEmpty path)

def removeMarker (fs : FileSystem) (path : Path) : Store.Action Cursor Unit := do
  let marker := fs.markerKey path
  if ← Store.delete marker then pure ()
  else refuse (.markerNotDeleted marker)

def removeDirectory (fs : FileSystem) (path : Path) (recursive : Bool) :
    Store.Action Cursor Unit := do
  fs.removeBelow path recursive
  fs.removePlaceholder path
  fs.removeMarker path

/-- Deletes a directory, with all below it if recursive, else only if it is empty. -/
def deleteDirectory (fs : FileSystem) (path : Path) (recursive : Bool := false) :
    Store.Action Cursor Bool :=
  (fs.removeDirectory path recursive).succeeds (.directoryNotDeleted path)

end KeyTree.FileSystem
