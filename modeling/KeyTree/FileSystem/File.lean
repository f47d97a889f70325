import KeyTree.FileSystem.Directory
import KeyTree.Upload

/-!
Files: creating them through an upload, deleting them, and asking for their size and
time. Stores tell no capacity, so every kind of space is unknown.
-/
namespace KeyTree

inductive Space where
  | total
  | free
  | used
  deriving DecidableEq, Repr

def Space.ofName (name : String) : Except Defect Space :=
  if name = "total" then .ok .total
  else if name = "free" then .ok .free
  else if name = "used" then .ok .used
  else .error (.unknownSpace name)

namespace FileSystem

open Program (refuse notify ofExcept)

variable {Cursor : Type}

/-- Opens an upload for a path, after making the directories above it; there is none
if these cannot be made. -/
def create (fs : FileSystem) (path : Path) : Store.Action Cursor (Option Upload) :=
  match fs.root.parent? path with
  | none => some <$> Upload.start (fs.root.relative path)
  | some parent => do
    if ← fs.makeDirectories parent true then some <$> Upload.start (fs.root.relative path)
    else pure none

/-- Creates a file, writes each content to it and closes it. -/
def writeFile (fs : FileSystem) (path : Path) (contents : List Content) :
    Store.Action Cursor (Option (List Nat)) := do
  match ← fs.create path with
  | none => pure none
  | some upload =>
    let (counts, upload) ← ofExcept ((upload.writeAll contents).mapError .defect)
    let (answer, _) ← upload.close
    ofExcept (answer.map fun _ => some counts)

def deleteFile (fs : FileSystem) (path : Path) : Store.Action Cursor Bool :=
  Store.delete (fs.root.relative path)

def requireStatus (fs : FileSystem) (path : Path) : Store.Action Cursor Store.Status := do
  match ← Store.status (fs.root.relative path) with
  | some status => pure status
  | none =>
    notify (.statusMissing path)
    refuse (.unknownPath path)

def size (fs : FileSystem) (path : Path) : Store.Action Cursor Int := do
  let status ← fs.requireStatus path
  pure status.sizeBytes

def modificationTimeMs (fs : FileSystem) (path : Path) : Store.Action Cursor Int := do
  let status ← fs.requireStatus path
  pure status.lastModifiedMs

def blockSizeBytes (fs : FileSystem) (_path : Path) : Int := fs.settings.blockSizeBytes

/-- The space of a kind in bytes; a negative number says that it is unknown. -/
def space (_fs : FileSystem) (_path : Path) (_space : Space) : Int := -1

end FileSystem
end KeyTree
