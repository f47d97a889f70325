import KeyTree.FileSystem.Directory
import KeyTree.Store.Pages

/-!
The children of a directory. A listing shows a directory as a marker, as an object
whose key ends with a separator, or as a group of keys; everything else is a file.
The children are merged by name in the order in which the names are first seen. A
name that was once a directory stays one, and a group that was not yet known as a
directory gets a marker.
-/
namespace KeyTree

structure Entry where
  name : Path
  isDirectory : Bool
  deriving DecidableEq, Repr

namespace Entry

/-- Adds an entry. A known name keeps its place, and is a directory if either entry
says so. -/
def record (entry : Entry) : List Entry → List Entry
  | [] => [entry]
  | known :: rest =>
    if known.name = entry.name then
      ⟨known.name, known.isDirectory || entry.isDirectory⟩ :: rest
    else known :: record entry rest

/-- Whether the name is known as a directory. -/
def hasDirectory (name : Path) (children : List Entry) : Bool :=
  ⟨name, true⟩ ∈ children

/-- What an object says about the child it belongs to. The suffix is looked for
first; an empty suffix ends every name and leaves nothing of it. -/
def ofObject (suffix : Key) (name : Path) : Entry :=
  if suffix = [] then ⟨[], true⟩
  else if suffix <:+ name then ⟨name.take (name.length - suffix.length), true⟩
  else if name.getLast? = some Path.separator then ⟨name.dropLast, true⟩
  else ⟨name, false⟩

end Entry

namespace FileSystem

open Program (notify ofExcept)

variable {Cursor : Type}

/-- Merges an object of a listing; the directory itself has no name and is left
out. -/
def mergeObject (fs : FileSystem) (stem : Key) (children : List Entry) (key : Key) :
    Except Cause (List Entry) := do
  let name ← Path.childName key stem
  let entry := Entry.ofObject fs.suffix name
  pure (if entry.name = [] then children else entry.record children)

/-- Creates the marker of a directory that only a group shows; without it the
directory is listed all the same. -/
def markGroup (fs : FileSystem) (group : Key) : Store.Action Cursor Unit := do
  notify (.directoryInferred group)
  if ← fs.createMarker group then pure ()
  else notify (.inferredMarkerNotCreated group)

/-- Merges a group of a listing. -/
def mergeGroup (fs : FileSystem) (stem : Key) (children : List Entry) (group : Key) :
    Store.Action Cursor (List Entry) := do
  let below ← ofExcept ((Path.childName group stem).mapError .refused)
  let name := Path.firstName below
  if name = [] || Entry.hasDirectory name children then pure children
  else
    fs.markGroup group
    pure (Entry.record ⟨name, true⟩ children)

/-- Merges a page: its objects first, then its groups. -/
def mergePage (fs : FileSystem) (stem : Key) (children : List Entry)
    (page : Store.Page Cursor) : Store.Action Cursor (List Entry) := do
  let children ← ofExcept ((page.objects.foldlM (fs.mergeObject stem) children).mapError .refused)
  page.groups.foldlM (fs.mergeGroup stem) children

/-- The entries below a path, or none if it is no directory. A recursive listing
names all descendants relative to the path. -/
def children (fs : FileSystem) (path : Path) (recursive : Bool) :
    Store.Action Cursor (Option (List Entry)) := do
  if ← fs.isDirectory path then
    let stem := fs.root.stem path
    let pageSize ← ofExcept (fs.settings.pageSize.mapError .defect)
    match ← Store.list stem recursive pageSize with
    | none => pure none
    | some first =>
      let children ← Store.Page.walk (fs.mergePage stem) fs.limits.pages [] first
      pure (some children)
  else pure none

end FileSystem
end KeyTree
