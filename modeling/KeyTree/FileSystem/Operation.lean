import KeyTree.FileSystem.File
import KeyTree.FileSystem.Rename

/-!
The operations of a file system as values, so that a sequence of them can be run and
reasoned about as one.
-/
namespace KeyTree

inductive Operation where
  | isDirectory (path : Path)
  | isFile (path : Path)
  | parentExists (path : Path)
  | makeDirectories (path : Path) (createParents : Bool)
  | writeFile (path : Path) (contents : List Content)
  | deleteFile (path : Path)
  | deleteDirectory (path : Path) (recursive : Bool)
  | renameFile (source destination : Path)
  | renameDirectory (source destination : Path)
  | children (path : Path) (recursive : Bool)
  | size (path : Path)
  | modificationTime (path : Path)
  deriving DecidableEq, Repr

/-- What an operation answers. -/
inductive Outcome where
  | truth (value : Bool)
  | number (value : Int)
  | entries (children : Option (List Entry))
  | written (counts : Option (List Nat))
  deriving DecidableEq, Repr

namespace FileSystem
variable {Cursor : Type}

def perform (fs : FileSystem) : Operation → Store.Action Cursor Outcome
  | .isDirectory path => .truth <$> fs.isDirectory path
  | .isFile path => .truth <$> fs.isFile path
  | .parentExists path => .truth <$> fs.parentExists path
  | .makeDirectories path createParents => .truth <$> fs.makeDirectories path createParents
  | .writeFile path contents => .written <$> fs.writeFile path contents
  | .deleteFile path => .truth <$> fs.deleteFile path
  | .deleteDirectory path recursive => .truth <$> fs.deleteDirectory path recursive
  | .renameFile source destination => .truth <$> fs.renameFile source destination
  | .renameDirectory source destination => .truth <$> fs.renameDirectory source destination
  | .children path recursive => .entries <$> fs.children path recursive
  | .size path => .number <$> fs.size path
  | .modificationTime path => .number <$> fs.modificationTimeMs path

/-- Performs one operation after the other; one that fails leaves its failure and
does not stop the rest. -/
def performAll (fs : FileSystem) :
    List Operation → Store.Action Cursor (List (Except Failure Outcome))
  | [] => pure []
  | operation :: later => do
    let answer ← (fs.perform operation).outcome
    let answers ← fs.performAll later
    pure (answer :: answers)

end FileSystem
end KeyTree
