import KeyTree.Path.Root
import KeyTree.Settings
import KeyTree.Store.Request

/-!
A file system over a flat store: the root of its paths, the suffix of the markers
that stand for directories, settings and limits. Its operations are programs over
the store, so they hold no state of their own.
-/
namespace KeyTree

structure FileSystem where
  root : Root
  suffix : Key
  settings : Settings := {}
  limits : Limits := {}

namespace FileSystem
variable {Cursor : Type}

/-- The marker of the directory at a key: one separator at its end is replaced by
the suffix. -/
def markerOf (fs : FileSystem) (key : Key) : Key :=
  Path.dropSeparator key ++ fs.suffix

/-- The marker of the directory at a path. -/
def markerKey (fs : FileSystem) (path : Path) : Key :=
  fs.markerOf (fs.root.relative path)

end FileSystem
end KeyTree
