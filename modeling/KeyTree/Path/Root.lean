import KeyTree.Error

/-!
The root is the key under which the whole file system lives, such as a scheme and
a bucket. `relative` is a normal form: it removes the root and leading
separators until neither stands in front, so paths that differ only in these name
the same key.
-/
namespace KeyTree

structure Root where
  key : Key
  key_ne_nil : key ≠ []
  deriving DecidableEq

namespace Root

def ofKey (key : Key) : Except Defect Root :=
  if h : key = [] then .error .emptyRoot else .ok ⟨key, h⟩

/-- The root key with its separator. -/
def start (root : Root) : Path := Path.withSeparator root.key

theorem start_ne_nil (root : Root) : root.start ≠ [] := by
  unfold start Path.withSeparator
  split
  · exact root.key_ne_nil
  · simp

/-- The key that a path names. The root itself, with or without its separator,
names the empty key. -/
def relative (root : Root) (path : Path) : Key :=
  if Path.withSeparator path = root.start then []
  else if root.start <+: path then root.relative (path.drop root.start.length)
  else match path with
    | [] => []
    | c :: rest => if c = Path.separator then root.relative rest else c :: rest
termination_by path.length
decreasing_by
  · rename_i within
    have := List.length_pos_iff.mpr root.start_ne_nil
    have := within.length_le
    simp only [List.length_drop]
    omega
  · simp

def isRoot (root : Root) (path : Path) : Bool := root.relative path = []

/-- The path of the directory that holds this one; the root and the names right
below it, written without a separator, have none. -/
def parent? (root : Root) (path : Path) : Option Path :=
  if root.isRoot path then none else Path.beforeLast? path

theorem parent?_length {root : Root} {path parent : Path} (up : root.parent? path = some parent) :
    parent.length < path.length := by
  unfold parent? at up
  split at up
  · cases up
  · exact Path.beforeLast?_length up

/-- The directories above a path, the nearest first. -/
def ancestors (root : Root) (path : Path) : List Path :=
  match _up : root.parent? path with
  | none => []
  | some parent => parent :: root.ancestors parent
termination_by path.length
decreasing_by exact parent?_length _up

/-- Every key below the path starts with its stem, and the stem of the root is
empty. -/
def stem (root : Root) (path : Path) : Key :=
  let start := Path.withSeparator (root.relative path)
  if start = [Path.separator] then [] else start

end Root

/-- The rest of a child's key below its parent's. -/
def Path.childName (child parent : Key) : Except Cause Path :=
  if parent <+: child then .ok (child.drop parent.length)
  else .error (.outsideParent parent child)

end KeyTree
