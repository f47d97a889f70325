/-!
Paths and keys are sequences of characters that one separator cuts into names.
A path is what a caller writes, a key is what the flat store holds. `join` puts
exactly one separator between two names and none beside an empty one.
-/
namespace KeyTree

/-- A path as a caller writes it, with or without the root in front. -/
abbrev Path := List Char

/-- A name in the flat store. -/
abbrev Key := List Char

namespace Path

def separator : Char := '/'

/-- The path as it stands in a message. -/
def text (path : Path) : String := String.ofList path

/-- Ends the path with a separator, unless it already ends with one. -/
def withSeparator (path : Path) : Path :=
  if path.getLast? = some separator then path else path ++ [separator]

/-- Removes every separator at the end. -/
def trimEnd (path : Path) : Path :=
  (path.reverse.dropWhile (· = separator)).reverse

/-- Removes every separator at either end. -/
def trim (path : Path) : Path :=
  trimEnd (path.dropWhile (· = separator))

/-- Removes one separator at the end, if there is one. -/
def dropSeparator (path : Path) : Path :=
  if path.getLast? = some separator then path.dropLast else path

/-- Joins two paths with exactly one separator. -/
def join (parent name : Path) : Path :=
  let base := trimEnd parent
  let child := trim name
  if base = [] then child
  else if child = [] then base
  else base ++ separator :: child

/-- The part before the last separator; there is none without a separator. -/
def beforeLast? (path : Path) : Option Path :=
  match path.reverse.dropWhile (· ≠ separator) with
  | [] => none
  | _ :: before => some before.reverse

theorem beforeLast?_length {path before : Path} (cut : beforeLast? path = some before) :
    before.length < path.length := by
  unfold beforeLast? at cut
  split at cut
  · cases cut
  · rename_i c rest found
    have within := (List.dropWhile_suffix (p := (· ≠ separator)) (l := path.reverse)).length_le
    cases cut
    simp only [found, List.length_cons, List.length_reverse] at within ⊢
    omega

/-- The part before the first separator. -/
def firstName (path : Path) : Path :=
  path.takeWhile (· ≠ separator)

end Path
end KeyTree
