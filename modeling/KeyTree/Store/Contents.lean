import Std.Data.ExtTreeMap
import KeyTree.Store.Request

/-!
What a flat store holds, and what it lists. The contents map keys to bytes, in the
order of their code points. A listing has one entry for each key with the stem;
grouped, the keys with a separator behind the stem share one entry for their
common start.
-/
namespace KeyTree

/-- The objects of a store, by key. -/
abbrev Contents := Std.ExtTreeMap Key Content compare

/-- An entry of a listing. -/
inductive Listed where
  | object (key : Key)
  | group (start : Key)
  deriving DecidableEq, Repr

namespace Listed

/-- The entry under which a key with this stem is listed. -/
def ofKey (stem : Key) (grouped : Bool) (key : Key) : Listed :=
  let rest := key.drop stem.length
  if grouped && Path.separator ∈ rest then
    .group (stem ++ Path.firstName rest ++ [Path.separator])
  else .object key

def objects (entries : List Listed) : List Key :=
  entries.filterMap fun
    | object key => some key
    | group _ => none

def groups (entries : List Listed) : List Key :=
  entries.filterMap fun
    | object _ => none
    | group start => some start

/-- Keeps the first entry of each group that was not seen before. -/
def oncePerGroup (seen : List Key) : List Listed → List Listed
  | [] => []
  | object key :: later => object key :: oncePerGroup seen later
  | group start :: later =>
    if start ∈ seen then oncePerGroup seen later
    else group start :: oncePerGroup (start :: seen) later

end Listed

namespace Contents

/-- The whole listing below a stem, in order, each entry once. -/
def entries (contents : Contents) (stem : Key) (grouped : Bool) : List Listed :=
  Listed.oncePerGroup []
    ((contents.keys.filter (stem <+: ·)).map (Listed.ofKey stem grouped))

end Contents
end KeyTree
