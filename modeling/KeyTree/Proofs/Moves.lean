import KeyTree.Proofs.Removal
import KeyTree.Proofs.Room
import KeyTree.Proofs.Steps

/-!
Moving a directory of neat and hollow contents without faults. A move that succeeds was
possible and has moved everything (`Moved`); one that was possible fails only for want of
room. The children are moved one after the other, and no two of them touch the same keys;
what they leave below the source is then removed.
-/
namespace KeyTree

open KeyTree.Path (separator)
open Program (Ensures Returns)

/-- The source is a directory, and the destination is free and not inside it. -/
structure Movable (suffix : Key) (source destination : Path) (contents : Contents) : Prop where
  there : contents.HasDirectory suffix source
  absent : destination ∉ contents
  free : ¬ contents.HasDirectory suffix destination
  outside : ¬ source ++ [separator] <+: destination ++ [separator]

/-- Source and destination hold nothing in common. -/
theorem Movable.apart {suffix : Key} {source destination : Path} {contents : Contents}
    (whole : separator ∉ suffix) (movable : Movable suffix source destination contents) {key : Key}
    (held : source.Holds suffix key) : ¬ destination.Holds suffix key := by
  refine held.apart whole ?_ ?_ ?_
  · rintro rfl
    exact movable.outside (List.prefix_refl _)
  · exact fun below => movable.outside (stem_prefix_stem.mpr (.inr below))
  · intro below
    refine movable.free (.inr ?_)
    rcases movable.there with marked | ⟨inner, present, deep⟩
    · exact ⟨_, marked, below.trans (List.prefix_append _ _)⟩
    · exact ⟨inner, present, stem_prefix_trans below deep⟩

/-- The entry has keys at the source, and its place at the destination is free. -/
structure Entry.Ready (suffix : Key) (source destination : Path) (contents : Contents)
    (entry : Entry) : Prop where
  first : separator ∉ entry.name
  plain : Path.Plain suffix entry.name
  there : ∃ key ∈ contents, entry.Claims suffix source key
  free : ∀ isDirectory, ∀ key ∈ contents,
    ¬ Claims suffix destination ⟨entry.name, isDirectory⟩ key

namespace Entry
variable {suffix : Key} {source destination : Path} {entry other : Entry}
  {before after : Contents}

/-- Neither end of one entry meets either end of another. -/
theorem parted (whole : separator ∉ suffix)
    (apart : ∀ key, source.Holds suffix key → ¬ destination.Holds suffix key)
    (first : separator ∉ entry.name) (second : separator ∉ other.name)
    (plain : Path.Plain suffix entry.name) (named : Path.Plain suffix other.name)
    (differs : entry.name ≠ other.name) {key : Key}
    (claimed : other.Claims suffix source key ∨ other.Claims suffix destination key) :
    ¬ (entry.Claims suffix source key ∨ entry.Claims suffix destination key) := by
  have single : ∀ path, entry.Claims suffix path key → ¬ other.Claims suffix path key :=
    fun path => Claims.apart whole first second plain named differs
  rintro (near | far)
  · rcases claimed with left | right
    · exact single source near left
    · exact apart key (.below near.below) (.below right.below)
  · rcases claimed with left | right
    · exact apart key (.below left.below) (.below far.below)
    · exact single destination far right

/-- An entry stays ready while the keys of its name stay the same. -/
theorem Ready.keep (ready : entry.Ready suffix source destination before)
    (same : ∀ isDirectory key, Claims suffix source ⟨entry.name, isDirectory⟩ key ∨
      Claims suffix destination ⟨entry.name, isDirectory⟩ key → after[key]? = before[key]?) :
    entry.Ready suffix source destination after where
  first := ready.first
  plain := ready.plain
  there := by
    obtain ⟨key, present, claims⟩ := ready.there
    have kept := same entry.isDirectory key (.inl claims)
    exact ⟨key, (Contents.mem_of_lookup_eq kept).mpr present, claims⟩
  free isDirectory key present claims := by
    have kept := same isDirectory key (.inr claims)
    exact ready.free isDirectory key ((Contents.mem_of_lookup_eq kept).mp present) claims

end Entry

/-- Entries that are still to be moved: no two of one name, each with keys at the source and a
free place at the destination. -/
structure Pending (suffix : Key) (source destination : Path) (entries : List Entry)
    (contents : Contents) : Prop where
  once : (entries.map Entry.name).Nodup
  neat : contents.Neat suffix
  hollow : contents.Hollow suffix
  apart : ∀ key, source.Holds suffix key → ¬ destination.Holds suffix key
  ready : ∀ entry ∈ entries, entry.Ready suffix source destination contents

namespace Pending
variable {suffix : Key} {source destination : Path} {entry other : Entry} {others : List Entry}
  {before after : Contents} {isDirectory : Bool} {key : Key} (whole : separator ∉ suffix)
  (pending : Pending suffix source destination (entry :: others) before)
include whole pending

/-- Nothing that has to do with the name of a later entry has to do with the first one. -/
theorem parted (member : other ∈ others)
    (claimed : Entry.Claims suffix source ⟨other.name, isDirectory⟩ key ∨
      Entry.Claims suffix destination ⟨other.name, isDirectory⟩ key) :
    ¬ (entry.Claims suffix source key ∨ entry.Claims suffix destination key) := by
  have here := pending.ready entry List.mem_cons_self
  have there := pending.ready other (List.mem_cons_of_mem entry member)
  have differs : entry.name ≠ other.name := fun same =>
    (List.nodup_cons.mp pending.once).1 (same ▸ List.mem_map_of_mem member)
  refine Entry.parted whole pending.apart here.first ?_ here.plain ?_ ?_ claimed
  · exact there.first
  · exact there.plain
  · exact differs

variable (moved : Rewrites
  (fun key => entry.Claims suffix source key ∨ entry.Claims suffix destination key)
  (entry.Arrives suffix source destination before) before after)
include moved

/-- The first entry leaves the keys of the others as they were. -/
theorem same (member : other ∈ others)
    (claimed : Entry.Claims suffix source ⟨other.name, isDirectory⟩ key ∨
      Entry.Claims suffix destination ⟨other.name, isDirectory⟩ key) :
    after[key]? = before[key]? :=
  moved.same (pending.parted whole member claimed)

theorem next (new : Path.Plain suffix destination) :
    Pending suffix source destination others after := by
  have here := pending.ready entry List.mem_cons_self
  obtain ⟨neat, hollow⟩ := moved.orderly whole (fun key content arrives =>
    arrives.fits (Path.Plain.append_iff.mpr ⟨new, here.plain⟩)) pending.neat pending.hollow
  refine ⟨(List.nodup_cons.mp pending.once).2, neat, hollow, pending.apart, ?_⟩
  intro other member
  have there := pending.ready other (List.mem_cons_of_mem entry member)
  exact there.keep fun _ _ => pending.same whole moved member

end Pending

namespace FileSystem
variable {fs : FileSystem} {memory : Memory} {depth : Nat} {source destination : Path}

/-- What moving a directory leaves. -/
structure Relocated (fs : FileSystem) (depth : Nat) (source destination : Path) (before : Memory)
    (result : Except Failure Unit) (after : Memory) : Prop where
  moved : result = .ok () → Movable fs.suffix source destination before.contents ∧
    Moved fs.suffix source destination before.contents after.contents
  stopped : ∀ failure, result = .error failure →
    Movable fs.suffix source destination before.contents → ¬ fs.Roomy depth source before.contents

/-- What moving a child leaves. -/
structure Transferred (fs : FileSystem) (depth : Nat) (source destination : Path) (entry : Entry)
    (before : Memory) (result : Except Failure Unit) (after : Memory) : Prop where
  moved : result = .ok () →
    Rewrites (fun key => entry.Claims fs.suffix source key ∨ entry.Claims fs.suffix destination key)
      (entry.Arrives fs.suffix source destination before.contents) before.contents after.contents
  stopped : ∀ failure, result = .error failure → entry.isDirectory = true ∧
    ¬ fs.Roomy depth (source ++ separator :: entry.name) before.contents

def moveEntry {Cursor : Type} (fs : FileSystem) (depth : Nat) (source destination : Path)
    (entry : Entry) : Store.Action Cursor Unit :=
  let old := Path.join source entry.name
  let new := Path.join destination entry.name
  if entry.isDirectory then fs.moveDirectory depth old new else fs.moveFile old new

theorem moveDirectory_succ {Cursor : Type} (fs : FileSystem) (depth : Nat)
    (source destination : Path) :
    (fs.moveDirectory (depth + 1) source destination : Store.Action Cursor Unit) =
      if fs.root.stem source <+: fs.root.stem destination then
        Program.refuse (.destinationInside source destination)
      else
        (fs.requireChildren source false).bind fun children =>
          (fs.requireAbsent destination).bind fun _ =>
            (fs.copyMarker source destination).bind fun _ =>
              (children.forM (fs.moveEntry depth source destination)).bind fun _ =>
                fs.removeDirectory source true :=
  rfl

variable (proper : fs.Proper) (old : Path.Plain fs.suffix source)
  (new : Path.Plain fs.suffix destination)
include proper old new

theorem ensures_moveEntry {entry : Entry}
    (apart : ∀ key, source.Holds fs.suffix key → ¬ destination.Holds fs.suffix key)
    (ready : entry.Ready fs.suffix source destination memory.contents)
    (nested : ∀ {source destination : Path}, Path.Plain fs.suffix source →
      Path.Plain fs.suffix destination →
      (fs.moveDirectory depth source destination).Ensures (Memory.may fun _ => False) memory
        (Relocated fs depth source destination memory)) :
    (fs.moveEntry depth source destination entry).Ensures (Memory.may fun _ => False) memory
      (Transferred fs depth source destination entry memory) := by
  have oldChild : Path.Plain fs.suffix (source ++ separator :: entry.name) :=
    Path.Plain.append_iff.mpr ⟨old, ready.plain⟩
  have newChild : Path.Plain fs.suffix (destination ++ separator :: entry.name) :=
    Path.Plain.append_iff.mpr ⟨new, ready.plain⟩
  rw [moveEntry, old.join_eq ready.plain, new.join_eq ready.plain]
  obtain ⟨key, present, claimed⟩ := ready.there
  have free := ready.free
  obtain ⟨name, isDirectory⟩ := entry
  cases isDirectory with
  | false =>
    refine Ensures.mono (ensures_moveFile proper oldChild newChild) ?_
    intro result later shifted
    constructor
    · intro ok
      obtain ⟨_, content, stored, same⟩ := shifted.done ok fun _ => id
      rw [same]
      refine ((Rewrites.insert memory.contents _ content).andThen (Rewrites.erase _ _) ?_).congr
        ?_ ?_
      · rintro other given ⟨rfl, _⟩ same
        exact apart _ (.below stem_prefix_append) (.below (same ▸ stem_prefix_append))
      · exact fun other => or_comm
      · intro other given
        simp only [Entry.Arrives, stored, Option.some.injEq, or_false, eq_comm]
    · intro failure failed
      have found : ∃ query, (fun _ => False) query := shifted.stopped failure failed
        (claimed ▸ present) (fun taken => free false _ taken rfl)
        (fun taken => ?_)
      · exact found.elim fun _ => False.elim
      · rcases taken with marked | ⟨inner, inside, below⟩
        · exact free true _ marked .marker
        · exact free true _ inside (Path.Holds.below below)
  | true =>
    refine Ensures.mono (nested oldChild newChild) ?_
    intro result later relocated
    refine ⟨fun ok => (relocated.moved ok).2, fun failure failed => ⟨rfl, ?_⟩⟩
    refine relocated.stopped failure failed ⟨?_, ?_, ?_, ?_⟩
    · exact Contents.hasDirectory_of_holds present claimed
    · exact fun taken => free false _ taken rfl
    · rintro (marked | ⟨inner, inside, below⟩)
      · exact free true _ marked .marker
      · exact free true _ inside (Path.Holds.below below)
    · intro inside
      refine apart _ (.below (stem_prefix_append.trans ((List.prefix_append _ _).trans inside)))
        (.below (stem_prefix_append.trans (List.prefix_append _ _)))

/-- The entries are moved one after the other; each finds the keys that it claims as they
were before the first, as no two of them claim the same. -/
theorem ensures_moveEntries (entries : List Entry)
    (pending : Pending fs.suffix source destination entries memory.contents)
    (nested : ∀ {memory : Memory} {source destination : Path}, Path.Plain fs.suffix source →
      Path.Plain fs.suffix destination → memory.contents.Neat fs.suffix →
      memory.contents.Hollow fs.suffix →
      (fs.moveDirectory depth source destination).Ensures (Memory.may fun _ => False) memory
        (Relocated fs depth source destination memory)) :
    (entries.forM (fs.moveEntry depth source destination)).Ensures
      (Memory.may fun _ => False) memory fun result later =>
        (result = .ok () → EntriesMoved fs.suffix source destination entries memory.contents
          later.contents) ∧
        ∀ failure, result = .error failure → ∃ entry ∈ entries, entry.isDirectory = true ∧
          ¬ fs.Roomy depth (source ++ separator :: entry.name) memory.contents := by
  have whole := proper.suffix_whole
  induction entries generalizing memory with
  | nil => exact ⟨fun _ => (Rewrites.refl _).congr (by simp) (by simp), nofun⟩
  | cons entry others ih =>
    refine Ensures.bind
      (ensures_moveEntry proper old new pending.apart (pending.ready entry List.mem_cons_self)
        fun old new => nested old new pending.neat pending.hollow) ?_ ?_
    · intro _ reached transferred
      have moved := transferred.moved rfl
      refine Ensures.mono (ih (pending.next whole moved new)) ?_
      rintro result final ⟨finishes, stops⟩
      constructor
      · intro ok
        exact .cons moved (finishes ok) fun _ member _ => pending.parted whole member
      · intro failure failed
        obtain ⟨other, member, directory, cramped⟩ := stops failure failed
        refine ⟨other, List.mem_cons_of_mem _ member, directory, fun roomy => cramped ?_⟩
        refine roomy.shrink whole (.of_kept fun key present held => ?_)
        have claimed : Entry.Claims fs.suffix source ⟨other.name, true⟩ key := held
        exact (Contents.mem_of_lookup_eq (pending.same whole moved member (.inl claimed))).mp present
    · intro failure reached transferred
      exact ⟨nofun, fun _ _ => ⟨entry, List.mem_cons_self, transferred.stopped failure rfl⟩⟩

end FileSystem
end KeyTree
