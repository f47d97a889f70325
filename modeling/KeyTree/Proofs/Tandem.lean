import KeyTree.Proofs.Likeness

/-!
Moves beside each other. A move on a memory and one on a backend that lists completely meet
the children in different orders. As no two children touch the same keys, the order makes no
difference to what a move leaves on the memory; and in one order both do the same, child by
child and level by level, until the source is removed.
-/
namespace KeyTree.FileSystem

open KeyTree.Path (separator)
open Program (Ensures Returns Agrees)

variable {fs : FileSystem} {one other : Tuning} {right : Backend} {source destination path : Path}
  {before contents : Contents} (proper : fs.Proper)

section listed
variable {listed : Contents} {children : List Entry} {recursive : Bool}
  (plain : Path.Plain fs.suffix path)
  (catalogued : fs.Catalogued path recursive before (some children) listed)
include proper plain catalogued

/-- A listing heals what it lists. -/
theorem Catalogued.heals : Heals fs.suffix path before listed := by
  obtain ⟨_, _, blanks⟩ := catalogued
  rw [proper.stem_plain plain] at blanks
  intro key
  apply (blanks.bound key).imp_right
  rintro ⟨fresh, other, named, under, rfl, own | ⟨_, name, _, _, rfl⟩⟩
  · rw [List.append_cancel_right own]
    exact ⟨fresh, other, named, under, rfl, .marker⟩
  · exact ⟨fresh, _, named, under, rfl, .below (prefix_behind _ name fs.suffix)⟩

/-- A directory that was listed has its marker. -/
theorem Catalogued.marked : path ++ fs.suffix ∈ listed := by
  have heals := catalogued.heals proper plain
  obtain ⟨held, _, blanks⟩ := catalogued
  rw [proper.stem_plain plain] at blanks
  rcases held with root | marked | under
  · cases root.symm.trans (proper.isRoot_plain plain)
  · exact heals.mem marked
  · have own : before.Inferred fs.suffix (path ++ [separator]) (!recursive) (path ++ fs.suffix) :=
      ⟨path, plain, under, rfl, .inl rfl⟩
    exact Contents.mem_iff_lookup.mpr ⟨[], (blanks.lookup_iff _ []).mpr (.inr ⟨own, rfl⟩)⟩

end listed

/-- The entries are to be moved by two file systems with room for each directory among them. -/
structure Twofold (fs : FileSystem) (one other : Tuning) (depth levels : Nat)
    (source destination : Path) (entries : List Entry) (contents : Contents) : Prop
    extends Pending fs.suffix source destination entries contents where
  roomy : ∀ name, ⟨name, true⟩ ∈ entries →
    (fs.tuned one).Roomy depth (source ++ separator :: name) contents
  also : ∀ name, ⟨name, true⟩ ∈ entries →
    (fs.tuned other).Roomy levels (source ++ separator :: name) contents

/-- The first entry takes no room from the others. -/
theorem Twofold.next {depth levels : Nat} {entry : Entry} {others : List Entry} {after : Contents}
    (whole : separator ∉ fs.suffix) (new : Path.Plain fs.suffix destination)
    (twofold : fs.Twofold one other depth levels source destination (entry :: others) before)
    (moved : Rewrites
      (fun key => entry.Claims fs.suffix source key ∨ entry.Claims fs.suffix destination key)
      (entry.Arrives fs.suffix source destination before) before after) :
    fs.Twofold one other depth levels source destination others after := by
  have pending := twofold.toPending
  have shrinks : ∀ name, ⟨name, true⟩ ∈ others →
      Contents.Descends fs.suffix (source ++ separator :: name) before after := by
    intro name member
    refine .of_kept fun key present held => ?_
    have claimed : Entry.Claims fs.suffix source ⟨name, true⟩ key := held
    exact (Contents.mem_of_lookup_eq (pending.same whole moved member (.inl claimed))).mp present
  refine ⟨pending.next whole moved new, fun name member => ?_, fun name member => ?_⟩
  · exact (twofold.roomy name (List.mem_cons_of_mem _ member)).shrink whole (shrinks name member)
  · exact (twofold.also name (List.mem_cons_of_mem _ member)).shrink whole (shrinks name member)

include proper

/-- A move for which there is room leaves what it should. -/
theorem ends_moveListed {depth : Nat} {listed : Contents} {children : List Entry}
    (new : Path.Plain fs.suffix destination)
    (underway : Underway fs.suffix source destination before listed children)
    (roomy : (fs.tuned one).Roomy (depth + 1) source before) :
    Memory.backend.Ends ((children.forM ((fs.tuned one).moveEntry depth source destination)).bind
        fun _ => (fs.tuned one).removeDirectory source true)
      (listed.insert (destination ++ fs.suffix) []) fun result later =>
        result = .ok () ∧ Moved fs.suffix source destination before later := by
  apply Memory.ends_of_ensures
  intro memory copied
  apply Ensures.mono (ensures_moveListed (proper.tuned one) new underway copied
    (ensures_moveDirectory (proper.tuned one) depth))
  rintro result final ⟨finishes, stops⟩
  cases result with
  | ok value => exact ⟨rfl, finishes rfl⟩
  | error failure => exact absurd roomy (stops failure rfl)

variable (faithful : right.Faithful)
include faithful

section entries
variable {depth levels : Nat} (old : Path.Plain fs.suffix source)
  (new : Path.Plain fs.suffix destination)
  (nested : ∀ {source destination : Path} {contents : Contents}, Path.Plain fs.suffix source →
    Path.Plain fs.suffix destination → contents.Orderly fs.suffix →
    (fs.tuned one).Roomy depth source contents → (fs.tuned other).Roomy levels source contents →
    Agrees Memory.backend right True ((fs.tuned one).moveDirectory depth source destination)
      ((fs.tuned other).moveDirectory levels source destination) contents fun _ _ _ => True)
include old new nested

theorem agrees_moveEntry {entry : Entry} {others : List Entry}
    (twofold : fs.Twofold one other depth levels source destination (entry :: others) contents) :
    Agrees Memory.backend right True ((fs.tuned one).moveEntry depth source destination entry)
      ((fs.tuned other).moveEntry levels source destination entry) contents
      fun later _ _ => fs.Twofold one other depth levels source destination others later := by
  have ready := twofold.ready entry List.mem_cons_self
  have oldChild : Path.Plain fs.suffix (source ++ separator :: entry.name) :=
    Path.Plain.append_iff.mpr ⟨old, ready.plain⟩
  have newChild : Path.Plain fs.suffix (destination ++ separator :: entry.name) :=
    Path.Plain.append_iff.mpr ⟨new, ready.plain⟩
  have alike : Agrees Memory.backend right True
      ((fs.tuned one).moveEntry depth source destination entry)
      ((fs.tuned other).moveEntry levels source destination entry) contents
      fun _ _ _ => True := by
    rw [moveEntry, moveEntry, old.join_eq ready.plain, new.join_eq ready.plain]
    apply Agrees.ite
    · intro directory
      obtain ⟨name, _⟩ := entry
      cases directory
      exact nested oldChild newChild ⟨twofold.neat, twofold.hollow⟩
        (twofold.roomy name List.mem_cons_self) (twofold.also name List.mem_cons_self)
    · intro _
      exact (mirrors_moveFile Memory.backend_faithful faithful fs _ _ contents).mono
        fun _ _ _ _ => trivial
  have moves : Memory.backend.Ends ((fs.tuned one).moveEntry depth source destination entry)
      contents fun result later => ∀ value, result = .ok value →
        fs.Twofold one other depth levels source destination others later := by
    apply Memory.ends_of_ensures
    rintro memory rfl
    apply Ensures.mono (ensures_moveEntry (proper.tuned one) old new twofold.apart ready
      fun plain free => ensures_moveDirectory (proper.tuned one) depth plain free twofold.neat
        twofold.hollow)
    rintro result later transferred value rfl
    exact twofold.next proper.suffix_whole new (transferred.moved rfl)
  exact (alike.and_ends moves).mono fun _ _ _ both => both.2

variable (complete : fs.Complete right)
include complete

/-- The rest of a move, where both meet the children in one order. -/
theorem agrees_moveListed {listed : Contents} {children : List Entry}
    (underway : Underway fs.suffix source destination before listed children)
    (roomy : (fs.tuned one).Roomy (depth + 1) source before)
    (also : (fs.tuned other).Roomy (levels + 1) source before) :
    Agrees Memory.backend right True
      ((children.forM ((fs.tuned one).moveEntry depth source destination)).bind fun _ =>
        (fs.tuned one).removeDirectory source true)
      ((children.forM ((fs.tuned other).moveEntry levels source destination)).bind fun _ =>
        (fs.tuned other).removeDirectory source true)
      (listed.insert (destination ++ fs.suffix) []) fun _ _ _ => True := by
  have whole := proper.suffix_whole
  have given := proper.suffix_ne_nil
  have twofold : fs.Twofold one other depth levels source destination children
      (listed.insert (destination ++ fs.suffix) []) := by
    refine ⟨underway.pending whole given new, fun name member => ?_, fun name member => ?_⟩
    · exact underway.roomy_child whole given roomy rfl member
    · exact underway.roomy_child whole given also rfl member
  have loops : Memory.backend.Ends
      (children.forM ((fs.tuned one).moveEntry depth source destination))
      (listed.insert (destination ++ fs.suffix) []) fun result later =>
        ∀ value, result = .ok value → EntriesMoved fs.suffix source destination children
          (listed.insert (destination ++ fs.suffix) []) later := by
    apply Memory.ends_of_ensures
    intro memory copied
    have pending := underway.pending whole given new
    rw [← copied] at pending ⊢
    apply Ensures.mono (ensures_moveEntries (proper.tuned one) old new children pending
      (ensures_moveDirectory (proper.tuned one) depth))
    rintro result later ⟨finishes, _⟩ value rfl
    exact finishes rfl
  have each := Agrees.forM (fun entry others contents =>
    agrees_moveEntry proper faithful old new nested) children twofold
  apply Agrees.bind (each.and_ends loops)
  rintro later _ _ ⟨_, looped⟩
  have descends := underway.descends whole looped
  have stem := proper.stem_plain old
  obtain ⟨neat, hollow⟩ := underway.stays_orderly whole given looped new
  apply agrees_removeDirectory proper faithful complete ⟨neat, hollow⟩ (.inl old)
  · exact stem ▸ (roomy.shrink (proper.tuned one).suffix_whole descends).listable
  · exact stem ▸ (also.shrink (proper.tuned other).suffix_whole descends).listable

end entries

section prepared
variable {listed : Contents} (new : Path.Plain fs.suffix destination)
  (heals : Heals fs.suffix source before listed) (marked : source ++ fs.suffix ∈ listed)
include new heals marked

/-- If both find the destination free, then all of the source can be moved there. -/
theorem agrees_requireAbsent (outside : ¬ source ++ [separator] <+: destination ++ [separator]) :
    Agrees Memory.backend right True (fs.requireAbsent destination) (fs.requireAbsent destination)
      listed fun later _ _ => later = listed ∧ Movable fs.suffix source destination before := by
  have absent : Memory.backend.Ends (fs.requireAbsent destination) listed fun result later =>
      ∀ value, result = .ok value →
        later = listed ∧ Movable fs.suffix source destination before := by
    apply Memory.ends_of_ensures
    rintro memory rfl
    apply Ensures.mono (ensures_requireAbsent proper new)
    rintro result reached vacant value rfl
    obtain ⟨rfl, movable⟩ := vacant.movable proper.suffix_whole heals marked outside
    exact ⟨rfl, movable⟩
  exact ((mirrors_requireAbsent Memory.backend_faithful faithful fs destination listed).and_ends
    absent).mono fun _ _ _ both => both.2

omit marked in
/-- The copy of a marker is as empty as the marker. -/
theorem agrees_copyMarker (old : Path.Plain fs.suffix source) (hollow : before.Hollow fs.suffix) :
    Agrees Memory.backend right True (fs.copyMarker source destination)
      (fs.copyMarker source destination) listed
      fun later _ _ => later = listed.insert (destination ++ fs.suffix) [] := by
  have copies : Memory.backend.Ends (fs.copyMarker source destination) listed
      fun result later => ∀ value, result = .ok value →
        later = listed.insert (destination ++ fs.suffix) [] := by
    apply Memory.ends_of_ensures
    rintro memory rfl
    apply Ensures.mono (ensures_copyMarker proper old new)
    rintro result later copied value rfl
    rcases copied with ⟨_, content, stored, rfl⟩ | ⟨failed, _⟩
    · obtain rfl : content = [] := heals.hollow hollow source old _ (.inl rfl) content stored
      rfl
    · cases failed.choose_spec
  exact ((mirrors_copyMarker Memory.backend_faithful faithful fs source destination
    listed).and_ends copies).mono fun _ _ _ both => both.2

end prepared

variable (complete : fs.Complete right)
include complete

theorem agrees_moveDirectory (depth levels : Nat) (old : Path.Plain fs.suffix source)
    (new : Path.Plain fs.suffix destination) (orderly : contents.Orderly fs.suffix)
    (roomy : (fs.tuned one).Roomy depth source contents)
    (also : (fs.tuned other).Roomy levels source contents) :
    Agrees Memory.backend right True ((fs.tuned one).moveDirectory depth source destination)
      ((fs.tuned other).moveDirectory levels source destination) contents fun _ _ _ => True := by
  induction depth generalizing levels source destination contents with
  | zero => exact absurd roomy.some_depth (Nat.lt_irrefl 0)
  | succ depth ih =>
    obtain ⟨levels, rfl⟩ := Nat.exists_eq_succ_of_ne_zero (Nat.ne_of_gt also.some_depth)
    have stem := proper.stem_plain old
    rw [moveDirectory_succ, moveDirectory_succ]
    apply Agrees.ite
    · exact fun _ => .refuse trivial _ _
    · intro outside
      replace outside : ¬ source ++ [separator] <+: destination ++ [separator] := by
        rw [← stem, ← proper.stem_plain new]
        exact outside
      apply Agrees.bind (agrees_requireChildren proper complete orderly (.inl old)
        (stem ▸ roomy.listable) (stem ▸ also.listable) false)
      rintro listed children told ⟨lists, tells⟩
      have heals := lists.heals proper old
      have marked := lists.marked proper old
      apply Agrees.bind (agrees_requireAbsent proper faithful new heals marked outside)
      rintro listed _ _ ⟨rfl, movable⟩
      apply Agrees.bind (agrees_copyMarker proper faithful new heals old orderly.hollow)
      rintro _ _ _ rfl
      have underway : ∀ {entries : List Entry},
          fs.Catalogued source false contents (some entries) listed →
          Underway fs.suffix source destination contents listed entries := by
        rintro entries ⟨_, merged, _⟩
        exact ⟨old, orderly.neat, orderly.hollow, movable, heals, marked, stem ▸ merged⟩
      apply Agrees.instead (agrees_moveListed proper faithful old new (ih levels) complete
        (underway tells) roomy also)
        (ends_moveListed proper new (underway lists) roomy)
        (ends_moveListed proper new (underway tells) roomy)
      rintro result reached answer met ⟨rfl, moved⟩ ⟨rfl, same⟩
      exact ⟨moved.unique same, rfl⟩

end KeyTree.FileSystem
