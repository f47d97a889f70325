import KeyTree.Proofs.Children
import KeyTree.Proofs.Settling
import KeyTree.Proofs.Taming

/-!
Looks and listings within an allowance. While only allowed keys are in a tame store, whatever fails,
each request, each look for a file or a directory and each listing of children ends with an answer
or in one of the failures that are expected of it, and again only allowed keys are there. Which keys
these are is left open: the markers that may be created have to be allowed, and a listing of all
allowed keys has to stay within the limits (`FileSystem.Ample`).
-/
namespace KeyTree

theorem Entry.forall_mem_record {good : Entry → Prop} {entry : Entry} {children : List Entry}
    (known : ∀ entry ∈ children, good entry) (new : good entry) :
    ∀ other ∈ entry.record children, good other := by
  induction children with
  | nil => simpa [Entry.record] using new
  | cons first later ih =>
    obtain ⟨here, rest⟩ := List.forall_mem_cons.mp known
    rw [Entry.record]
    split
    · rename_i same
      refine List.forall_mem_cons.mpr ⟨?_, rest⟩
      -- The merged entry is the known one, or a file that the new one makes a directory.
      obtain ⟨name, isDirectory⟩ := first
      obtain rfl : name = entry.name := same
      cases isDirectory with
      | true => exact here
      | false => exact new
    · exact List.forall_mem_cons.mpr ⟨here, ih rest⟩

namespace FileSystem

open Program (Settles)
open Store (Leaf Tame)

variable {α : Type} {Cursor : Type} [Tame Cursor] {fs : FileSystem} {kinds : Kind → Prop}
  {endless : Prop} {allowed : Key → Prop} {path : Path}

/-- The program settles while only allowed keys are in the store. -/
abbrev Contained (Cursor : Type) [Tame Cursor] (kinds : Kind → Prop) (endless : Prop)
    (allowed : Key → Prop) (program : Store.Action Cursor α) (post : α → Prop) : Prop :=
  program.Settles Tame.may (fun state => ∀ key ∈ Tame.contents state, allowed key)
    (Failure.Expected kinds endless) post

/-- An operation that is answered by its success is never refused. -/
theorem ensures_succeeds {program : Store.Action Cursor Unit} {post : Unit → Prop}
    {state : Tame.State Cursor} {inv : Tame.State Cursor → Prop} (notice : Cause → Notice)
    (ensured : program.Ensures Tame.may state
      (Program.Settled inv (Failure.Expected (fun _ => True) endless) post)) :
    (program.succeeds notice).Ensures Tame.may state
      (Program.Settled inv (Failure.Expected kinds endless) fun _ => True) := by
  apply ensured.settled_succeeds notice
  intro failure other known
  cases failure with
  | refused cause => exact absurd rfl (other cause)
  | defect _ | tooManyPages | tooDeep => exact known

theorem contained_succeeds {program : Store.Action Cursor Unit} {post : Unit → Prop}
    (notice : Cause → Notice)
    (settles : Contained Cursor (fun _ => True) endless allowed program post) :
    Contained Cursor kinds endless allowed (program.succeeds notice) fun _ => True :=
  fun state kept => ensures_succeeds notice (settles state kept)

section requests

theorem only_insert {contents later : Contents} {key : Key} {content : Content}
    (kept : ∀ key ∈ contents, allowed key) (here : allowed key)
    (same : later = contents.insert key content) : ∀ other ∈ later, allowed other := by
  intro other present
  rw [same] at present
  rcases Std.ExtTreeMap.mem_insert.mp present with same | old
  · exact Std.LawfulEqCmp.eq_of_compare same ▸ here
  · exact kept other old

theorem contained_status (key : Key) :
    Contained Cursor kinds endless allowed (Store.status key) fun _ => True := by
  intro state kept answer later served
  obtain ⟨rfl, status, rfl⟩ := Tame.status served
  exact ⟨kept, trivial⟩

theorem contained_createEmpty {key : Key} (here : allowed key) :
    Contained Cursor kinds endless allowed (Store.createEmpty key) fun _ => True := by
  intro state kept answer later served
  obtain ⟨rfl, same⟩ | ⟨rfl, rfl⟩ := Tame.createEmpty served
  · exact ⟨only_insert kept here same, trivial⟩
  · exact ⟨kept, trivial⟩

theorem contained_copy (source : Key) {destination : Key} (here : allowed destination) :
    Contained Cursor kinds endless allowed (Store.copy source destination) fun _ => True := by
  intro state kept answer later served
  obtain ⟨content, rfl, same⟩ | ⟨rfl, rfl⟩ := Tame.copy served
  · exact ⟨only_insert kept here same, trivial⟩
  · exact ⟨kept, trivial⟩

theorem contained_delete (key : Key) :
    Contained Cursor kinds endless allowed (Store.delete key) fun _ => True := by
  intro state kept answer later served
  obtain ⟨rfl, same⟩ | ⟨rfl, rfl⟩ := Tame.delete served
  · refine ⟨fun other present => ?_, trivial⟩
    rw [same] at present
    exact kept other (Std.ExtTreeMap.mem_of_mem_erase present)
  · exact ⟨kept, trivial⟩

/-- What is served or fails for the store settles if failures of the store are expected. -/
theorem contained_fallible {query : Store.Request Cursor} {post : query.Answer → Prop}
    (fails : kinds .storeFailure)
    (served : ∀ state answer later, (∀ key ∈ Tame.contents state, allowed key) →
      Tame.may query state answer later → (∀ key ∈ Tame.contents later, allowed key) ∧
        ((∃ value, answer = .ok value ∧ post value) ∨ S3.StoreFails answer)) :
    Contained Cursor kinds endless allowed (Program.request (I := Store.interface Cursor) query)
      post := by
  intro state kept answer later allows
  obtain ⟨kept, ⟨value, rfl, holds⟩ | ⟨cause, rfl, kind⟩⟩ := served state answer later kept allows
  · exact ⟨kept, holds⟩
  · rw [← kind] at fails
    exact ⟨kept, fails⟩

theorem contained_store {key : Key} (content : Content) (fails : kinds .storeFailure)
    (here : allowed key) :
    Contained S3.Cursor kinds endless allowed (Store.store key content) fun _ => True := by
  apply contained_fallible fails
  rintro contents answer later kept (⟨rfl, rfl⟩ | ⟨failed, rfl⟩)
  · exact ⟨only_insert kept here rfl, .inl ⟨(), rfl, trivial⟩⟩
  · exact ⟨kept, .inr failed⟩

end requests

section pages
variable {stem : Key} {recursive : Bool} {size offset : Nat} (fails : kinds .storeFailure)
include fails

theorem contained_list :
    Contained Cursor kinds endless allowed (Store.list stem recursive size) fun answer =>
      ∃ page, answer = some page ∧
        Leaf (Tame.Ahead allowed stem recursive size) allowed stem recursive size 0 page := by
  apply contained_fallible fails
  intro state answer later kept served
  obtain ⟨rfl, shown⟩ := Tame.list kept served
  exact ⟨kept, shown.imp_left fun ⟨page, same, leaf⟩ => ⟨_, same, page, rfl, leaf⟩⟩

theorem contained_more {cursor : Cursor}
    (ahead : Tame.Ahead allowed stem recursive size offset cursor) :
    Contained Cursor kinds endless allowed (Store.more cursor) fun answer =>
      ∃ page, answer = some page ∧
        Leaf (Tame.Ahead allowed stem recursive size) allowed stem recursive size offset page := by
  apply contained_fallible fails
  intro state answer later kept served
  obtain ⟨rfl, shown⟩ := Tame.more kept ahead served
  exact ⟨kept, shown.imp_left fun ⟨page, same, leaf⟩ => ⟨_, same, page, rfl, leaf⟩⟩

end pages

theorem contained_isFile (path : Path) :
    Contained Cursor kinds endless allowed (fs.isFile path) fun _ => True :=
  .bind (contained_status _) fun _ _ => .done trivial

section probing
variable (marked : fs.root.isRoot path = false → allowed (fs.markerKey path))

theorem contained_healMarker {marker : Key} (here : allowed marker) :
    Contained Cursor kinds endless allowed (healMarker marker) fun _ => True :=
  .bind (.notify _) fun _ _ => .bind (contained_createEmpty here) fun _ _ => contained_status _

/-- A store that fails to list what is below a path only makes it no directory. -/
theorem contained_probeBelow (here : allowed (fs.markerKey path)) :
    Contained Cursor kinds endless allowed (fs.probeBelow path) fun _ => True := by
  have listed : Contained Cursor (· = .storeFailure) False allowed
      (Store.list (fs.root.stem path) true (1 : Nat)) _ := contained_list rfl
  apply Settles.bind (listed.attempt.allow _)
  · rintro _ (⟨_, rfl, page, rfl, _⟩ | ⟨cause, rfl, refused⟩)
    · exact .ite (fun _ => .done trivial) fun _ => contained_healMarker here
    · exact .ite (fun _ => .bind (.notify _) fun _ _ => .done trivial)
        fun other => absurd refused other
  · rintro failure ⟨other, known⟩
    cases failure with
    | refused cause => exact absurd rfl (other cause)
    | defect _ | tooManyPages | tooDeep => exact known.elim

include marked

theorem contained_probe (below : fs.root.isRoot path = false) :
    Contained Cursor kinds endless allowed (fs.probe path) fun _ => True := by
  rw [FileSystem.probe, if_neg (Bool.not_eq_true _ ▸ below)]
  apply Settles.bind (contained_status _)
  intro status _
  cases status with
  | some status => exact .done trivial
  | none => exact contained_probeBelow (marked below)

theorem contained_isDirectory :
    Contained Cursor kinds endless allowed (fs.isDirectory path) fun answer =>
      fs.root.isRoot path = true → answer = true := by
  apply Settles.ite
  · exact fun _ => .done fun _ => rfl
  · intro top
    exact .bind (contained_probe marked (Bool.not_eq_true _ ▸ top)) fun _ _ =>
      .done fun here => absurd here top

end probing

section listing
variable {stem : Key} {recursive : Bool} {good : Entry → Prop} {size offset : Nat}

/-- What a listing of allowed keys shows is good, and marks groups by allowed keys. -/
structure Welcomes (fs : FileSystem) (allowed : Key → Prop) (stem : Key) (recursive : Bool)
    (good : Entry → Prop) : Prop where
  entry : ∀ listed : Listed, listed.Permitted allowed stem recursive →
    (Entry.ofListed fs.suffix stem listed).name ≠ [] → good (Entry.ofListed fs.suffix stem listed)
  marker : ∀ start, (Listed.group start).Permitted allowed stem recursive →
    allowed (fs.markerKey start)

variable (welcomes : Welcomes fs allowed stem recursive good)
include welcomes

theorem mergeObjects_good {children : List Entry} (keys : List Key)
    (shown : ∀ key ∈ keys, (Listed.object key).Permitted allowed stem recursive)
    (known : ∀ entry ∈ children, good entry) :
    ∃ merged, keys.foldlM (fs.mergeObject stem) children = .ok merged ∧
      ∀ entry ∈ merged, good entry := by
  induction keys generalizing children with
  | nil => exact ⟨children, rfl, known⟩
  | cons key later ih =>
    obtain ⟨here, rest⟩ := List.forall_mem_cons.mp shown
    have named : Path.childName key stem = .ok (key.drop stem.length) := here.childName
    have step : ∃ next, fs.mergeObject stem children key = .ok next ∧
        ∀ entry ∈ next, good entry := by
      rw [mergeObject, named]
      refine ⟨_, rfl, ?_⟩
      split
      · exact known
      · exact Entry.forall_mem_record known (welcomes.entry _ here ‹_›)
    obtain ⟨next, merges, holds⟩ := step
    rw [List.foldlM_cons, merges]
    exact ih rest holds

theorem contained_markGroup {group : Key}
    (shown : (Listed.group group).Permitted allowed stem recursive) :
    Contained Cursor kinds endless allowed (fs.markGroup group) fun _ => True :=
  .bind (.notify _) fun _ _ => .bind (contained_createEmpty (welcomes.marker group shown))
    fun _ _ => .ite (fun _ => .done trivial) fun _ => .notify _

theorem contained_mergeGroup {children : List Entry} {group : Key}
    (shown : (Listed.group group).Permitted allowed stem recursive)
    (known : ∀ entry ∈ children, good entry) :
    Contained Cursor kinds endless allowed (fs.mergeGroup stem children group)
      fun merged => ∀ entry ∈ merged, good entry := by
  have named : Path.childName group stem = .ok (group.drop stem.length) := shown.childName
  rw [mergeGroup, named]
  apply Settles.ite
  · exact fun _ => .done known
  · intro fresh
    rw [Bool.or_eq_true, not_or, decide_eq_true_eq] at fresh
    exact .bind (contained_markGroup welcomes shown) fun _ _ =>
      .done (Entry.forall_mem_record known (welcomes.entry _ shown fresh.1))

theorem contained_mergePage {children : List Entry} {page : Store.Page Cursor}
    (leaf : Leaf (Tame.Ahead allowed stem recursive size) allowed stem recursive size offset page)
    (known : ∀ entry ∈ children, good entry) :
    Contained Cursor kinds endless allowed (fs.mergePage stem children page)
      fun merged => ∀ entry ∈ merged, good entry := by
  obtain ⟨merged, merges, holds⟩ := mergeObjects_good welcomes page.objects leaf.objects known
  rw [mergePage, merges]
  exact .foldlM holds fun children known group member =>
    contained_mergeGroup welcomes (leaf.groups group member) known

/-- No more pages are walked than the limit allows: each offset lies within any list of the
allowed keys. -/
theorem contained_walk (fails : kinds .storeFailure) (positive : 0 < size) (limit : Nat)
    {children : List Entry} {page : Store.Page Cursor}
    (room : endless ∨ ∃ keys : List Key, offset ≤ keys.length ∧ keys.length < limit + offset ∧
      ∀ key, allowed key → key ∈ keys)
    (leaf : Leaf (Tame.Ahead allowed stem recursive size) allowed stem recursive size offset page)
    (known : ∀ entry ∈ children, good entry) :
    Contained Cursor kinds endless allowed (Store.Page.walk (fs.mergePage stem) limit children page)
      fun merged => ∀ entry ∈ merged, good entry := by
  induction limit generalizing offset children page with
  | zero =>
    obtain forever | ⟨keys, least, most, _⟩ := room
    · exact .fail forever
    · omega
  | succ limit ih =>
    apply Settles.bind (contained_mergePage welcomes leaf known)
    intro merged known
    cases follows : page.next with
    | none => exact .done known
    | some cursor =>
      obtain ⟨ahead, within⟩ := leaf.next cursor follows
      apply Settles.bind (contained_more fails ahead)
      rintro _ ⟨next, rfl, leaf⟩
      refine ih ?_ leaf known
      obtain forever | ⟨keys, _, most, covers⟩ := room
      · exact .inl forever
      · have before := within keys covers
        exact .inr ⟨keys, by omega, by omega, covers⟩

end listing

/-- The page size can be read, and a walk over all allowed keys stays within the limits unless
walks may be endless. -/
structure Ample (fs : FileSystem) (endless : Prop) (allowed : Key → Prop) : Prop where
  readable : ∃ size, fs.settings.pageSize = .ok size
  pages : endless ∨ ∃ keys : List Key, keys.length < fs.limits.pages ∧
    ∀ key, allowed key → key ∈ keys

theorem Ample.mono {narrower : Key → Prop} (ample : Ample fs endless allowed)
    (within : ∀ key, narrower key → allowed key) : Ample fs endless narrower where
  readable := ample.readable
  pages := ample.pages.imp_right fun ⟨keys, short, covers⟩ =>
    ⟨keys, short, fun key here => covers key (within key here)⟩

theorem contained_children {good : Entry → Prop} {recursive : Bool} (fails : kinds .storeFailure)
    (ample : Ample fs endless allowed)
    (marked : fs.root.isRoot path = false → allowed (fs.markerKey path))
    (welcomes : Welcomes fs allowed (fs.root.stem path) recursive good) :
    Contained Cursor kinds endless allowed (fs.children path recursive)
      fun answer => ∀ entries, answer = some entries → ∀ entry ∈ entries, good entry := by
  obtain ⟨size, read⟩ := ample.readable
  apply Settles.bind (contained_isDirectory marked)
  intro found _
  apply Settles.ite
  · intro _
    rw [read]
    have lists : Contained Cursor kinds endless allowed
        (Store.list (fs.root.stem path) recursive size) _ := contained_list fails
    apply Settles.bind lists
    rintro _ ⟨first, rfl, leaf⟩
    have room : endless ∨ ∃ keys : List Key, 0 ≤ keys.length ∧
        keys.length < fs.limits.pages + 0 ∧ ∀ key, allowed key → key ∈ keys :=
      ample.pages.imp_right fun ⟨keys, short, covers⟩ => ⟨keys, Nat.zero_le _, short, covers⟩
    apply Settles.bind (contained_walk welcomes fails (Settings.pageSize_pos read) fs.limits.pages
      room leaf (List.forall_mem_nil good))
    rintro merged holds
    refine .done ?_
    rintro entries ⟨⟩
    exact holds
  · intro _
    refine .done ?_
    rintro entries ⟨⟩

end FileSystem
end KeyTree
