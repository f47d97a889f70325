import KeyTree.Proofs.Likeness
import KeyTree.Proofs.Live
import KeyTree.Proofs.Shifting

/-!
Listings of a bucket are complete. A walk asks for the next page where the last one ended, and
as the entries before that offset are known it ends with all of them; the offset grows with
each page and stays below the number of keys that a listing could ever show, so the walk ends.
-/
namespace KeyTree.FileSystem

open KeyTree.Path (separator)
open Program (Returns Agrees Mirrors)

section merge
variable {left right : Backend} (faithful : left.Faithful) (also : right.Faithful)
include faithful also

theorem mirrors_mergeGroup (fs : FileSystem) (stem : Key) (children : List Entry) (group : Key) :
    Mirrors left right True (fs.mergeGroup stem children group)
      (fs.mergeGroup stem children group) := by
  rw [mergeGroup, mergeGroup]
  cases Path.childName group stem with
  | error cause => exact .refuse trivial cause
  | ok below =>
    have marks : Mirrors left right True (fs.markGroup group) (fs.markGroup group) :=
      .bind (.notify _) fun _ => .bind (.createEmpty faithful also _) fun _ =>
        .ite (.done ()) (.notify _)
    exact .bind (.done below) fun _ => .ite (.done _) (.bind marks fun _ => .done _)

/-- What merging a page does depends on what the page shows, and not on how it goes on. -/
theorem mirrors_mergePage (fs : FileSystem) (stem : Key) (children : List Entry)
    {page : Store.Page left.Cursor} {other : Store.Page right.Cursor}
    (objects : page.objects = other.objects) (groups : page.groups = other.groups) :
    Mirrors left right True (fs.mergePage stem children page)
      (fs.mergePage stem children other) := by
  have merges : ∀ (groups : List Key) (children : List Entry), Mirrors left right True
      (groups.foldlM (fs.mergeGroup stem) children) (groups.foldlM (fs.mergeGroup stem) children) := by
    intro groups
    induction groups with
    | nil => exact fun children => .done children
    | cons group later ih =>
      intro children
      rw [List.foldlM_cons, List.foldlM_cons]
      exact .bind (mirrors_mergeGroup faithful also fs stem children group) ih
  rw [mergePage, mergePage, objects, groups]
  cases other.objects.foldlM (fs.mergeObject stem) children with
  | error cause => exact .refuse trivial cause
  | ok next => exact .bind (.done next) (merges other.groups)

end merge

variable {fs : FileSystem} {stem : Key} {recursive : Bool} {before now : Contents}
  {children : List Entry} {shown : Entry → Prop} {pageSize offset : Nat} (bucket : S3.Bucket)
  (proper : fs.Proper)
include proper

section walk
variable (at_stem : Path.Stem fs.suffix stem) (neat : before.Neat fs.suffix)
include at_stem neat

/-- Merging a page of a bucket takes the walk behind that page. -/
theorem ends_mergePage
    (surveyed : Surveyed fs stem (!recursive) before offset shown children now) :
    bucket.live.Ends (fs.mergePage stem children
        (S3.Bucket.pageAt (now.entries stem !recursive) stem recursive pageSize offset)) now
      fun result later => ∃ next, result = .ok next ∧ ∃ seen,
        Surveyed fs stem (!recursive) before (offset + pageSize) seen next later ∧
        ((now.entries stem !recursive).length ≤ offset + pageSize →
          ∀ entry, before.Shown fs.suffix stem (!recursive) entry → seen entry) := by
  let page : Store.Page Memory.Cursor :=
    Memory.page ((now.entries stem !recursive).drop offset) pageSize
  have merges : Mirrors Memory.backend bucket.live True (fs.mergePage stem children page)
      (fs.mergePage stem children
        (S3.Bucket.pageAt (now.entries stem !recursive) stem recursive pageSize offset)) :=
    mirrors_mergePage Memory.backend_faithful bucket.live_faithful fs stem children rfl rfl
  exact (merges now).returns (returns_mergePage_surveyed proper at_stem neat surveyed)

/-- A walk that has come to an offset ends with everything that the contents show. -/
theorem ends_walk {keys : List Key}
    (covers : ∀ key, stem <+: key → before.Potential fs.suffix key → key ∈ keys) (limit : Nat)
    (positive : 0 < pageSize)
    (surveyed : Surveyed fs stem (!recursive) before offset shown children now)
    (within : offset ≤ keys.length) (room : keys.length < offset + limit) :
    bucket.live.Ends (Store.Page.walk (fs.mergePage stem) limit children
        (S3.Bucket.pageAt (now.entries stem !recursive) stem recursive pageSize offset)) now
      fun result later => ∃ final, result = .ok final ∧
        Underlined fs stem (!recursive) before final ⟨later, ∅⟩ ∧
        Merged final (before.Shown fs.suffix stem !recursive) := by
  induction limit generalizing now offset shown children with
  | zero => omega
  | succ limit ih =>
    have bound : (now.entries stem !recursive).length ≤ keys.length :=
      surveyed.underlined.length_entries_le covers
    rw [Store.Page.walk]
    refine Backend.Ends.bind (ends_mergePage bucket proper at_stem neat surveyed) ?_
    rintro next later ⟨seen, further, all⟩
    dsimp only [S3.Bucket.pageAt]
    by_cases more : offset + pageSize < (now.entries stem !recursive).length
    · rw [if_pos more]
      refine Backend.Ends.bind_ok (S3.Bucket.ends_more bucket later) ?_
      exact ih further (by omega) (by omega)
    · rw [if_neg more]
      refine .done ⟨next, rfl, further.underlined, further.merged.congr fun entry _ => ?_⟩
      exact ⟨further.sound entry, all (by omega) entry⟩

end walk

/-- What a bucket lists is what the contents say, although the entries shift as they are listed. -/
theorem complete_live : fs.Complete bucket.live := by
  intro tuning contents path recursive place orderly listable
  have at_stem := place.stem proper
  obtain ⟨⟨pageSize, read⟩, keys, room, covers⟩ := listable
  have mirrors : ∀ path, Mirrors Memory.backend bucket.live True (fs.isDirectory path)
      (fs.isDirectory path) :=
    mirrors_isDirectory Memory.backend_faithful bucket.live_faithful fs
  have looks : bucket.live.Ends (fs.isDirectory path) contents fun result later =>
      ∃ found, result = .ok found ∧ (found = true ↔ fs.Holds contents path) ∧
        (found = false → later = contents) ∧
        (found = true → Blanks (contents.Inferred fs.suffix (fs.root.stem path) false)
          contents later) :=
    (mirrors path contents).returns (returns_isDirectory_place proper place orderly.hollow)
  refine Backend.Ends.bind looks ?_
  rintro found probed ⟨there, unchanged, opened⟩
  cases found with
  | false =>
    have missing : ¬ fs.Holds contents path := fun held => nomatch there.mpr held
    exact .done ⟨none, rfl, missing, unchanged rfl⟩
  | true =>
    dsimp only
    rw [if_pos rfl, read]
    have begun : (fs.tuned tuning).Surveyed (fs.root.stem path) (!recursive) contents 0
        (fun _ => False) [] probed := ⟨.of_blanks (opened rfl), .nil, by simp, by simp⟩
    refine Backend.Ends.bind_done (Backend.Ends.bind_ok (S3.Bucket.ends_list bucket probed) ?_)
    refine Backend.Ends.bind (ends_walk bucket (proper.tuned tuning) at_stem orderly.neat covers _
      (Settings.pageSize_pos read) begun (Nat.zero_le _) (by omega)) ?_
    rintro final ended ⟨underlined, merged⟩
    have hollow : contents.Hollow (fs.tuned tuning).suffix := orderly.hollow
    exact .done ⟨_, rfl, Catalogued.of_underlined hollow (there.mp rfl) merged underlined⟩

end KeyTree.FileSystem
