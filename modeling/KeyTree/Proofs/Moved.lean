import KeyTree.Proofs.Children
import KeyTree.Proofs.Rewrites

/-!
What moving a directory makes of neat contents. An empty marker arrives for the directory
and for each one below it, whether it had a marker or not, and each file arrives under its
new path, except those whose name is a directory too: nothing of them arrives. Both the
keys that are touched and what arrives split over the children that a listing of the
directory shows.
-/
namespace KeyTree

open KeyTree.Path (separator)

/-- What arrives at the destination of a move. -/
inductive Arrives (suffix : Key) (source destination : Path) (before : Contents) :
    Key → Content → Prop where
  | marker : Arrives suffix source destination before (destination ++ suffix) []
  | file {rest : Path} {content : Content} : Path.Plain suffix rest →
    before[source ++ separator :: rest]? = some content →
    ¬ before.HasDirectory suffix (source ++ separator :: rest) →
    Arrives suffix source destination before (destination ++ separator :: rest) content
  | directory {rest : Path} : Path.Plain suffix rest →
    before.HasDirectory suffix (source ++ separator :: rest) →
    Arrives suffix source destination before (destination ++ separator :: rest ++ suffix) []

/-- All that the source holds has gone to the destination. -/
def Moved (suffix : Key) (source destination : Path) (before after : Contents) : Prop :=
  Rewrites (fun key => source.Holds suffix key ∨ destination.Holds suffix key)
    (Arrives suffix source destination before) before after

/-- An object that neat and hollow contents may hold. -/
def Contents.Fits (suffix : Key) (key : Key) (content : Content) : Prop :=
  ∃ path, Path.Plain suffix path ∧
    (key = path ∨ (key = path ++ suffix ∨ key = path ++ [separator]) ∧ content = [])

theorem Rewrites.orderly {suffix : Key} {region : Key → Prop} {arrivals : Key → Content → Prop}
    {before after : Contents} (rewrites : Rewrites region arrivals before after)
    (whole : separator ∉ suffix)
    (fits : ∀ key content, arrivals key content → Contents.Fits suffix key content)
    (neat : before.Neat suffix) (hollow : before.Hollow suffix) :
    after.Neat suffix ∧ after.Hollow suffix := by
  constructor
  · intro key present named
    rcases rewrites.mem present with ⟨_, old⟩ | ⟨content, arrived⟩
    · exact neat key old named
    · obtain ⟨path, plain, kind⟩ := fits key content arrived
      exact ⟨path, plain, kind.imp_right And.left⟩
  · intro path plain key kind content stored
    rcases (rewrites.lookup_iff key content).mp stored with ⟨_, old⟩ | arrived
    · exact hollow path plain key kind content old
    · obtain ⟨other, file, rfl | ⟨_, bare⟩⟩ := fits key content arrived
      · rcases kind with rfl | rfl
        · exact absurd rfl (marker_ne whole file path)
        · exact absurd rfl (stem_ne file path)
      · exact bare

namespace Arrives
variable {suffix : Key} {source destination : Path} {before after : Contents} {key : Key}
  {content : Content}

theorem holds (arrives : Arrives suffix source destination before key content) :
    destination.Holds suffix key := by
  cases arrives with
  | marker => exact .marker
  | file _ _ _ => exact .below stem_prefix_append
  | directory _ _ => exact .below (stem_prefix_append.trans (List.prefix_append _ _))

theorem fits (plain : Path.Plain suffix destination)
    (arrives : Arrives suffix source destination before key content) :
    Contents.Fits suffix key content := by
  cases arrives with
  | marker => exact ⟨destination, plain, .inr ⟨.inl rfl, rfl⟩⟩
  | file named _ _ => exact ⟨_, Path.Plain.append_iff.mpr ⟨plain, named⟩, .inl rfl⟩
  | directory named _ =>
    exact ⟨_, Path.Plain.append_iff.mpr ⟨plain, named⟩, .inr ⟨.inl rfl, rfl⟩⟩

theorem congr (files : ∀ rest, Path.Plain suffix rest →
      after[source ++ separator :: rest]? = before[source ++ separator :: rest]?)
    (directories : ∀ rest, Path.Plain suffix rest →
      (after.HasDirectory suffix (source ++ separator :: rest) ↔
        before.HasDirectory suffix (source ++ separator :: rest))) :
    Arrives suffix source destination after key content ↔
      Arrives suffix source destination before key content := by
  constructor
  · intro arrives
    cases arrives with
    | marker => exact .marker
    | file named stored single =>
      exact .file named ((files _ named).symm.trans stored) (mt (directories _ named).mpr single)
    | directory named there => exact .directory named ((directories _ named).mp there)
  · intro arrives
    cases arrives with
    | marker => exact .marker
    | file named stored single =>
      exact .file named ((files _ named).trans stored) (mt (directories _ named).mp single)
    | directory named there => exact .directory named ((directories _ named).mpr there)

end Arrives

namespace Entry
variable {suffix : Key} {path source destination : Path} {entry : Entry} {key : Key}
  {content : Content} {before after : Contents}

/-- The keys below a path that have to do with an entry of its listing. -/
def Claims (suffix : Key) (path : Path) : Entry → Key → Prop
  | ⟨name, true⟩, key => (path ++ separator :: name).Holds suffix key
  | ⟨name, false⟩, key => key = path ++ separator :: name

/-- What arrives where the entry is moved to. -/
def Arrives (suffix : Key) (source destination : Path) (before : Contents) :
    Entry → Key → Content → Prop
  | ⟨name, true⟩, key, content => KeyTree.Arrives suffix (source ++ separator :: name)
      (destination ++ separator :: name) before key content
  | ⟨name, false⟩, key, content => key = destination ++ separator :: name ∧
      before[source ++ separator :: name]? = some content

theorem Claims.below (claims : entry.Claims suffix path key) : path ++ [separator] <+: key := by
  obtain ⟨name, isDirectory⟩ := entry
  cases isDirectory with
  | false => exact claims ▸ stem_prefix_append
  | true => exact Path.Holds.of_child claims

/-- Entries with different names have no key in common. -/
theorem Claims.apart {other : Entry} (whole : separator ∉ suffix)
    (first : separator ∉ entry.name) (second : separator ∉ other.name)
    (plain : Path.Plain suffix entry.name) (named : Path.Plain suffix other.name)
    (differs : entry.name ≠ other.name) (claims : entry.Claims suffix path key) :
    ¬ other.Claims suffix path key := by
  have never : ∀ {name deep : Path}, separator ∉ name →
      ¬ path ++ separator :: deep ++ [separator] <+: path ++ separator :: name := by
    rintro name deep single ⟨rest, same⟩
    simp only [List.append_assoc, List.cons_append, List.append_cancel_left_eq, List.cons.injEq,
      true_and] at same
    exact single (same ▸ by simp)
  obtain ⟨name, isDirectory⟩ := entry
  obtain ⟨others, alsoDirectory⟩ := other
  have parted : path ++ separator :: name ≠ path ++ separator :: others := fun same =>
    differs (List.cons_inj_right _ |>.mp (List.append_cancel_left same))
  cases isDirectory with
  | true =>
    cases alsoDirectory with
    | true => exact Path.Holds.apart whole parted (never second) (never first) claims
    | false =>
      rintro rfl
      rcases claims with same | inside
      · rw [List.append_assoc, List.append_cancel_left_eq, List.cons_append, List.cons.injEq] at same
        exact marker_ne whole named name same.2.symm
      · exact never second inside
  | false =>
    cases alsoDirectory with
    | true =>
      cases claims
      rintro (same | inside)
      · rw [List.append_assoc, List.append_cancel_left_eq, List.cons_append, List.cons.injEq] at same
        exact marker_ne whole plain others same.2.symm
      · exact never first inside
    | false => exact fun same => parted (claims.symm.trans same)

theorem Arrives.claims (arrives : entry.Arrives suffix source destination before key content) :
    entry.Claims suffix destination key := by
  obtain ⟨name, isDirectory⟩ := entry
  cases isDirectory with
  | false => exact arrives.1
  | true => exact KeyTree.Arrives.holds arrives

theorem Arrives.fits (plain : Path.Plain suffix (destination ++ separator :: entry.name))
    (arrives : entry.Arrives suffix source destination before key content) :
    Contents.Fits suffix key content := by
  obtain ⟨name, isDirectory⟩ := entry
  cases isDirectory with
  | false => exact ⟨_, plain, .inl arrives.1⟩
  | true => exact KeyTree.Arrives.fits plain arrives

/-- What arrives depends only on the keys that the entry claims at the source. -/
theorem Arrives.congr (same : ∀ key, entry.Claims suffix source key → after[key]? = before[key]?) :
    entry.Arrives suffix source destination after key content ↔
      entry.Arrives suffix source destination before key content := by
  obtain ⟨name, isDirectory⟩ := entry
  cases isDirectory with
  | false =>
    refine and_congr_right fun _ => ?_
    rw [same _ rfl]
  | true =>
    refine KeyTree.Arrives.congr ?_ ?_
    · exact fun rest _ => same _ (Path.Holds.below stem_prefix_append)
    · exact fun rest _ =>
        Contents.HasDirectory.congr fun key held => same key (Path.Holds.below held.of_child)

end Entry

/-- All that the entries claim at the source has gone to the destination. -/
def EntriesMoved (suffix : Key) (source destination : Path) (entries : List Entry)
    (before after : Contents) : Prop :=
  Rewrites
    (fun key => ∃ entry ∈ entries,
      entry.Claims suffix source key ∨ entry.Claims suffix destination key)
    (fun key content => ∃ entry ∈ entries,
      entry.Arrives suffix source destination before key content) before after

/-- One entry and then the others are moved, if the others have no key in common with it. -/
theorem EntriesMoved.cons {suffix : Key} {source destination : Path} {entry : Entry}
    {others : List Entry} {before middle after : Contents}
    (moved : Rewrites
      (fun key => entry.Claims suffix source key ∨ entry.Claims suffix destination key)
      (entry.Arrives suffix source destination before) before middle)
    (rest : EntriesMoved suffix source destination others middle after)
    (parted : ∀ other ∈ others, ∀ key,
      other.Claims suffix source key ∨ other.Claims suffix destination key →
        ¬ (entry.Claims suffix source key ∨ entry.Claims suffix destination key)) :
    EntriesMoved suffix source destination (entry :: others) before after := by
  refine Rewrites.congr (moved.andThen rest ?_) ?_ ?_
  · rintro key content arrives ⟨other, member, claimed⟩
    exact parted other member key claimed (.inr arrives.claims)
  · simp
  · intro key content
    have kept : ∀ other ∈ others,
        (other.Arrives suffix source destination middle key content ↔
          other.Arrives suffix source destination before key content) :=
      fun other member => Entry.Arrives.congr fun key claims =>
        moved.same (parted other member key (.inl claims))
    simp only [List.mem_cons, exists_eq_or_imp]
    exact or_congr_right (exists_congr fun other => and_congr_right (kept other))

section children
variable {suffix : Key} {source destination : Path} {before : Contents} {children : List Entry}
  (whole : separator ∉ suffix) (given : suffix ≠ []) (neat : before.Neat suffix)
include whole given neat

/-- What arrives is the marker of the destination and what arrives for each child. -/
theorem arrives_iff_children
    (merged : Merged children (before.Shown suffix (source ++ [separator]) true))
    {key : Key} {content : Content} :
    Arrives suffix source destination before key content ↔
      (key = destination ++ suffix ∧ content = []) ∨
        ∃ entry ∈ children, entry.Arrives suffix source destination before key content := by
  have nest : ∀ (path name deep : Path),
      path ++ separator :: name ++ separator :: deep = path ++ separator :: (name ++ separator :: deep) :=
    fun path name deep => by rw [List.append_assoc, List.cons_append]
  constructor
  · intro arrives
    cases arrives with
    | marker => exact .inl ⟨rfl, rfl⟩
    | file named stored single =>
      obtain ⟨name, first, plain, rfl | ⟨deep, below, rfl⟩⟩ := named.cut
      · refine .inr ⟨⟨_, false⟩, ?_, rfl, stored⟩
        exact (merged.grouped_file_iff whole given neat).mpr
          ⟨first, plain, Contents.mem_iff_lookup.mpr ⟨_, stored⟩, single⟩
      · rw [← nest] at stored single ⊢
        refine .inr ⟨⟨name, true⟩, ?_, Arrives.file below stored single⟩
        exact (merged.grouped_directory_iff whole given neat).mpr ⟨first, plain,
          .inr ⟨_, Contents.mem_iff_lookup.mpr ⟨_, stored⟩, stem_prefix_append⟩⟩
    | directory named there =>
      obtain ⟨name, first, plain, rfl | ⟨deep, below, rfl⟩⟩ := named.cut
      · refine .inr ⟨⟨_, true⟩, ?_, Arrives.marker⟩
        exact (merged.grouped_directory_iff whole given neat).mpr ⟨first, plain, there⟩
      · rw [← nest] at there ⊢
        refine .inr ⟨⟨name, true⟩, ?_, Arrives.directory below there⟩
        refine (merged.grouped_directory_iff whole given neat).mpr ⟨first, plain, .inr ?_⟩
        rcases there with marked | ⟨key, present, inside⟩
        · exact ⟨_, marked, stem_prefix_append.trans (List.prefix_append _ _)⟩
        · exact ⟨key, present, stem_prefix_trans stem_prefix_append inside⟩
  · rintro (⟨rfl, rfl⟩ | ⟨⟨name, isDirectory⟩, member, arrives⟩)
    · exact .marker
    · cases isDirectory with
      | false =>
        obtain ⟨_, plain, _, single⟩ := (merged.grouped_file_iff whole given neat).mp member
        obtain ⟨rfl, stored⟩ := arrives
        exact .file plain stored single
      | true =>
        obtain ⟨_, plain, there⟩ := (merged.grouped_directory_iff whole given neat).mp member
        cases arrives with
        | marker => exact .directory plain there
        | file below stored single =>
          rw [nest] at stored single ⊢
          exact .file (Path.Plain.append_iff.mpr ⟨plain, below⟩) stored single
        | directory below inner =>
          rw [nest] at inner ⊢
          exact .directory (Path.Plain.append_iff.mpr ⟨plain, below⟩) inner

end children
end KeyTree
