import KeyTree.Proofs.Moves

/-!
One level of a move. When the children of a directory have been moved and what is left of
it is removed, everything that the source held has gone to the destination. By induction
on the levels a move leaves what it should (`ensures_moveDirectory`).
-/
namespace KeyTree

open KeyTree.Path (separator)
open Program (Ensures Returns)

/-- The source has been listed, and its children are about to be moved. -/
structure Underway (suffix : Key) (source destination : Path) (before listed : Contents)
    (children : List Entry) : Prop where
  old : Path.Plain suffix source
  neat : before.Neat suffix
  hollow : before.Hollow suffix
  movable : Movable suffix source destination before
  heals : Heals suffix source before listed
  marked : source ++ suffix ∈ listed
  merged : Merged children (before.Shown suffix (source ++ [separator]) true)

namespace Underway
variable {suffix : Key} {source destination : Path} {before listed later : Contents}
  {children : List Entry} {key : Key} (whole : separator ∉ suffix) (given : suffix ≠ [])
  (underway : Underway suffix source destination before listed children)
include whole underway

/-- The marker of the destination is not held by the source. -/
theorem source_same (held : source.Holds suffix key) :
    (listed.insert (destination ++ suffix) [])[key]? = listed[key]? := by
  rw [Contents.lookup_insert, if_neg]
  rintro rfl
  exact underway.movable.apart whole held .marker

include given in
theorem ready : ∀ entry ∈ children,
    entry.Ready suffix source destination (listed.insert (destination ++ suffix) []) := by
  intro entry member
  obtain ⟨named, shown⟩ := underway.merged.shown_of_mem member
  obtain ⟨first, plain, there⟩ :=
    (Contents.shown_grouped_iff whole given underway.neat named).mp shown
  refine ⟨first, plain, ?_, ?_⟩
  · have found : ∃ key ∈ listed, entry.Claims suffix source key := by
      obtain ⟨name, isDirectory⟩ := entry
      cases isDirectory with
      | false => exact ⟨_, underway.heals.mem there, rfl⟩
      | true => exact ((underway.heals.hasDirectory_iff whole).mpr there).exists_held
    obtain ⟨key, present, claims⟩ := found
    have same := underway.source_same whole (.below claims.below)
    exact ⟨key, (Contents.mem_of_lookup_eq same).mpr present, claims⟩
  · intro isDirectory key present claims
    have same : (listed.insert (destination ++ suffix) [])[key]? = listed[key]? := by
      rw [Contents.lookup_insert, if_neg]
      rintro rfl
      exact not_stem_prefix_marker whole claims.below
    have under : listed.Under destination :=
      ⟨key, (Contents.mem_of_lookup_eq same).mp present, claims.below⟩
    exact underway.movable.free (.inr ((underway.heals.under_iff whole).mp under))

include given in
/-- The children are still to be moved when the marker of the destination is there. -/
theorem pending (new : Path.Plain suffix destination) :
    Pending suffix source destination children (listed.insert (destination ++ suffix) []) := by
  obtain ⟨neat, hollow⟩ := (Rewrites.insert listed (destination ++ suffix) []).orderly whole
    (fun key content arrived => ⟨destination, new, .inr ⟨.inl arrived.1, arrived.2⟩⟩)
    (underway.heals.neat underway.neat) (underway.heals.hollow underway.hollow)
  exact ⟨underway.merged.once, neat, hollow, fun _ => underway.movable.apart whole,
    underway.ready whole given⟩

include given in
/-- Where there is room for the source, there is room for each directory in it. -/
theorem roomy_child {fs : FileSystem} {depth : Nat} {name : Path}
    (roomy : fs.Roomy (depth + 1) source before) (same : fs.suffix = suffix)
    (member : ⟨name, true⟩ ∈ children) :
    fs.Roomy depth (source ++ separator :: name) (listed.insert (destination ++ suffix) []) := by
  subst same
  obtain ⟨_, plain, there⟩ :=
    (underway.merged.grouped_directory_iff whole given underway.neat).mp member
  refine (roomy.child plain there).shrink whole ?_
  refine (Contents.Descends.of_heals underway.heals).trans whole (.of_kept ?_)
  intro key present held
  have kept := underway.source_same whole (.below held.of_child)
  exact (Contents.mem_of_lookup_eq kept).mp present

include given in
/-- Healing the source changes nothing of what its children bring along. -/
theorem arrives_iff {content : Content} {entry : Entry} (member : entry ∈ children) :
    entry.Arrives suffix source destination (listed.insert (destination ++ suffix) []) key content ↔
      entry.Arrives suffix source destination before key content := by
  have plain := (underway.ready whole given entry member).plain
  have file : ∀ {rest : Path}, Path.Plain suffix rest →
      (listed.insert (destination ++ suffix) [])[source ++ separator :: rest]? =
        before[source ++ separator :: rest]? := fun named =>
    (underway.source_same whole (.below stem_prefix_append)).trans
      (underway.heals.file whole (Path.Plain.append_iff.mpr ⟨underway.old, named⟩))
  obtain ⟨name, isDirectory⟩ := entry
  cases isDirectory with
  | false =>
    refine and_congr_right fun _ => ?_
    rw [file plain]
  | true =>
    refine Arrives.congr ?_ ?_
    · intro rest named
      rw [List.append_assoc, List.cons_append]
      exact file (Path.Plain.append_iff.mpr ⟨plain, named⟩)
    · intro rest _
      refine Iff.trans (Contents.HasDirectory.congr fun key held => ?_)
        (underway.heals.hasDirectory_iff whole)
      exact underway.source_same whole (.below (stem_prefix_trans stem_prefix_append held.of_child))

variable (looped : EntriesMoved suffix source destination children
  (listed.insert (destination ++ suffix) []) later)
include looped

/-- What the source still holds was there when it was listed, and no child claims it. -/
theorem left_over (held : source.Holds suffix key) (present : key ∈ later) :
    key ∈ listed ∧ ∀ entry ∈ children, ¬ entry.Claims suffix source key := by
  rcases looped.mem present with ⟨free, kept⟩ | ⟨content, entry, member, arrives⟩
  · exact ⟨(Contents.mem_of_lookup_eq (underway.source_same whole held)).mp kept,
      fun entry member claims => free ⟨entry, member, .inl claims⟩⟩
  · exact absurd (.below arrives.claims.below) (underway.movable.apart whole held)

theorem descends : Contents.Descends suffix source before later :=
  (Contents.Descends.of_heals underway.heals).trans whole
    (.of_kept fun _ present held => (underway.left_over whole looped held present).1)

include given in
theorem stays_orderly (new : Path.Plain suffix destination) :
    later.Neat suffix ∧ later.Hollow suffix := by
  have pending := underway.pending whole given new
  apply Rewrites.orderly looped whole ?_ pending.neat pending.hollow
  rintro key content ⟨entry, member, arrives⟩
  exact arrives.fits (Path.Plain.append_iff.mpr ⟨new, (pending.ready entry member).plain⟩)

theorem stays_directory : later.HasDirectory suffix source := by
  refine .inl ((Contents.mem_of_lookup_eq (looped.same ?_)).mpr
    ((Contents.mem_of_lookup_eq (underway.source_same whole .marker)).mpr underway.marked))
  rintro ⟨entry, _, claims | claims⟩
  · exact not_stem_prefix_marker whole claims.below
  · exact underway.movable.apart whole .marker (.below claims.below)

include given in
/-- Of a name that is a file and a directory only the file is left. -/
theorem unobscured (below : source ++ [separator] <+: key) :
    ¬ later.Obscured suffix key := by
  have taken : ∀ other, other ∈ later → key ++ suffix = other ∨ key ++ [separator] = other →
      False := by
    intro other present kind
    have inside : source ++ [separator] <+: other := by
      rcases kind with rfl | rfl
      · exact below.trans (List.prefix_append _ _)
      · exact below.trans (List.prefix_append _ _)
    obtain ⟨stored, free⟩ := underway.left_over whole looped (.below inside) present
    rcases (underway.heals.neat underway.neat).child whole stored inside with
      rfl | ⟨name, first, plain, kinds⟩
    · rcases kind with same | same
      · exact marker_ne_stem whole given _ _ same
      · rw [List.append_cancel_right same] at below
        exact not_stem_prefix_self below
    · have held : (source ++ separator :: name).Holds suffix other := by
        rcases kinds with rfl | marker | deep
        · have named := Path.Plain.append_iff.mpr ⟨underway.old, plain⟩
          rcases kind with same | same
          · exact absurd same (marker_ne whole named key)
          · exact absurd same (stem_ne named key)
        · exact .inl marker
        · exact .inr deep
      have there := Contents.hasDirectory_of_holds stored held
      refine free ⟨name, true⟩ ?_ held
      exact (underway.merged.grouped_directory_iff whole given underway.neat).mpr
        ⟨first, plain, (underway.heals.hasDirectory_iff whole).mp there⟩
  rintro (marked | placed)
  · exact taken _ marked (.inl rfl)
  · exact taken _ placed (.inr rfl)

include given in
theorem moved {final : Contents}
    (removed : Rewrites (source.Holds suffix) (fun _ _ => False) later final) :
    Moved suffix source destination before final := by
  have claims_held : ∀ {entry : Entry} {key : Key}, entry.Claims suffix source key ∨
      entry.Claims suffix destination key → source.Holds suffix key ∨ destination.Holds suffix key :=
    Or.imp (fun claims => .below claims.below) fun claims => .below claims.below
  have marker_free : ∀ entry ∈ children, ¬ (entry.Claims suffix source (destination ++ suffix) ∨
      entry.Claims suffix destination (destination ++ suffix)) := by
    rintro entry _ (claims | claims)
    · exact underway.movable.apart whole (.below claims.below) .marker
    · exact not_stem_prefix_marker whole claims.below
  have whole_move := ((Rewrites.insert listed (destination ++ suffix) []).andThen looped
    (by rintro key content ⟨rfl, _⟩ ⟨entry, member, claimed⟩
        exact marker_free entry member claimed)).andThen removed
    (by rintro key content (⟨rfl, _⟩ | ⟨entry, _, arrives⟩) held
        · exact underway.movable.apart whole held .marker
        · exact underway.movable.apart whole held (.below arrives.claims.below))
  refine ⟨fun key content arrives => .inr arrives.holds, fun key content => ?_⟩
  rw [whole_move.lookup_iff, or_false, arrives_iff_children whole given underway.neat underway.merged]
  refine or_congr ?_ (or_congr_right (exists_congr fun entry => and_congr_right fun member =>
    underway.arrives_iff whole given member))
  constructor
  · rintro ⟨free, stored⟩
    have outside : ¬ source.Holds suffix key := fun held => free (.inr held)
    rw [underway.heals.outside outside] at stored
    refine ⟨fun held => held.elim outside fun held => ?_, stored⟩
    exact underway.movable.free
      (Contents.hasDirectory_of_holds (Contents.mem_iff_lookup.mpr ⟨content, stored⟩) held)
  · rintro ⟨free, stored⟩
    refine ⟨?_, (underway.heals.outside fun held => free (.inl held)).trans stored⟩
    rintro ((rfl | ⟨entry, _, claimed⟩) | held)
    · exact free (.inr .marker)
    · exact free (claims_held claimed)
    · exact free (.inl held)

end Underway

namespace FileSystem
variable {fs : FileSystem}

/-- Once the source is listed, a free place that is not inside it is one to move it to. -/
theorem Vacant.movable {source destination : Path} {before : Contents} {listed reached : Memory}
    (whole : separator ∉ fs.suffix) (heals : Heals fs.suffix source before listed.contents)
    (marked : source ++ fs.suffix ∈ listed.contents)
    (outside : ¬ source ++ [separator] <+: destination ++ [separator])
    (vacant : Vacant fs (fun _ => False) destination listed (.ok ()) reached) :
    reached = listed ∧ Movable fs.suffix source destination before := by
  obtain ⟨same, absent, _⟩ := vacant.free rfl fun _ => id
  refine ⟨same, ?_, fun present => absent (heals.mem present), fun there => ?_, outside⟩
  · exact (heals.hasDirectory_iff whole).mp (.inl marked)
  · exact (vacant.missed rfl ((heals.hasDirectory_iff whole).mpr there)).elim fun _ => id

variable (proper : fs.Proper)
include proper

/-- The rest of a move, once the marker of the destination is there. -/
theorem ensures_moveListed {depth : Nat} {before listed : Contents} {memory : Memory}
    {source destination : Path} {children : List Entry} (new : Path.Plain fs.suffix destination)
    (underway : Underway fs.suffix source destination before listed children)
    (copied : memory.contents = listed.insert (destination ++ fs.suffix) [])
    (nested : ∀ {memory : Memory} {source destination : Path}, Path.Plain fs.suffix source →
      Path.Plain fs.suffix destination → memory.contents.Neat fs.suffix →
      memory.contents.Hollow fs.suffix →
      (fs.moveDirectory depth source destination).Ensures (Memory.may fun _ => False) memory
        (Relocated fs depth source destination memory)) :
    ((children.forM (fs.moveEntry depth source destination)).bind fun _ =>
        fs.removeDirectory source true).Ensures (Memory.may fun _ => False) memory
      fun result final =>
        (result = .ok () → Moved fs.suffix source destination before final.contents) ∧
        ∀ failure, result = .error failure → ¬ fs.Roomy (depth + 1) source before := by
  have whole := proper.suffix_whole
  have given := proper.suffix_ne_nil
  have pending := underway.pending whole given new
  rw [← copied] at pending
  refine Ensures.bind (ensures_moveEntries proper underway.old new children pending nested) ?_ ?_
  · rintro _ later ⟨finishes, _⟩
    have looped := finishes rfl
    rw [copied] at looped
    refine Ensures.mono (ensures_removeDirectory proper underway.old
      (underway.stays_orderly whole given looped new).1) ?_
    intro result final emptied
    constructor
    · rintro rfl
      exact underway.moved whole given looped
        (emptied.rewrites whole fun key _ below _ =>
          underway.unobscured whole given looped below)
    · intro failure failed roomy
      have room := roomy.shrink whole (underway.descends whole looped)
      exact room.not_obstructed
        (emptied.stopped failure failed (underway.stays_directory whole looped))
  · rintro failure later ⟨_, stops⟩
    refine ⟨nofun, fun _ _ roomy => ?_⟩
    obtain ⟨⟨name, isDirectory⟩, member, rfl, cramped⟩ := stops failure rfl
    rw [copied] at cramped
    exact cramped (underway.roomy_child whole given roomy rfl member)

theorem ensures_moveDirectory (depth : Nat) {memory : Memory} {source destination : Path}
    (old : Path.Plain fs.suffix source) (new : Path.Plain fs.suffix destination)
    (neat : memory.contents.Neat fs.suffix) (hollow : memory.contents.Hollow fs.suffix) :
    (fs.moveDirectory depth source destination).Ensures (Memory.may fun _ => False) memory
      (Relocated fs depth source destination memory) := by
  have whole := proper.suffix_whole
  have given := proper.suffix_ne_nil
  induction depth generalizing memory source destination with
  | zero => exact ⟨nofun, fun _ _ _ roomy => absurd roomy.some_depth (Nat.lt_irrefl 0)⟩
  | succ depth ih =>
    rw [moveDirectory_succ, proper.stem_plain old, proper.stem_plain new]
    split
    · rename_i inside
      exact ⟨nofun, fun _ _ movable => absurd inside movable.outside⟩
    · rename_i outside
      refine Ensures.bind (ensures_requireChildren proper old neat false) ?_ ?_
      · intro children listed gathered
        obtain ⟨marked, merged⟩ := gathered.listed children rfl
        refine Ensures.bind (ensures_requireAbsent proper new) ?_ ?_
        · intro _ reached vacant
          obtain ⟨rfl, movable⟩ := vacant.movable whole gathered.heals marked outside
          have underway : Underway fs.suffix source destination memory.contents reached.contents
              children := ⟨old, neat, hollow, movable, gathered.heals, marked, merged⟩
          refine Ensures.bind (ensures_copyMarker proper old new) ?_ ?_
          · rintro _ copied (⟨_, content, stored, rfl⟩ | ⟨⟨_, ⟨⟩⟩, _⟩)
            obtain rfl : content = [] :=
              gathered.heals.hollow hollow source old _ (.inl rfl) content stored
            refine Ensures.mono (ensures_moveListed proper new underway rfl ih) ?_
            rintro result final ⟨finishes, stops⟩
            exact ⟨fun ok => ⟨movable, finishes ok⟩, fun failure failed _ => stops failure failed⟩
          · rintro failure copied (⟨⟨⟩, _⟩ | ⟨_, _, missing⟩)
            exact (missing marked).elim fun _ => False.elim
        · intro failure reached vacant
          refine ⟨nofun, fun _ _ movable => absurd (vacant.taken failure rfl) ?_⟩
          refine not_or_intro (fun present => movable.absent ?_) fun there => movable.free ?_
          · exact (Contents.mem_of_lookup_eq (gathered.heals.file whole new)).mp present
          · exact (gathered.heals.hasDirectory_iff whole).mp there
      · intro failure listed gathered
        refine ⟨nofun, fun _ _ movable roomy => roomy.not_obstructed ?_⟩
        exact gathered.stopped failure rfl movable.there

end FileSystem
end KeyTree
