import KeyTree.Proofs.Concert
import KeyTree.Proofs.Furnishing

/-!
Questions that no question disturbs. Whoever asks about a path may leave markers behind, but
only those of directories that were shown by keys below them (`Mended`). What is answered can
be read off the contents (`Replies`), and such markers make no difference to it: they stand
below nothing that had no key below it, and they show nothing that was not shown.
-/
namespace KeyTree

open KeyTree.Path (separator)
open Program (Ensures Returns)

/-- The operation only asks; a listing of all descendants is left out, as it tells markers. -/
def Operation.asks : Operation → Bool
  | .isDirectory _ | .isFile _ | .parentExists _ | .size _ => true
  | .children _ recursive => !recursive
  | _ => false

/-- Every key that is new is the empty marker of a path with keys below it. -/
def Mended (suffix : Key) (before after : Contents) : Prop :=
  ∀ key, after[key]? = before[key]? ∨ key ∉ before ∧ after[key]? = some [] ∧
    ∃ path, Path.Plain suffix path ∧ before.Under path ∧ key = path ++ suffix

namespace Mended
variable {suffix stem : Key} {before middle after : Contents} {path : Path}

theorem refl (contents : Contents) : Mended suffix contents contents := fun _ => .inl rfl

theorem of_gains {region : Path → Prop} (gains : Gains suffix region before after)
    (seen : ∀ path, region path → Path.Plain suffix path ∧ before.HasDirectory suffix path) :
    Mended suffix before after := by
  intro key
  apply (gains.bound key).imp_right
  rintro ⟨fresh, absent, path, here, rfl⟩
  obtain ⟨plain, there⟩ := seen path here
  exact ⟨absent, fresh, path, plain, there.resolve_left absent, rfl⟩

/-- Where markers are empty, those that are put in once more make no difference. -/
theorem of_bound (hollow : before.Hollow suffix)
    (bound : ∀ key, after[key]? = before[key]? ∨ after[key]? = some [] ∧
      ∃ path, Path.Plain suffix path ∧ before.Under path ∧ key = path ++ suffix) :
    Mended suffix before after := by
  intro key
  rcases bound key with same | ⟨fresh, path, plain, under, marker⟩
  · exact .inl same
  · by_cases present : key ∈ before
    · obtain ⟨content, stored⟩ := Contents.mem_iff_lookup.mp present
      have empty := hollow path plain key (.inl marker) content stored
      exact .inl (by rw [fresh, stored, empty])
    · exact .inr ⟨present, fresh, path, plain, under, marker⟩

theorem of_strewn {grouped : Bool} (hollow : before.Hollow suffix)
    (strewn : Strewn (before.Inferred suffix stem grouped) before after) :
    Mended suffix before after :=
  of_bound hollow fun key => (strewn key).imp_right fun ⟨fresh, inferred⟩ =>
    ⟨fresh, inferred.imp fun _ ⟨plain, under, marker, _⟩ => ⟨plain, under, marker⟩⟩

theorem of_heals {place : Path} (hollow : before.Hollow suffix)
    (heals : Heals suffix place before after) : Mended suffix before after :=
  of_bound hollow fun key => (heals key).imp_right fun ⟨fresh, healed⟩ =>
    ⟨fresh, healed.imp fun _ ⟨plain, under, marker, _⟩ => ⟨plain, under, marker⟩⟩

variable (mended : Mended suffix before after)
include mended

theorem kept {key : Key} (present : key ∈ before) : after[key]? = before[key]? :=
  (mended key).resolve_right fun new => new.1 present

theorem mem {key : Key} (present : key ∈ before) : key ∈ after :=
  (Contents.mem_of_lookup_eq (mended.kept present)).mpr present

/-- No other key is new. -/
theorem fresh {key : Key} (present : key ∈ after) (absent : key ∉ before) :
    after[key]? = some [] ∧
      ∃ path, Path.Plain suffix path ∧ before.Under path ∧ key = path ++ suffix := by
  rcases mended key with same | ⟨_, marker⟩
  · exact absurd ((Contents.mem_of_lookup_eq same).mp present) absent
  · exact marker

theorem neat (neat : before.Neat suffix) : after.Neat suffix := by
  intro key present given
  by_cases old : key ∈ before
  · exact neat key old given
  · obtain ⟨_, path, plain, _, marker⟩ := mended.fresh present old
    exact ⟨path, plain, .inr (.inl marker)⟩

theorem hollow (hollow : before.Hollow suffix) : after.Hollow suffix := by
  intro path plain key kind content stored
  rcases mended key with same | ⟨_, fresh, _⟩
  · exact hollow path plain key kind content (same ▸ stored)
  · rw [fresh, Option.some.injEq] at stored
    exact stored.symm

/-- A key that no marker can be keeps what it holds. -/
theorem lookup {key : Key} (other : ∀ path, Path.Plain suffix path → key ≠ path ++ suffix) :
    after[key]? = before[key]? := by
  rcases mended key with same | ⟨_, _, path, plain, _, marker⟩
  · exact same
  · exact absurd marker (other path plain)

variable (whole : separator ∉ suffix)
include whole

theorem under_iff : after.Under path ↔ before.Under path := by
  constructor
  · rintro ⟨key, present, below⟩
    by_cases old : key ∈ before
    · exact ⟨key, old, below⟩
    · obtain ⟨_, inner, _, ⟨deep, stored, within⟩, rfl⟩ := mended.fresh present old
      exact ⟨deep, stored, stem_prefix_trans ((stem_prefix_marker whole).mp below) within⟩
  · rintro ⟨key, present, below⟩
    exact ⟨key, mended.mem present, below⟩

theorem hasDirectory_iff : after.HasDirectory suffix path ↔ before.HasDirectory suffix path := by
  rw [Contents.HasDirectory, Contents.HasDirectory, mended.under_iff whole]
  constructor
  · intro there
    by_cases old : path ++ suffix ∈ before
    · exact .inl old
    · apply there.elim _ .inr
      intro marked
      obtain ⟨_, other, _, under, same⟩ := mended.fresh marked old
      exact .inr (List.append_cancel_right same ▸ under)
  · exact fun there => there.imp_left mended.mem

theorem trans (next : Mended suffix after middle) : Mended suffix before middle := by
  intro key
  rcases next key with same | ⟨absent, fresh, path, plain, under, marker⟩
  · rw [same]
    exact mended key
  · exact .inr ⟨fun old => absent (mended.mem old), fresh, path, plain,
      (mended.under_iff whole).mp under, marker⟩

theorem potential {key : Key} (potential : after.Potential suffix key) :
    before.Potential suffix key := by
  rcases potential with present | ⟨path, plain, under, marker⟩
  · by_cases old : key ∈ before
    · exact .inl old
    · exact .inr (mended.fresh present old).2
  · exact .inr ⟨path, plain, (mended.under_iff whole).mp under, marker⟩

/-- A listing of children shows what it showed before. -/
theorem shown_iff (given : suffix ≠ []) (at_stem : Path.Stem suffix stem)
    (neat : before.Neat suffix) {entry : Entry} :
    after.Shown suffix stem true entry ↔ before.Shown suffix stem true entry := by
  constructor
  · rintro ⟨key, present, below, rfl⟩
    by_cases old : key ∈ before
    · exact ⟨key, old, below, rfl⟩
    · obtain ⟨_, path, plain, under, rfl⟩ := mended.fresh present old
      rcases (mended.neat neat).ofKey_cases whole at_stem present below with
        ⟨object, kind⟩ | ⟨name, first, _, inside, group⟩
      · obtain ⟨name, first, rfl⟩ : ∃ name, separator ∉ name ∧ path = stem ++ name := by
          rcases kind with same | ⟨name, first, named, same | same⟩
          · rcases at_stem with rfl | ⟨outer, _, rfl⟩
            · exact absurd (List.append_eq_nil_iff.mp same).2 given
            · exact absurd same (marker_ne_stem whole given path outer)
          · exact absurd same (marker_ne whole (at_stem.append_plain named) path)
          · exact ⟨name, first, List.append_cancel_right same⟩
        rw [object, Entry.ofListed_marker given]
        exact Contents.shown_of_under first under
      · obtain ⟨deep, stored, within⟩ := under
        have deeper := stem_prefix_trans ((stem_prefix_marker whole).mp inside) within
        rw [group, Entry.ofListed_cut _ _ first]
        exact Contents.shown_of_under first ⟨deep, stored, deeper⟩
  · rintro ⟨key, present, shows⟩
    exact ⟨key, mended.mem present, shows⟩

end Mended

namespace FileSystem
variable {fs : FileSystem} {contents before after : Contents} {memory : Memory} {path : Path}

/-- What a question is answered for these contents. -/
inductive Replies (fs : FileSystem) (contents : Contents) :
    Operation → Except Failure Outcome → Prop
  | isDirectory {path : Path} {found : Bool} (tells : found = true ↔ fs.Holds contents path) :
    Replies fs contents (.isDirectory path) (.ok (.truth found))
  | isFile {path : Path} {found : Bool}
    (tells : found = true ↔ fs.root.relative path ∈ contents) :
    Replies fs contents (.isFile path) (.ok (.truth found))
  | parentExists {path : Path} {found : Bool} (tells : found = true ↔
      ∀ parent, fs.root.parent? path = some parent → fs.Holds contents parent) :
    Replies fs contents (.parentExists path) (.ok (.truth found))
  | nowhere {path : Path} (missing : ¬ fs.Holds contents path) :
    Replies fs contents (.children path false) (.ok (.entries none))
  | unreadable {path : Path} {defect : Defect} (there : fs.Holds contents path)
    (read : fs.settings.pageSize = .error defect) :
    Replies fs contents (.children path false) (.error (.defect defect))
  | children {path : Path} {pageSize : Nat} {listed : List Entry}
    (there : fs.Holds contents path) (read : fs.settings.pageSize = .ok pageSize)
    (merged : Merged listed (contents.Shown fs.suffix (fs.root.stem path) true)) :
    Replies fs contents (.children path false) (.ok (.entries (some listed)))
  | size {path : Path} {content : Content}
    (stored : contents[fs.root.relative path]? = some content) :
    Replies fs contents (.size path) (.ok (.number content.length))
  | unknown {path : Path} (absent : contents[fs.root.relative path]? = none) :
    Replies fs contents (.size path) (.error (.refused (.unknownPath path)))

/-- The same answer, but for the order of the entries, or the same failure. -/
def SameReply : Except Failure Outcome → Except Failure Outcome → Prop
  | .ok one, .ok other => one.Same other
  | one, other => one = other

/-- The contents leave one answer to each question. -/
theorem Replies.unique {query : Operation} {one other : Except Failure Outcome}
    (first : fs.Replies contents query one) (second : fs.Replies contents query other) :
    SameReply one other := by
  have truths : ∀ {found known : Bool} {condition : Prop}, (found = true ↔ condition) →
      (known = true ↔ condition) → Outcome.truth found = .truth known := by
    intro found known condition here there
    rw [Bool.eq_iff_iff.mpr (here.trans there.symm)]
  cases first with
  | isDirectory tells | isFile tells | parentExists tells =>
    cases second with
    | _ also => exact truths tells also
  | nowhere missing =>
    cases second with
    | nowhere _ => exact trivial
    | unreadable there _ => exact absurd there missing
    | children there _ _ => exact absurd there missing
  | unreadable there read =>
    cases second with
    | nowhere missing => exact absurd there missing
    | unreadable _ also =>
      cases read.symm.trans also
      rfl
    | children _ also _ => cases read.symm.trans also
  | children there read merged =>
    cases second with
    | nowhere missing => exact absurd there missing
    | unreadable _ also => cases read.symm.trans also
    | children _ _ also => exact fun _ => merged.mem_iff also
  | size stored =>
    cases second with
    | size also =>
      cases stored.symm.trans also
      rfl
    | unknown absent => cases stored.symm.trans absent
  | unknown absent =>
    cases second with
    | size stored => cases stored.symm.trans absent
    | unknown _ => rfl

/-- The limits leave room for every listing of what is there or could be marked. -/
def Spacious (fs : FileSystem) (contents : Contents) : Prop :=
  ∃ keys : List Key, keys.length < fs.limits.pages ∧
    ∀ key, contents.Potential fs.suffix key → key ∈ keys

theorem Spacious.of_reach (room : contents.reach ≤ fs.limits.pages) : fs.Spacious contents :=
  ⟨contents.candidates fs.suffix,
    Nat.lt_of_lt_of_le (Contents.length_candidates_lt fs.suffix contents) room,
    fun _ potential => potential.mem_candidates⟩

section proper
variable (proper : fs.Proper)
include proper

theorem Place.parent {parent : Path} (place : fs.Place path)
    (up : fs.root.parent? path = some parent) : Path.Plain fs.suffix parent := by
  cases place with
  | inl plain =>
    rcases plain.cut_last with single | ⟨outer, name, first, above, rfl⟩
    · rw [parent?_name proper plain single] at up
      cases up
    · rw [parent?_below proper plain first, Option.some.injEq] at up
      exact up ▸ above
  | inr root =>
    rw [Root.parent?, if_pos root] at up
    cases up

section mended
variable (mended : Mended fs.suffix before after)
include mended

theorem holds_mended_iff : fs.Holds after path ↔ fs.Holds before path :=
  or_congr_right (mended.hasDirectory_iff proper.suffix_whole)

theorem lookup_mended (place : fs.Place path) :
    after[fs.root.relative path]? = before[fs.root.relative path]? := by
  apply mended.lookup
  intro other _ same
  cases place with
  | inl plain =>
    rw [proper.relative_plain plain] at same
    exact marker_ne proper.suffix_whole plain other same.symm
  | inr root =>
    rw [of_decide_eq_true root] at same
    exact proper.suffix_ne_nil (List.append_eq_nil_iff.mp same.symm).2

/-- A marker that was put in for a directory with keys below it changes no answer. -/
theorem Replies.of_mended {query : Operation} {result : Except Failure Outcome}
    (placed : ∀ path ∈ query.paths, fs.Place path) (neat : before.Neat fs.suffix)
    (replies : fs.Replies after query result) : fs.Replies before query result := by
  have holds : ∀ {path}, fs.Holds after path ↔ fs.Holds before path :=
    holds_mended_iff proper mended
  have same : ∀ {path}, path ∈ query.paths →
      after[fs.root.relative path]? = before[fs.root.relative path]? :=
    fun member => lookup_mended proper mended (placed _ member)
  cases replies with
  | isDirectory tells => exact .isDirectory (tells.trans holds)
  | isFile tells => exact .isFile (tells.trans (Contents.mem_of_lookup_eq (same (.head _))))
  | parentExists tells =>
    exact .parentExists (tells.trans (forall_congr' fun _ => imp_congr_right fun _ => holds))
  | nowhere missing => exact .nowhere (holds.not.mp missing)
  | unreadable there read => exact .unreadable (holds.mp there) read
  | children there read merged =>
    refine .children (holds.mp there) read (merged.congr fun entry _ => ?_)
    have at_stem := (placed _ (.head _)).stem proper
    rw [mended.shown_iff proper.suffix_whole proper.suffix_ne_nil at_stem neat]
  | size stored => exact .size ((same (.head _)).symm.trans stored)
  | unknown absent => exact .unknown ((same (.head _)).symm.trans absent)

theorem Spacious.still (spacious : fs.Spacious before) : fs.Spacious after := by
  obtain ⟨keys, room, covers⟩ := spacious
  exact ⟨keys, room, fun key potential =>
    covers key (mended.potential proper.suffix_whole potential)⟩

end mended

theorem returns_isDirectory_mended (place : fs.Place path) :
    (fs.isDirectory path).Returns (Memory.may fun _ => False) memory fun found later =>
      (found = true ↔ fs.Holds memory.contents path) ∧
        Mended fs.suffix memory.contents later.contents := by
  cases place with
  | inl plain =>
    apply Returns.mono (returns_isDirectory_gains proper plain)
    have holds : fs.Holds memory.contents path ↔ memory.contents.HasDirectory fs.suffix path :=
      or_iff_right (by simp [proper.isRoot_plain plain])
    rintro found later (⟨rfl, there, gains⟩ | ⟨rfl, missing, rfl⟩)
    · refine ⟨iff_of_true rfl (holds.mpr there), .of_gains gains ?_⟩
      rintro _ rfl
      exact ⟨plain, there⟩
    · exact ⟨iff_of_false Bool.false_ne_true (holds.not.mpr missing), .refl _⟩
  | inr root =>
    rw [isDirectory_root root]
    exact ⟨true, rfl, iff_of_true rfl (.inl root), .refl _⟩

theorem returns_parentExists_mended (place : fs.Place path) :
    (fs.parentExists path).Returns (Memory.may fun _ => False) memory fun found later =>
      (found = true ↔ ∀ parent, fs.root.parent? path = some parent →
        fs.Holds memory.contents parent) ∧ Mended fs.suffix memory.contents later.contents := by
  rw [parentExists]
  cases up : fs.root.parent? path with
  | none => exact ⟨true, rfl, by simp, .refl _⟩
  | some parent =>
    apply Returns.mono (returns_isDirectory_mended proper (.inl (place.parent proper up)))
    rintro found later ⟨tells, mended⟩
    exact ⟨by simp [tells], mended⟩

/-- Where the page size cannot be read, only a directory is refused. -/
theorem ensures_children_unreadable {defect : Defect}
    (read : fs.settings.pageSize = .error defect) (place : fs.Place path) (recursive : Bool) :
    (fs.children path recursive).Ensures (Memory.may fun _ => False) memory fun result later =>
      Mended fs.suffix memory.contents later.contents ∧
        (result = .ok none ∧ ¬ fs.Holds memory.contents path ∨
          result = .error (.defect defect) ∧ fs.Holds memory.contents path) := by
  apply Returns.bind (returns_isDirectory_mended proper place)
  rintro found later ⟨tells, mended⟩
  cases found with
  | false => exact ⟨mended, .inl ⟨rfl, by simp [← tells]⟩⟩
  | true =>
    dsimp only
    rw [if_pos rfl, read]
    exact ⟨mended, .inr ⟨rfl, tells.mp rfl⟩⟩

omit proper in
theorem ensures_requireStatus (path : Path) :
    (fs.requireStatus path).Ensures (Memory.may fun _ => False) memory fun result later =>
      later = memory ∧
        (∀ status, result = .ok status →
          memory.status (fs.root.relative path) = some status) ∧
        ∀ failure, result = .error failure → failure = .refused (.unknownPath path) ∧
          memory.status (fs.root.relative path) = none := by
  apply Returns.bind (Memory.returns_status _ memory _)
  rintro status later ⟨rfl, rfl | ⟨⟨⟩, _⟩⟩
  cases found : later.status (fs.root.relative path) with
  | none =>
    refine ⟨rfl, ?_, fun failure same => ⟨(Except.error.inj same).symm, rfl⟩⟩
    rintro status ⟨⟩
  | some status =>
    refine ⟨rfl, fun known same => congrArg some (Except.ok.inj same), ?_⟩
    rintro failure ⟨⟩

omit proper in
theorem ensures_size (path : Path) :
    (fs.size path).Ensures (Memory.may fun _ => False) memory fun result later =>
      later = memory ∧ fs.Replies memory.contents (.size path) (result.map .number) := by
  apply Ensures.bind (ensures_requireStatus path)
  · rintro status later ⟨rfl, found, _⟩
    obtain ⟨content, stored, rfl⟩ := Option.map_eq_some_iff.mp (found status rfl)
    exact ⟨rfl, .size stored⟩
  · rintro failure later ⟨rfl, _, missed⟩
    obtain ⟨rfl, absent⟩ := missed failure rfl
    exact ⟨rfl, .unknown (Option.map_eq_none_iff.mp absent)⟩

/-- A question is answered for the contents that it meets, and mends them at most. -/
theorem ensures_ask {query : Operation} (asks : query.asks = true)
    (placed : ∀ path ∈ query.paths, fs.Place path) (orderly : memory.contents.Orderly fs.suffix)
    (spacious : fs.Spacious memory.contents) :
    (fs.perform query).Ensures (Memory.may fun _ => False) memory fun result later =>
      fs.Replies memory.contents query result ∧
        Mended fs.suffix memory.contents later.contents := by
  cases query with
  | isDirectory path =>
    apply Returns.bind (returns_isDirectory_mended proper (placed path (.head _)))
    rintro found later ⟨tells, mended⟩
    exact ⟨.isDirectory tells, mended⟩
  | isFile path =>
    apply Returns.bind (returns_isFile_exact fs memory path)
    rintro found later ⟨tells, rfl⟩
    exact ⟨.isFile tells, .refl _⟩
  | parentExists path =>
    apply Returns.bind (returns_parentExists_mended proper (placed path (.head _)))
    rintro found later ⟨tells, mended⟩
    exact ⟨.parentExists tells, mended⟩
  | children path recursive =>
    obtain rfl : recursive = false := by simpa [Operation.asks] using asks
    have place := placed path (.head _)
    cases read : fs.settings.pageSize with
    | ok pageSize =>
      obtain ⟨keys, room, covers⟩ := spacious
      have listable : fs.Listable (fs.root.stem path) memory.contents :=
        ⟨⟨pageSize, read⟩, keys, room, fun key _ => covers key⟩
      apply Returns.bind (returns_children_catalogued proper place orderly.neat orderly.hollow
        listable false)
      intro listed later catalogued
      cases listed with
      | none => exact ⟨.nowhere catalogued.1, catalogued.2 ▸ .refl _⟩
      | some children =>
        obtain ⟨there, merged, blanks⟩ := catalogued
        exact ⟨.children there read merged, .of_strewn orderly.hollow blanks.bound⟩
    | error defect =>
      apply Ensures.bind (ensures_children_unreadable proper read place false)
      · rintro listed later ⟨mended, ⟨⟨⟩, missing⟩ | ⟨⟨⟩, _⟩⟩
        exact ⟨.nowhere missing, mended⟩
      · rintro failure later ⟨mended, ⟨⟨⟩, _⟩ | ⟨⟨⟩, there⟩⟩
        exact ⟨.unreadable there read, mended⟩
  | size path =>
    apply Ensures.bind (ensures_size path)
    · rintro size later ⟨rfl, replies⟩
      exact ⟨replies, .refl _⟩
    · rintro failure later ⟨rfl, replies⟩
      exact ⟨replies, .refl _⟩
  | _ => cases asks

/-- Each question of a sequence mends what the ones before it have left. -/
theorem reached_mended {queries : List Operation}
    (asks : ∀ query ∈ queries, query.asks = true ∧ ∀ path ∈ query.paths, fs.Place path)
    (orderly : memory.contents.Orderly fs.suffix) (spacious : fs.Spacious memory.contents) :
    Mended fs.suffix memory.contents (fs.reached queries memory).contents := by
  induction queries generalizing memory with
  | nil => exact .refl _
  | cons query later ih =>
    obtain ⟨⟨asked, placed⟩, others⟩ := List.forall_mem_cons.mp asks
    obtain ⟨_, mended⟩ := Memory.run_of_ensures (ensures_ask proper asked placed orderly spacious)
    rw [reached_cons]
    exact mended.trans proper.suffix_whole (ih others
      ⟨mended.neat orderly.neat, mended.hollow orderly.hollow⟩ (spacious.still proper mended))

end proper

/-- Questions are transparent to questions: whatever was asked before, of tidy contents with
empty markers and placeholders, every question is answered as it would have been at first. The
limits only say how far a listing is followed. -/
theorem questions_transparent (proper : fs.Proper) (tidy : memory.contents.Tidy fs.suffix)
    (hollow : memory.contents.Hollow fs.suffix) (room : memory.contents.reach ≤ fs.limits.pages)
    {queries : List Operation}
    (asks : ∀ query ∈ queries, query.asks = true ∧ ∀ path ∈ query.paths, fs.Place path) :
    let later := fs.reached queries memory
    Mended fs.suffix memory.contents later.contents ∧
      ∀ query : Operation, query.asks = true → (∀ path ∈ query.paths, fs.Place path) →
        SameReply ((fs.perform query).run Memory.serve later).result
          ((fs.perform query).run Memory.serve memory).result := by
  intro later
  have orderly : memory.contents.Orderly fs.suffix := ⟨tidy.neat, hollow⟩
  have spacious : fs.Spacious memory.contents := .of_reach room
  have mended : Mended fs.suffix memory.contents later.contents :=
    reached_mended proper asks orderly spacious
  refine ⟨mended, fun query asked placed => ?_⟩
  have still : later.contents.Orderly fs.suffix :=
    ⟨mended.neat orderly.neat, mended.hollow orderly.hollow⟩
  obtain ⟨here, _⟩ := Memory.run_of_ensures
    (ensures_ask proper asked placed still (spacious.still proper mended))
  obtain ⟨there, _⟩ := Memory.run_of_ensures
    (ensures_ask proper asked placed orderly spacious)
  exact (here.of_mended proper mended placed orderly.neat).unique there

theorem questions_transparent_nested :
    let memory := Memory.holding [("a/b/c".toList, [1]), ("a/d_$folder$".toList, [])]
    let queries : List Operation := [.children "mem://bucket".toList false,
      .isDirectory "a/b".toList, .size "a/b/c".toList]
    memory.contents.Tidy usual.suffix ∧ memory.contents.Hollow usual.suffix ∧
    memory.contents.reach ≤ usual.limits.pages ∧
    (∀ query ∈ queries, query.asks = true ∧ ∀ path ∈ query.paths, usual.Place path) ∧
    let later := usual.reached queries memory
    Mended usual.suffix memory.contents later.contents ∧
      ∀ query : Operation, query.asks = true → (∀ path ∈ query.paths, usual.Place path) →
        SameReply ((usual.perform query).run Memory.serve later).result
          ((usual.perform query).run Memory.serve memory).result := by
  intro memory queries
  have tidy : memory.contents.Tidy usual.suffix := by decide +kernel
  have hollow : memory.contents.Hollow usual.suffix := by decide +kernel
  have room : memory.contents.reach ≤ usual.limits.pages := by decide +kernel
  have asks : ∀ query ∈ queries, query.asks = true ∧ ∀ path ∈ query.paths, usual.Place path := by
    unfold Place
    decide +kernel
  exact ⟨tidy, hollow, room, asks, questions_transparent usual_proper tidy hollow room asks⟩

end FileSystem
end KeyTree
