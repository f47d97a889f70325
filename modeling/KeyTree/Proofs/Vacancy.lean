import KeyTree.Proofs.Removal
import KeyTree.Proofs.Room
import KeyTree.Proofs.Transparency

/-!
Deleting a directory only if it is empty. A directory is vacant if nothing is below it but its own
placeholder, and then the listing, which leaves out what has no name, shows no child. A vacant
directory loses its placeholder and its marker; any other path is refused, and at most markers are
new that the looks have put in.
-/
namespace KeyTree

open KeyTree.Path (separator)
open Program (Ensures Returns)

namespace Contents
variable {suffix : Key} {contents : Contents} {path : Path}

/-- Below the path there is nothing but its placeholder. -/
def Bare (path : Path) (contents : Contents) : Prop :=
  ∀ key ∈ contents, path ++ [separator] <+: key → key = path ++ [separator]

/-- The path is a directory with nothing below it but its placeholder. -/
def Vacant (suffix : Key) (path : Path) (contents : Contents) : Prop :=
  contents.HasDirectory suffix path ∧ contents.Bare path

instance : Decidable (contents.Bare path) :=
  decidable_of_iff (∀ key ∈ contents.keys, path ++ [separator] <+: key → key = path ++ [separator])
    (by simp only [Bare, Std.ExtTreeMap.mem_keys])

instance : Decidable (contents.Vacant suffix path) :=
  inferInstanceAs (Decidable (_ ∧ _))

/-- A listing shows no child exactly if there is nothing to show. -/
theorem bare_iff (whole : separator ∉ suffix) (given : suffix ≠ []) (neat : contents.Neat suffix)
    {children : List Entry}
    (merged : Merged children (contents.Shown suffix (path ++ [separator]) true)) :
    children = [] ↔ contents.Bare path := by
  constructor
  · rintro rfl key present below
    apply (neat.child whole present below).resolve_right
    rintro ⟨name, first, plain, kind⟩
    have shown : ∃ flag, contents.Shown suffix (path ++ [separator]) true ⟨name, flag⟩ := by
      rcases kind with rfl | rfl | inside
      · exact ⟨false, (shown_grouped_iff whole given neat plain.ne_nil).mpr
          ⟨first, plain, present⟩⟩
      · exact ⟨true, (shown_grouped_iff whole given neat plain.ne_nil).mpr
          ⟨first, plain, .inl present⟩⟩
      · exact ⟨true, (shown_grouped_iff whole given neat plain.ne_nil).mpr
          ⟨first, plain, .inr ⟨key, present, inside⟩⟩⟩
    obtain ⟨flag, member⟩ := (merged.listed name plain.ne_nil).mpr shown
    cases member
  · intro bare
    apply List.eq_nil_iff_forall_not_mem.mpr
    rintro ⟨name, flag⟩ member
    obtain ⟨named, key, present, below, shows⟩ := merged.shown_of_mem member
    rw [bare key present below, Listed.ofKey, List.drop_length] at shows
    simp only [List.not_mem_nil, decide_false, Bool.and_false, Bool.false_eq_true, if_false,
      Entry.ofListed, List.drop_length, Entry.ofObject_nil given] at shows
    exact named (Entry.mk.inj shows).1

end Contents

/-- Where nothing is below a path but its placeholder, only its own marker can be new. -/
theorem Heals.lookup_of_bare {suffix : Key} {path : Path} {before after : Contents}
    (whole : separator ∉ suffix) (heals : Heals suffix path before after)
    (bare : before.Bare path) {key : Key} (other : key ≠ path ++ suffix) :
    after[key]? = before[key]? := by
  apply (heals key).resolve_right
  rintro ⟨_, inner, _, ⟨deep, stored, below⟩, rfl, held⟩
  have within := (stem_prefix_marker whole).mp (held.resolve_left other)
  rw [bare deep stored (stem_prefix_trans within below)] at below
  have short := below.length_le
  have long := within.length_le
  rw [List.length_append, List.length_singleton] at short long
  rw [List.length_append, List.length_singleton] at short
  omega

namespace FileSystem
variable {fs : FileSystem} {memory : Memory} {path : Path}

section
variable (proper : fs.Proper) (plain : Path.Plain fs.suffix path)
  (neat : memory.contents.Neat fs.suffix)
  (clear : ¬ fs.Obstructed (fun _ => False) memory.contents path)
include proper plain neat clear

/-- A vacant directory passes for empty, and nothing else does. -/
theorem ensures_removeBelow_vacant :
    (fs.removeBelow path false).Ensures (Memory.may fun _ => False) memory fun result later =>
      Heals fs.suffix path memory.contents later.contents ∧
        (result = .ok () ∧ memory.contents.Vacant fs.suffix path ∨
          (∃ cause, result = .error (.refused cause)) ∧
            ¬ memory.contents.Vacant fs.suffix path) := by
  rw [removeBelow, requireChildren, Program.bind_eq_bind, Program.bind_eq_bind,
    Program.bind_assoc]
  refine Ensures.bind (ensures_children proper plain neat false) ?_ ?_
  · rintro (_ | children) later enumerated
    · refine ⟨enumerated.heals, .inr ⟨⟨_, rfl⟩, fun vacant => ?_⟩⟩
      exact ((enumerated.absent rfl).1 vacant.1).elim fun _ => id
    · obtain ⟨marked, merged⟩ := enumerated.listed children rfl
      have there := (enumerated.heals.hasDirectory_iff proper.suffix_whole).mp (.inl marked)
      have bare_iff := Contents.bare_iff proper.suffix_whole proper.suffix_ne_nil neat merged
      refine Ensures.bind_done ?_
      rw [if_neg Bool.false_ne_true]
      split
      · rename_i none_shown
        exact ⟨enumerated.heals, .inl ⟨rfl, there, bare_iff.mp none_shown⟩⟩
      · rename_i some_shown
        exact ⟨enumerated.heals, .inr ⟨⟨_, rfl⟩, fun vacant => some_shown (bare_iff.mpr vacant.2)⟩⟩
  · rintro failure later enumerated
    exact absurd (enumerated.stopped failure rfl) clear

/-- What is deleted of a vacant directory is all that it holds. -/
theorem ensures_removeDirectory_vacant :
    (fs.removeDirectory path false).Ensures (Memory.may fun _ => False) memory fun result later =>
      (result = .ok () ∧ memory.contents.Vacant fs.suffix path ∧
        Rewrites (fun key => key = path ++ [separator] ∨ key = path ++ fs.suffix)
          (fun _ _ => False) memory.contents later.contents) ∨
      ((∃ cause, result = .error (.refused cause)) ∧ ¬ memory.contents.Vacant fs.suffix path ∧
        Heals fs.suffix path memory.contents later.contents) := by
  refine Ensures.bind (ensures_removeBelow_vacant proper plain neat clear) ?_ ?_
  · rintro _ listed ⟨heals, ⟨_, vacant⟩ | ⟨⟨_, ⟨⟩⟩, _⟩⟩
    refine Ensures.mono (ensures_removeListed proper plain [] (by simp)) ?_
    intro result later deleted
    obtain ⟨rfl, rewrites⟩ := deleted.rewrites
    refine .inl ⟨rfl, vacant, fun _ _ => False.elim, fun key content => ?_⟩
    rw [rewrites.lookup_iff]
    simp only [Sentenced, List.not_mem_nil, false_and, exists_false, false_or]
    refine or_congr_left (and_congr_right fun kept => ?_)
    rw [heals.lookup_of_bare proper.suffix_whole vacant.2 fun same => kept (.inr same)]
  · rintro failure listed ⟨heals, ⟨⟨⟩, _⟩ | ⟨⟨cause, ⟨⟩⟩, occupied⟩⟩
    exact .inr ⟨⟨cause, rfl⟩, occupied, heals⟩

end

/-- Deleting a directory without what is below it is always answered, and with yes exactly if the
path is vacant. Then its placeholder and its marker are gone and all else is as it was. If the answer
is no, all that was there is as it was, and what is new are empty markers of directories. -/
theorem deleteDirectory_vacant_iff {pageSize : Nat} (proper : fs.Proper)
    (plain : Path.Plain fs.suffix path) (tidy : memory.contents.Tidy fs.suffix)
    (hollow : memory.contents.Hollow fs.suffix) (read : fs.settings.pageSize = .ok pageSize)
    (room : memory.contents.reach ≤ fs.limits.pages) :
    let ended := (fs.deleteDirectory path false).run Memory.serve memory
    ∃ answer, ended.result = .ok answer ∧
      (answer = true ↔ memory.contents.Vacant fs.suffix path) ∧
      (answer = true → ended.state.contents =
        (memory.contents.erase (path ++ [separator])).erase (path ++ fs.suffix)) ∧
      (answer = false →
        (∀ key ∈ memory.contents, ended.state.contents[key]? = memory.contents[key]?) ∧
        ∀ key ∈ ended.state.contents, key ∉ memory.contents →
          ended.state.contents[key]? = some [] ∧ ∃ inner, Path.Plain fs.suffix inner ∧
            memory.contents.HasDirectory fs.suffix inner ∧ key = inner ++ fs.suffix) := by
  intro ended
  have clear : ¬ fs.Obstructed (fun _ => False) memory.contents path :=
    (Roomy.of_reach read room (Nat.le_refl _)).not_obstructed
  have answers : ∃ answer, ended.result = .ok answer ∧ _ := Memory.run_of_ensures
    (Returns.succeeds (ensures_removeDirectory_vacant proper plain tidy.neat clear)
      (.directoryNotDeleted path) (by
        rintro failure later (⟨⟨⟩, _⟩ | ⟨⟨cause, ⟨⟩⟩, _⟩)
        exact ⟨cause, rfl⟩))
  obtain ⟨answer, answered, ⟨rfl, ended⟩ | ⟨rfl, _, ended⟩⟩ := answers
  · obtain ⟨_, vacant, rewrites⟩ | ⟨⟨_, ⟨⟩⟩, _⟩ := ended
    have erases := (Rewrites.erase memory.contents (path ++ [separator])).andThen
      (Rewrites.erase _ (path ++ fs.suffix)) fun _ _ => False.elim
    refine ⟨true, answered, iff_of_true rfl vacant, fun _ => ?_, nofun⟩
    exact rewrites.unique (erases.congr (fun _ => Iff.rfl) fun _ _ => iff_of_eq (or_self False))
  · obtain ⟨⟨⟩, _⟩ | ⟨_, occupied, heals⟩ := ended
    refine ⟨false, answered, iff_of_false Bool.false_ne_true occupied, nofun, fun _ => ?_⟩
    have mended := Mended.of_heals hollow heals
    refine ⟨fun key present => mended.kept present, fun key present fresh => ?_⟩
    obtain ⟨empty, inner, named, under, marker⟩ := mended.fresh present fresh
    exact ⟨empty, inner, named, .inr under, marker⟩

/-- A file and a directory of one name, beside a name that starts with it. -/
theorem deleteDirectory_vacant_iff_placeholder :
    let memory := Memory.holding
      [("a".toList, [120]), ("a/".toList, []), ("ab/y".toList, [121])]
    let ended := (usual.deleteDirectory "a".toList false).run Memory.serve memory
    memory.contents.Tidy usual.suffix ∧ memory.contents.Hollow usual.suffix ∧
      memory.contents.reach ≤ usual.limits.pages ∧
      memory.contents.Vacant usual.suffix "a".toList ∧ ended.result = .ok true ∧
      ended.state.contents = (memory.contents.erase "a/".toList).erase "a_$folder$".toList := by
  intro memory ended
  have tidy : memory.contents.Tidy usual.suffix := by decide +kernel
  have hollow : memory.contents.Hollow usual.suffix := by decide +kernel
  have room : memory.contents.reach ≤ usual.limits.pages := by decide +kernel
  have vacant : memory.contents.Vacant usual.suffix "a".toList := by decide +kernel
  have plain : Path.Plain usual.suffix "a".toList := by decide
  obtain ⟨answer, answered, vacant_iff, emptied, _⟩ := deleteDirectory_vacant_iff usual_proper
    plain tidy hollow (Settings.pageSize_integer rfl) room
  obtain rfl := vacant_iff.mpr vacant
  exact ⟨tidy, hollow, room, vacant, answered, emptied rfl⟩

end FileSystem
end KeyTree
