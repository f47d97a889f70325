import KeyTree.Proofs.Furnishing
import KeyTree.Proofs.Sequence

/-!
Making directories in any order. What making a path does to the contents can be told from the
contents before all of it: making another path first changes neither whether a file is in the
way nor, but for what it puts in itself, which markers are put in (`lays_iff`). So after a
sequence the markers of all its paths are there, in whatever order they came.
-/
namespace KeyTree

open Program (Ensures Returns)

section after_one
variable {suffix : Key} {first second path : Path} {before after : Contents}
  (whole : Path.separator ∉ suffix)
  (made : Gains suffix (before.Lays suffix first) before after)
include whole made

/-- New directories are those of a path that could be made. -/
theorem hasDirectory_made_iff : after.HasDirectory suffix path ↔
    before.HasDirectory suffix path ∨ before.Clear suffix first.UpTo ∧ first.UpTo path := by
  rw [made.hasDirectory_iff whole]
  constructor
  · rintro (there | ⟨inner, ⟨owed, _⟩, upTo⟩)
    · exact .inl there
    · rcases owed with ⟨member, _, clear⟩ | innermost
      · exact .inr ⟨clear, member.trans upTo⟩
      · exact .inl (innermost.there.upTo upTo)
  · rintro (there | ⟨clear, upTo⟩)
    · exact .inl there
    · by_cases there : before.HasDirectory suffix path
      · exact .inl there
      · exact .inr ⟨path, ⟨.inl ⟨upTo, there, clear⟩, clear first (.inl rfl)⟩, .inl rfl⟩

/-- No file is made a directory. -/
theorem blocked_made_iff (plain : Path.Plain suffix path) :
    (path ∈ after → after.HasDirectory suffix path) ↔
      (path ∈ before → before.HasDirectory suffix path) := by
  rw [made.file_iff whole plain]
  apply imp_congr_right
  intro present
  rw [hasDirectory_made_iff whole made]
  exact or_iff_left_of_imp fun ⟨clear, upTo⟩ => clear path upTo present

theorem clear_made_iff (plain : Path.Plain suffix second) :
    after.Clear suffix second.UpTo ↔ before.Clear suffix second.UpTo :=
  forall_congr' fun _ => imp_congr_right fun upTo => blocked_made_iff whole made (plain.upTo upTo)

/-- The innermost directory up to a path is the one that was before, unless the path that was
made leads further in. -/
theorem innermost_of_made (other : Path) : after.Innermost suffix second.UpTo other →
    before.Lays suffix first other ∨ before.Innermost suffix second.UpTo other := by
  intro innermost
  by_cases there : before.HasDirectory suffix other
  · refine .inr ⟨innermost.member, there, fun inner upTo found => innermost.last inner upTo ?_⟩
    exact (hasDirectory_made_iff whole made).mpr (.inl found)
  · obtain ⟨clear, upTo⟩ :=
      ((hasDirectory_made_iff whole made).mp innermost.there).resolve_left there
    exact .inl ⟨.inl ⟨upTo, there, clear⟩, clear first (.inl rfl)⟩

theorem innermost_made (other : Path) (innermost : before.Innermost suffix second.UpTo other) :
    before.Lays suffix first other ∨ after.Innermost suffix second.UpTo other := by
  by_cases last : ∀ inner, second.UpTo inner → after.HasDirectory suffix inner →
      ¬ inner.Above other
  · have there := (hasDirectory_made_iff whole made).mpr (.inl innermost.there)
    exact .inr ⟨innermost.member, there, last⟩
  · simp only [not_forall, not_not] at last
    obtain ⟨inner, within, found, above⟩ := last
    have fresh : ¬ before.HasDirectory suffix inner :=
      fun old => innermost.last inner within old above
    obtain ⟨clear, upTo⟩ := ((hasDirectory_made_iff whole made).mp found).resolve_left fresh
    refine .inl ⟨.inr ⟨upTo.trans (.inr above), innermost.there, ?_⟩, clear first (.inl rfl)⟩
    intro lower member old below
    -- Both are up to the first path; the directory cannot be below the one that is missing.
    rcases upTo.linear member with higher | deeper
    · exact innermost.last lower (within.trans higher) old below
    · exact fresh (old.above deeper)

/-- Which markers two paths call for does not depend on the one being made before the other. -/
theorem lays_iff (plain : Path.Plain suffix second) (other : Path) :
    before.Lays suffix first other ∨ after.Lays suffix second other ↔
      before.Lays suffix first other ∨ before.Lays suffix second other := by
  have blocked := blocked_made_iff whole made plain
  have clear := clear_made_iff whole made plain
  constructor
  · rintro (laid | ⟨⟨upTo, missing, cleared⟩ | innermost, free⟩)
    · exact .inl laid
    · have fresh : ¬ before.HasDirectory suffix other :=
        fun there => missing ((hasDirectory_made_iff whole made).mpr (.inl there))
      exact .inr ⟨.inl ⟨upTo, fresh, clear.mp cleared⟩, blocked.mp free⟩
    · exact (innermost_of_made whole made other innermost).imp_right
        fun here => ⟨.inr here, blocked.mp free⟩
  · rintro (laid | ⟨⟨upTo, missing, cleared⟩ | innermost, free⟩)
    · exact .inl laid
    · by_cases there : after.HasDirectory suffix other
      · obtain ⟨first_clear, within⟩ :=
          ((hasDirectory_made_iff whole made).mp there).resolve_left missing
        exact .inl ⟨.inl ⟨within, missing, first_clear⟩, first_clear first (.inl rfl)⟩
      · exact .inr ⟨.inl ⟨upTo, there, clear.mpr cleared⟩, blocked.mpr free⟩
    · exact (innermost_made whole made other innermost).imp_right
        fun here => ⟨.inr here, blocked.mpr free⟩

end after_one

namespace FileSystem
variable {fs : FileSystem} {memory : Memory} {paths : List Path}

theorem returns_makeDirectories_told (proper : fs.Proper) {path : Path}
    (plain : Path.Plain fs.suffix path) :
    (fs.makeDirectories path true).Returns (Memory.may fun _ => False) memory fun made later =>
      (made = true ↔ memory.contents.Clear fs.suffix path.UpTo) ∧
        Gains fs.suffix (memory.contents.Lays fs.suffix path) memory.contents later.contents :=
  Returns.succeeds_tells (ensures_makeDirectory_told proper plain) _

/-- A sequence of paths to be made answers for each what it would answer at the beginning, and
puts in what each would put in then. -/
theorem returns_makeAll (proper : fs.Proper) (plain : ∀ path ∈ paths, Path.Plain fs.suffix path)
    {made : Path → Bool}
    (told : ∀ path ∈ paths, made path = true ↔ memory.contents.Clear fs.suffix path.UpTo) :
    (fs.performAll (paths.map (.makeDirectories · true))).Returns (Memory.may fun _ => False)
      memory fun answers later =>
        answers = paths.map (fun path => .ok (.truth (made path))) ∧
        Gains fs.suffix (fun other => ∃ path ∈ paths, memory.contents.Lays fs.suffix path other)
          memory.contents later.contents := by
  have whole := proper.suffix_whole
  induction paths generalizing memory with
  | nil => exact ⟨[], rfl, rfl, .refl fun _ ⟨_, member, _⟩ => absurd member List.not_mem_nil⟩
  | cons path later ih =>
    obtain ⟨here, others⟩ := List.forall_mem_cons.mp plain
    obtain ⟨answer, answers⟩ := List.forall_mem_cons.mp told
    have step : (fs.perform (.makeDirectories path true)).Returns (Memory.may fun _ => False)
        memory fun outcome next => outcome = .truth (made path) ∧
          Gains fs.suffix (memory.contents.Lays fs.suffix path) memory.contents next.contents := by
      apply Returns.bind (returns_makeDirectories_told proper here)
      rintro found next ⟨exactly, gains⟩
      refine ⟨_, rfl, congrArg Outcome.truth ?_, gains⟩
      rw [Bool.eq_iff_iff, exactly, answer]
    apply Ensures.bind step.outcome
    · rintro inner next ⟨_, ⟨⟩, outcome, rfl, rfl, gains⟩
      have still : ∀ path ∈ later, made path = true ↔ next.contents.Clear fs.suffix path.UpTo :=
        fun path member =>
          (answers path member).trans (clear_made_iff whole gains (others path member)).symm
      apply Returns.bind (ih others still)
      rintro rest final ⟨rfl, more⟩
      refine ⟨_, rfl, rfl, (gains.trans more).congr fun other => ?_⟩
      rw [List.exists_mem_cons_iff]
      constructor
      · rintro (laid | ⟨path, member, laid⟩)
        · exact .inl laid
        · exact ((lays_iff whole gains (others path member) other).mp (.inr laid)).imp_right
            fun laid => ⟨path, member, laid⟩
      · rintro (laid | ⟨path, member, laid⟩)
        · exact .inl laid
        · exact ((lays_iff whole gains (others path member) other).mpr (.inr laid)).imp_right
            fun laid => ⟨path, member, laid⟩
    · rintro failure next ⟨_, ⟨⟩, _⟩

/-- Directories can be made in any order: each path gets the same answer, and the same objects
are there in the end. -/
theorem makeDirectories_commute (proper : fs.Proper)
    (plain : ∀ path ∈ paths, Path.Plain fs.suffix path) :
    ∃ (made : Path → Bool) (final : Contents), ∀ order : List Path, order.Perm paths →
      let ended := (fs.performAll (order.map (.makeDirectories · true))).run Memory.serve memory
      ended.result = .ok (order.map fun path => .ok (.truth (made path))) ∧
        ended.state.contents = final := by
  classical
  let made : Path → Bool := fun path => decide (memory.contents.Clear fs.suffix path.UpTo)
  have reaches : ∀ order : List Path, order.Perm paths →
      let ended := (fs.performAll (order.map (.makeDirectories · true))).run Memory.serve memory
      ended.result = .ok (order.map fun path => .ok (.truth (made path))) ∧
        Gains fs.suffix (fun other => ∃ path ∈ paths, memory.contents.Lays fs.suffix path other)
          memory.contents ended.state.contents := by
    intro order same
    have told : ∀ path ∈ order, made path = true ↔
        memory.contents.Clear fs.suffix path.UpTo := fun _ _ => decide_eq_true_iff
    obtain ⟨answers, ended, rfl, gains⟩ := Memory.run_of_ensures
      (returns_makeAll proper (fun path member => plain path (same.mem_iff.mp member)) told)
    refine ⟨ended, gains.congr fun other => ?_⟩
    simp only [same.mem_iff]
  refine ⟨made, (fs.reached (paths.map (.makeDirectories · true)) memory).contents,
    fun order same => ?_⟩
  obtain ⟨answered, gains⟩ := reaches order same
  exact ⟨answered, gains.unique (reaches paths (.refl _)).2⟩

theorem makeDirectories_commute_beside_file :
    (∀ path ∈ ["a/y/z".toList, "b/c".toList, "a".toList],
      Path.Plain FileSystem.usual.suffix path) ∧
    ∃ (made : Path → Bool) (final : Contents), ∀ order : List Path,
      order.Perm ["a/y/z".toList, "b/c".toList, "a".toList] →
      let ended := (FileSystem.usual.performAll (order.map (.makeDirectories · true))).run
        Memory.serve (.holding [("a/x".toList, [1]), ("b".toList, [2])])
      ended.result = .ok (order.map fun path => .ok (.truth (made path))) ∧
        ended.state.contents = final :=
  ⟨by decide +kernel, makeDirectories_commute FileSystem.usual_proper (by decide +kernel)⟩

end FileSystem
end KeyTree
