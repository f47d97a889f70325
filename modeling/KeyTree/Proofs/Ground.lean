import KeyTree.Proofs.Commuting

/-!
Making a directory, told from the ground up. The ground of a path is the innermost directory up to
it, or the root if there is none (`Ground`). Making the path succeeds if no file stands between the
ground and the path, and then marks the ground and all that is missing; a file that is in the way
is met before anything is made.
-/
namespace KeyTree

open KeyTree.Path (separator)

/-- The other path is this one or above it, and below the ground. -/
def Path.Between (ground : Option Path) (path other : Path) : Prop :=
  path.UpTo other ∧ ∀ outer ∈ ground, other.Above outer

namespace Contents
variable {suffix : Key} {contents : Contents} {path other : Path} {ground : Option Path}

/-- The innermost directory of a path, those above it and the root; `none` stands for the root. -/
def Ground (suffix : Key) (contents : Contents) (path : Path) : Option Path → Prop
  | none => ∀ other, path.UpTo other → ¬ contents.HasDirectory suffix other
  | some ground => contents.Innermost suffix path.UpTo ground

/-- A directory is its own ground. -/
theorem ground_of_there (there : contents.HasDirectory suffix path) :
    contents.Ground suffix path (some path) := by
  refine ⟨.inl rfl, there, ?_⟩
  rintro other (rfl | above) _ below
  · exact Path.not_above_self below
  · exact Path.not_above_self (above.trans below)

/-- What is missing has the ground of what is right above it. -/
theorem Ground.child {name : Path} (first : separator ∉ name)
    (missing : ¬ contents.HasDirectory suffix (path ++ separator :: name))
    (founded : contents.Ground suffix path ground) :
    contents.Ground suffix (path ++ separator :: name) ground := by
  have outside : ∀ other, (path ++ separator :: name).UpTo other →
      contents.HasDirectory suffix other → path.UpTo other := by
    rintro other (rfl | above) there
    · exact absurd there missing
    · exact (Path.above_child_iff first).mp above
  cases ground with
  | none => exact fun other upTo there => founded other (outside other upTo there) there
  | some ground =>
    obtain ⟨member, there, last⟩ := founded
    exact ⟨.inr member.above_child, there,
      fun other upTo found => last other (outside other upTo found) found⟩

theorem exists_ground (plain : Path.Plain suffix path) :
    ∃ ground, contents.Ground suffix path ground := by
  induction path, plain using Path.Plain.last_induction with
  | alone name plain single =>
    by_cases there : contents.HasDirectory suffix name
    · exact ⟨some name, ground_of_there there⟩
    · refine ⟨none, ?_⟩
      rintro other (rfl | above)
      · exact there
      · exact absurd above (Path.not_above_name single)
  | below parent name _ plain first ih =>
    by_cases there : contents.HasDirectory suffix (parent ++ separator :: name)
    · exact ⟨_, ground_of_there there⟩
    · obtain ⟨ground, founded⟩ := ih
      exact ⟨ground, founded.child first there⟩

/-- Up to a path, what is below the ground is what is missing. -/
theorem Ground.between_iff (founded : contents.Ground suffix path ground) :
    path.Between ground other ↔ path.UpTo other ∧ ¬ contents.HasDirectory suffix other := by
  refine and_congr_right fun upTo => ?_
  cases ground with
  | none => exact iff_of_true nofun (founded other upTo)
  | some ground =>
    obtain ⟨member, there, last⟩ := founded
    constructor
    · exact fun below found => last other upTo found (below ground rfl)
    · rintro missing _ ⟨⟩
      exact (member.linear upTo).resolve_left fun outer => missing (there.upTo outer)

theorem Ground.innermost_iff (founded : contents.Ground suffix path ground) :
    contents.Innermost suffix path.UpTo other ↔ other ∈ ground := by
  constructor
  · rintro ⟨member, there, last⟩
    cases ground with
    | none => exact absurd there (founded other member)
    | some ground =>
      rcases founded.member.linear member with (rfl | outer) | inner
      · rfl
      · exact absurd outer (last ground founded.member founded.there)
      · exact absurd inner (founded.last other member there)
  · rintro ⟨⟩
    exact founded

/-- There is only one ground. -/
theorem Ground.unique {one : Option Path} (founded : contents.Ground suffix path ground)
    (also : contents.Ground suffix path one) : one = ground := by
  ext other
  rw [← Option.mem_def, ← Option.mem_def, ← founded.innermost_iff, ← also.innermost_iff]

theorem Ground.clear_iff (founded : contents.Ground suffix path ground) :
    contents.Clear suffix path.UpTo ↔ ∀ other, path.Between ground other → other ∉ contents := by
  constructor
  · intro clear other between present
    obtain ⟨upTo, missing⟩ := founded.between_iff.mp between
    exact missing (clear other upTo present)
  · intro free other upTo present
    by_contra missing
    exact free other (founded.between_iff.mpr ⟨upTo, missing⟩) present

/-- Where nothing is in the way, the ground and all that is missing is marked. -/
theorem Ground.lays_iff (founded : contents.Ground suffix path ground)
    (clear : contents.Clear suffix path.UpTo) :
    contents.Lays suffix path other ↔ path.Between ground other ∨ other ∈ ground := by
  rw [Lays, and_iff_left (clear path (.inl rfl)), Owes, founded.innermost_iff, founded.between_iff,
    and_iff_left clear]

/-- Where a file is in the way, at most the ground is marked. -/
theorem Ground.lays_iff_blocked (founded : contents.Ground suffix path ground)
    (blocked : ¬ contents.Clear suffix path.UpTo) : contents.Lays suffix path other ↔
      other ∈ ground ∧ (path ∈ contents → contents.HasDirectory suffix path) := by
  rw [Lays, Owes, founded.innermost_iff]
  exact and_congr_left' (or_iff_right fun owes => blocked owes.2.2)

end Contents

namespace FileSystem
variable {fs : FileSystem} {memory : Memory} {path : Path}

/-- Making a directory and those above it answers yes exactly if no file stands between the ground
and the path. If yes, the markers of the ground and of all below it are there, and all are found to
be directories; if no, at most the ground got its marker, and nothing became a directory. -/
theorem makeDirectories_from_ground (proper : fs.Proper) (plain : Path.Plain fs.suffix path) :
    let ended := (fs.makeDirectories path).run Memory.serve memory
    ∃ ground made, (∀ other, memory.contents.Ground fs.suffix path other ↔ other = ground) ∧
      ended.result = .ok made ∧
      (made = true ↔ ∀ other, path.Between ground other → other ∉ memory.contents) ∧
      (made = true →
        Gains fs.suffix (fun other => path.Between ground other ∨ other ∈ ground)
          memory.contents ended.state.contents ∧
        ∀ other, path.UpTo other →
          ((fs.isDirectory other).run Memory.serve ended.state).result = .ok true) ∧
      (made = false →
        (ended.state.contents = memory.contents ∨ ∃ outer ∈ ground,
          Gains fs.suffix (· = outer) memory.contents ended.state.contents) ∧
        ∀ other, ended.state.contents.HasDirectory fs.suffix other ↔
          memory.contents.HasDirectory fs.suffix other) := by
  intro ended
  have whole := proper.suffix_whole
  obtain ⟨ground, founded⟩ := memory.contents.exists_ground plain
  obtain ⟨made, answered, clear_iff, gains⟩ :=
    Memory.run_of_ensures (returns_makeDirectories_told proper plain)
  have directory_iff : ∀ other, ended.state.contents.HasDirectory fs.suffix other ↔
      memory.contents.HasDirectory fs.suffix other ∨ made = true ∧ path.UpTo other := by
    intro other
    rw [clear_iff]
    exact hasDirectory_made_iff whole gains
  refine ⟨ground, made, fun other => ⟨founded.unique, fun same => same ▸ founded⟩, answered,
    clear_iff.trans founded.clear_iff, fun yes => ⟨?_, fun other upTo => ?_⟩,
    fun no => ⟨?_, fun other => ?_⟩⟩
  · exact gains.congr fun other => founded.lays_iff (clear_iff.mp yes)
  · obtain ⟨found, looked, exact_iff⟩ := run_isDirectory ended.state proper (plain.upTo upTo)
    obtain rfl := exact_iff.mpr ((directory_iff other).mpr (.inr ⟨yes, upTo⟩))
    exact looked
  · have blocked : ¬ memory.contents.Clear fs.suffix path.UpTo := by simp [← clear_iff, no]
    have marks := gains.congr fun other => founded.lays_iff_blocked blocked
    cases ground with
    | none => exact .inl (marks.unique (Gains.refl fun _ here => nomatch here.1))
    | some outer =>
      by_cases free : path ∈ memory.contents → memory.contents.HasDirectory fs.suffix path
      · refine .inr ⟨outer, rfl, marks.congr fun other => ?_⟩
        rw [and_iff_left free, Option.mem_some_iff, eq_comm]
      · exact .inl (marks.unique (Gains.refl fun _ here => absurd here.2 free))
  · rw [directory_iff other, no]
    exact or_iff_left fun fresh => Bool.false_ne_true fresh.1

theorem makeDirectories_from_ground_inferred :
    let memory := Memory.holding [("a/x".toList, [120]), ("a/b".toList, [98]), ("ab".toList, [97])]
    let ended := (usual.makeDirectories "a/y/z".toList).run Memory.serve memory
    Path.Plain usual.suffix "a/y/z".toList ∧
      memory.contents.Ground usual.suffix "a/y/z".toList (some "a".toList) ∧
      ended.result = .ok true ∧ "a_$folder$".toList ∈ ended.state.contents ∧
      "a/y_$folder$".toList ∈ ended.state.contents := by
  intro memory ended
  have plain : Path.Plain usual.suffix "a/y/z".toList := by decide
  obtain ⟨ground, made, unique, answered, _, marked, _⟩ :=
    @makeDirectories_from_ground usual memory _ usual_proper plain
  have yes : ended.result = .ok true := by decide +kernel
  cases yes.symm.trans answered
  have inferred : memory.contents.HasDirectory usual.suffix "a".toList := by decide +kernel
  have missing : ¬ memory.contents.HasDirectory usual.suffix "a/y".toList := by decide +kernel
  have lower : ¬ memory.contents.HasDirectory usual.suffix "a/y/z".toList := by decide +kernel
  have outer : memory.contents.Ground usual.suffix "a/y".toList (some "a".toList) :=
    .child (by decide : separator ∉ "y".toList) missing (Contents.ground_of_there inferred)
  have founded : memory.contents.Ground usual.suffix "a/y/z".toList (some "a".toList) :=
    .child (by decide : separator ∉ "z".toList) lower outer
  obtain rfl := (unique _).mp founded
  obtain ⟨gains, _⟩ := marked rfl
  refine ⟨plain, founded, yes, gains.mem_iff.mpr (.inr ⟨_, .inr rfl, rfl⟩),
    gains.mem_iff.mpr (.inr ⟨"a/y".toList, .inl ?_, rfl⟩)⟩
  exact founded.between_iff.mpr ⟨.inr (Path.UpTo.above_child (.inl rfl)), missing⟩

end FileSystem
end KeyTree
