import KeyTree.FileSystem.Rename
import KeyTree.Proofs.Probe

/-!
The steps of a move: making sure that a place is free, moving one object, moving one file
and copying a marker. A file is moved by a copy and a deletion, so that a move that breaks
off leaves it at both places or only at the old one, and its copy only where nothing was.
-/
namespace KeyTree.FileSystem

open Program (Ensures Returns)

variable {fs : FileSystem} {fallible : Store.Request Memory.Cursor → Prop} {memory : Memory}
  {path source destination : Path}

/-- What the demand leaves that nothing is at a path. -/
structure Vacant (fs : FileSystem) (fallible : Store.Request Memory.Cursor → Prop) (path : Path)
    (before : Memory) (result : Except Failure Unit) (after : Memory) : Prop where
  heals : Heals fs.suffix path before.contents after.contents
  free : result = .ok () → (∀ key, ¬ fallible (.status key)) →
    after = before ∧ path ∉ before.contents ∧ path ++ fs.suffix ∉ before.contents
  missed : result = .ok () → before.contents.HasDirectory fs.suffix path → ∃ query, fallible query
  taken : ∀ failure, result = .error failure →
    path ∈ before.contents ∨ before.contents.HasDirectory fs.suffix path

/-- What moving one object leaves. -/
structure Carried (fallible : Store.Request Memory.Cursor → Prop) (source destination : Key)
    (before : Memory) (result : Except Failure Unit) (after : Memory) : Prop where
  done : result = .ok () → ∃ content, before.contents[source]? = some content ∧
    after = (before.insert destination content).erase source
  failed : ∀ failure, result = .error failure → after = before ∨
    ∃ content, before.contents[source]? = some content ∧ after = before.insert destination content
  stopped : ∀ failure, result = .error failure → source ∈ before.contents →
    ∃ query, fallible query

/-- What moving a file leaves. -/
structure Shifted (fs : FileSystem) (fallible : Store.Request Memory.Cursor → Prop)
    (source destination : Path) (before : Memory) (result : Except Failure Unit) (after : Memory) :
    Prop where
  done : result = .ok () → (∀ key, ¬ fallible (.status key)) →
    destination ∉ before.contents ∧ ∃ content, before.contents[source]? = some content ∧
      after.contents = (before.contents.insert destination content).erase source
  failed : ∀ failure, result = .error failure → (∀ key, ¬ fallible (.status key)) →
    Heals fs.suffix destination before.contents after.contents ∨
      destination ∉ before.contents ∧ ∃ content, before.contents[source]? = some content ∧
        after.contents = before.contents.insert destination content
  stopped : ∀ failure, result = .error failure → source ∈ before.contents →
    destination ∉ before.contents → ¬ before.contents.HasDirectory fs.suffix destination →
      ∃ query, fallible query

theorem ensures_requireAbsent (proper : fs.Proper) (plain : Path.Plain fs.suffix path) :
    (fs.requireAbsent path).Ensures (Memory.may fallible) memory
      (Vacant fs fallible path memory) := by
  refine Returns.bind (returns_isFile proper plain) ?_
  rintro file later ⟨rfl, present, absent⟩
  cases file with
  | true => exact ⟨.refl _ _ _, nofun, nofun, fun _ _ => .inl (present rfl)⟩
  | false =>
    refine Returns.bind (returns_isDirectory proper plain) ?_
    intro directory probed look
    cases directory with
    | true =>
      refine ⟨look.heals, nofun, nofun, fun _ _ => .inr ?_⟩
      exact (look.heals.hasDirectory_iff proper.suffix_whole).mp (.inl (look.marked rfl))
    | false =>
      refine ⟨look.heals, fun _ truthful => ?_, fun _ => look.missed rfl, nofun⟩
      obtain ⟨same, unmarked⟩ := look.unmarked rfl truthful
      exact ⟨same, absent rfl (truthful path), unmarked⟩

theorem ensures_moveObject (source destination : Key) :
    (moveObject source destination).Ensures (Memory.may fallible) memory
      (Carried fallible source destination memory) := by
  refine Returns.bind (Memory.returns_copy fallible memory source destination) ?_
  rintro made copied (⟨content, stored, rfl, rfl⟩ | ⟨rfl, rfl, cause⟩)
  · refine Returns.bind (Memory.returns_delete fallible _ source) ?_
    rintro made deleted (⟨rfl, rfl⟩ | ⟨rfl, rfl, hit⟩)
    · exact ⟨fun _ => ⟨content, stored, rfl⟩, nofun, nofun⟩
    · exact ⟨nofun, fun _ _ => .inr ⟨content, stored, rfl⟩, fun _ _ _ => ⟨_, hit⟩⟩
  · refine ⟨nofun, fun _ _ => .inl rfl, fun _ _ present => ?_⟩
    rcases cause with absent | hit
    · exact absurd present (Contents.not_mem_iff_lookup.mpr absent)
    · exact ⟨_, hit⟩

theorem ensures_moveFile (proper : fs.Proper) (old : Path.Plain fs.suffix source)
    (new : Path.Plain fs.suffix destination) :
    (fs.moveFile source destination).Ensures (Memory.may fallible) memory
      (Shifted fs fallible source destination memory) := by
  rw [moveFile, proper.relative_plain old, proper.relative_plain new]
  refine Returns.bind (returns_isFile proper old) ?_
  rintro file later ⟨rfl, _, absent⟩
  cases file with
  | false =>
    refine ⟨nofun, fun _ _ _ => .inl (.refl _ _ _), fun _ _ present _ _ => ?_⟩
    exact ⟨_, Classical.byContradiction fun reliable => absent rfl reliable present⟩
  | true =>
    refine Ensures.bind (ensures_requireAbsent proper new) ?_ ?_
    · rintro _ reached vacant
      refine Ensures.mono (ensures_moveObject source destination) ?_
      intro result moved carried
      refine ⟨fun ok truthful => ?_, fun failure failed truthful => ?_, ?_⟩
      · obtain ⟨rfl, free, _⟩ := vacant.free rfl truthful
        obtain ⟨content, stored, rfl⟩ := carried.done ok
        exact ⟨free, content, stored, rfl⟩
      · obtain ⟨rfl, free, _⟩ := vacant.free rfl truthful
        rcases carried.failed failure failed with rfl | ⟨content, stored, rfl⟩
        · exact .inl (.refl _ _ _)
        · exact .inr ⟨free, content, stored, rfl⟩
      · intro failure failed present _ _
        refine carried.stopped failure failed ?_
        exact vacant.heals.mem present
    · intro failure reached vacant
      refine ⟨nofun, fun _ _ _ => .inl vacant.heals, fun _ _ _ free bare => ?_⟩
      exact absurd (vacant.taken failure rfl) (not_or_intro free bare)

theorem ensures_copyMarker (proper : fs.Proper) (old : Path.Plain fs.suffix source)
    (new : Path.Plain fs.suffix destination) :
    (fs.copyMarker source destination).Ensures (Memory.may fallible) memory fun result later =>
      (result = .ok () ∧ ∃ content, memory.contents[source ++ fs.suffix]? = some content ∧
        later = memory.insert (destination ++ fs.suffix) content) ∨
      (∃ failure, result = .error failure) ∧ later = memory ∧
        (source ++ fs.suffix ∈ memory.contents → ∃ query, fallible query) := by
  rw [copyMarker, proper.markerKey_plain old, proper.markerKey_plain new]
  refine Returns.bind (Memory.returns_copy fallible memory _ _) ?_
  rintro made copied (⟨content, stored, rfl, rfl⟩ | ⟨rfl, rfl, cause⟩)
  · exact .inl ⟨rfl, content, stored, rfl⟩
  · refine .inr ⟨⟨_, rfl⟩, rfl, fun present => ?_⟩
    rcases cause with absent | hit
    · exact absurd present (Contents.not_mem_iff_lookup.mpr absent)
    · exact ⟨_, hit⟩

end KeyTree.FileSystem
