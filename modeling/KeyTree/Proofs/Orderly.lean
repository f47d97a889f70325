import KeyTree.Proofs.Carriage
import KeyTree.Proofs.Sequence

/-!
Contents stay orderly. From neat contents whose markers and placeholders are empty, every
operation on plain paths and on the root leads to such contents again, also one that is
refused half way: what is written is a file, the empty object at the root or an empty marker.
-/
namespace KeyTree

open KeyTree.Path (separator)
open Program (Ensures Returns Keeps)

/-- Neat contents whose markers and placeholders hold nothing. -/
structure Contents.Orderly (suffix : Key) (contents : Contents) : Prop where
  neat : contents.Neat suffix
  hollow : contents.Hollow suffix

namespace Contents.Orderly
variable {suffix : Key} {contents : Contents}

theorem insert (orderly : Orderly suffix contents) (whole : separator ∉ suffix) {key : Key}
    {content : Content} (fits : key = [] ∨ Fits suffix key content) :
    Orderly suffix (contents.insert key content) := by
  constructor
  · apply orderly.neat.insert
    intro named
    obtain ⟨path, plain, kind⟩ := fits.resolve_left named
    exact ⟨path, plain, kind.imp_right And.left⟩
  · intro path plain other kind given stored
    rw [lookup_insert] at stored
    split at stored
    · rename_i same
      cases stored
      subst same
      rcases fits with rfl | ⟨file, named, rfl | ⟨_, bare⟩⟩
      · rcases kind with same | same
        · exact absurd (List.append_eq_nil_iff.mp same.symm).1 plain.ne_nil
        · simp at same
      · rcases kind with same | same
        · exact absurd same.symm (marker_ne whole named path)
        · exact absurd same.symm (stem_ne named path)
      · exact bare
    · exact orderly.hollow path plain other kind given stored

end Contents.Orderly

theorem Stable.orderly (suffix : Key) : Stable suffix (Contents.Orderly suffix) where
  neat := Contents.Orderly.neat
  marks orderly marks := ⟨marks.neat orderly.neat, marks.hollow orderly.hollow⟩
  loses orderly loses := ⟨orderly.neat.loses loses, orderly.hollow.loses loses⟩

/-- The copy of an empty marker is an empty marker. -/
theorem Carries.orderly {suffix : Key} (whole : separator ∉ suffix) (source destination : Path) :
    Carries suffix source destination (Contents.Orderly suffix) where
  toMarkable := (Stable.orderly suffix).toMarkable
  erases orderly _ := (Stable.orderly suffix).erase _ _ orderly
  files orderly plain _ := orderly.insert whole (.inr ⟨_, plain, .inl rfl⟩)
  markers orderly old new _ stored := by
    have bare := orderly.hollow _ old _ (.inl rfl) _ stored
    exact orderly.insert whole (.inr ⟨_, new, .inr ⟨.inl rfl, bare⟩⟩)

namespace FileSystem
variable {fs : FileSystem} {memory : Memory} {path source destination : Path}

theorem Place.relative (proper : fs.Proper) (place : fs.Place path) :
    fs.root.relative path = [] ∨ Path.Plain fs.suffix (fs.root.relative path) := by
  cases place with
  | inl plain => exact .inr ((proper.relative_plain plain).symm ▸ plain)
  | inr root => exact .inl (decide_eq_true_eq.mp root)

/-- The root is never free. -/
theorem ensures_requireAbsent_root (root : fs.root.isRoot path = true) :
    (fs.requireAbsent path).Ensures (Memory.may fun _ => False) memory fun result _ =>
      ∃ cause, result = .error (.refused cause) := by
  have looks : (fs.isFile path).Returns (Memory.may fun _ => False) memory fun _ _ => True :=
    Returns.bind (Memory.returns_status _ memory _) fun _ _ _ => ⟨_, rfl, trivial⟩
  apply Returns.bind looks
  intro found later _
  split
  · exact ⟨_, rfl⟩
  · rw [isDirectory_root root]
    exact ⟨_, rfl⟩

variable (proper : fs.Proper)
include proper

/-- A file may be put anywhere. -/
theorem orderly_insert_file (place : fs.Place path) (contents : Contents) (content : Content)
    (orderly : contents.Orderly fs.suffix) :
    Contents.Orderly fs.suffix (contents.insert (fs.root.relative path) content) := by
  apply orderly.insert proper.suffix_whole
  exact (place.relative proper).imp_right fun plain => ⟨_, plain, .inl rfl⟩

theorem keeps_writeFile (place : fs.Place path) (contents : List Content) :
    Keeps (Contents.Orderly fs.suffix) (fs.writeFile path contents) := by
  cases place with
  | inl plain =>
    intro memory orderly
    have stable := Stable.orderly fs.suffix
    apply Ensures.mono (ensures_writeFile proper plain contents)
    rintro result later ⟨made, marks, ⟨_, _, same⟩ | ⟨_, _, same⟩⟩
    · exact same ▸ stable.marks orderly marks
    · have put := orderly_insert_file proper (.inl plain) made contents.flatten
        (stable.marks orderly marks)
      rw [proper.relative_plain plain] at put
      exact same ▸ put
  | inr root =>
    apply Keeps.of_returns
    intro memory orderly
    have creates : (fs.create path).Returns (Memory.may fun _ => False) memory
        fun upload later => upload = some ⟨fs.root.relative path, [], false⟩ ∧
          later.contents = memory.contents := by
      rw [create, Root.parent?, if_pos root]
      apply Returns.bind (returns_startUpload _)
      rintro upload opened ⟨rfl, same⟩
      exact ⟨_, rfl, rfl, same⟩
    apply Returns.bind creates
    rintro upload opened ⟨rfl, same⟩
    apply Returns.mono (returns_writeOpened _ contents)
    rintro answer later ⟨_, stored⟩
    rw [stored, same]
    exact orderly_insert_file proper (.inr root) memory.contents _ orderly

theorem keeps_moveFile (place : fs.Place destination) :
    Keeps (Contents.Orderly fs.suffix) (fs.moveFile source destination) := by
  have stable := Stable.orderly fs.suffix
  exact keeps_moveTo proper stable.toMarkable place (orderly_insert_file proper place)
    (stable.erase _)

/-- The root is neither moved nor replaced. -/
theorem keeps_renameDirectory (old : fs.Place source) (new : fs.Place destination) :
    Keeps (Contents.Orderly fs.suffix) (fs.renameDirectory source destination) := by
  have stable := Stable.orderly fs.suffix
  apply Keeps.succeeds
  cases old with
  | inr root =>
    cases fs.limits.depth with
    | zero => exact .fail _
    | succ depth =>
      rw [moveDirectory_succ, stem_root root, if_pos List.nil_prefix]
      exact .fail _
  | inl old =>
    cases new with
    | inl new =>
      exact keeps_moveDirectory proper old new _ (.orderly proper.suffix_whole source destination)
    | inr root =>
      cases fs.limits.depth with
      | zero => exact .fail _
      | succ depth =>
        rw [moveDirectory_succ]
        apply Keeps.ite (.fail _)
        apply Keeps.bind (keeps_requireChildren proper stable.toMarkable (.inl old) false)
        intro children listed orderly
        apply Ensures.bind ((keeps_requireAbsent proper stable.toMarkable (.inr root) listed orderly).and
          (ensures_requireAbsent_root root))
        · rintro _ later ⟨_, cause, ⟨⟩⟩
        · exact fun failure later kept => kept.1

/-- Every operation keeps the contents orderly. -/
theorem keeps_perform_orderly {operation : Operation}
    (placed : ∀ path ∈ operation.paths, fs.Place path) :
    Keeps (Contents.Orderly fs.suffix) (fs.perform operation) := by
  have stable := Stable.orderly fs.suffix
  cases written : operation.writes with
  | false =>
    cases moved : operation.renames with
    | false => exact keeps_perform proper stable written moved placed
    | true =>
      cases operation with
      | renameFile source destination =>
        exact .bind (.succeeds (keeps_moveFile proper (placed destination (.tail _ (.head _)))) _)
          fun _ => .done _
      | renameDirectory source destination =>
        exact .bind (keeps_renameDirectory proper (placed source (.head _))
          (placed destination (.tail _ (.head _)))) fun _ => .done _
      | _ => cases moved
  | true =>
    cases operation with
    | writeFile path contents =>
      exact .bind (keeps_writeFile proper (placed path (.head _)) contents) fun _ => .done _
    | _ => cases written

/-- So does every sequence of them. -/
theorem reached_orderly {operations : List Operation}
    (placed : ∀ operation ∈ operations, ∀ path ∈ operation.paths, fs.Place path)
    (orderly : memory.contents.Orderly fs.suffix) :
    (fs.reached operations memory).contents.Orderly fs.suffix :=
  reached_keeps (fun operation member => keeps_perform_orderly proper (placed operation member))
    orderly

end FileSystem
end KeyTree
