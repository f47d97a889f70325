import KeyTree.Proofs.Retention
import KeyTree.Proofs.Synonyms

/-!
A separator behind the path of a directory. It changes nothing but message texts, except behind
the destination of a rename: there the question whether a file is at the destination is asked
about the placeholder instead of the file. Which answers of the two differ, and only those,
decide whether the separator makes a difference (`perform_trailed_iff`).
-/
namespace KeyTree

open KeyTree.Path (separator)
open Program (Echoes Echoed Ensures Keeps Returns)

namespace Program
variable {I : Interface} {σ α β : Type} {handler : Handler I σ}

/-- From this state both programs end alike, up to path texts, and in the same state. -/
def EndsAs (handler : Handler I σ) (state : σ) (first second : Program I α) : Prop :=
  Echoed Eq (first.run handler state).result (second.run handler state).result ∧
    (first.run handler state).state = (second.run handler state).state

theorem Echoes.endsAs {first second : Program I α} (echoes : Echoes Eq first second) (state : σ) :
    EndsAs handler state first second := by
  induction echoes generalizing state with
  | done holds => exact ⟨.value holds, rfl⟩
  | fail same => exact ⟨.failure same, rfl⟩
  | report _ _ ih => exact ih state
  | ask query _ ih => exact ih _ _

/-- What the one returns the other returns. -/
theorem Echoes.returns {may : Behaviour I σ} {first second : Program I α} {post : α → σ → Prop}
    {state : σ} (echoes : Echoes Eq first second) (ensured : second.Returns may state post) :
    first.Returns may state post := by
  induction echoes generalizing state with
  | done holds => exact holds ▸ ensured
  | fail same =>
    obtain ⟨_, ⟨⟩, _⟩ := ensured
  | report _ _ ih => exact ih ensured
  | ask query _ ih => exact fun answer later served => ih answer (ensured answer later served)

theorem run_succeeds_unrefused (program : Program I Unit) (notice : Cause → Notice) (state : σ)
    (cause : Cause) : ((program.succeeds notice).run handler state).result ≠
      .error (.refused cause) := by
  rw [(run_succeeds _ program notice state).1]
  generalize (program.run handler state).result = result
  cases result with
  | ok value => exact nofun
  | error failure => cases failure <;> exact nofun

theorem run_map_state {value : α → β} (program : Program I α) (state : σ) :
    ((value <$> program).run handler state).state = (program.run handler state).state := by
  rw [map_eq_pure_bind, bind_eq_bind, run_bind]
  generalize program.run handler state = inner
  obtain ⟨result, notices, exchanges, later⟩ := inner
  cases result with
  | ok value => rfl
  | error failure => rfl

namespace EndsAs
variable {state : σ} {first second : Program I α}

theorem refl (program : Program I α) : EndsAs handler state program program :=
  (Echoes.refl program).endsAs state

theorem bind {next follow : α → Program I β} (ends : EndsAs handler state first second)
    (rest : ∀ value, (second.run handler state).result = .ok value →
      EndsAs handler (second.run handler state).state (next value) (follow value)) :
    EndsAs handler state (first.bind next) (second.bind follow) := by
  obtain ⟨results, states⟩ := ends
  rw [EndsAs, run_bind, run_bind]
  generalize first.run handler state = one at *
  generalize second.run handler state = other at *
  obtain ⟨result, notices, exchanges, later⟩ := one
  obtain ⟨answer, others, asked, final⟩ := other
  obtain rfl : later = final := states
  cases results with
  | value holds =>
    cases holds
    exact rest _ rfl
  | failure same => exact ⟨.failure same, rfl⟩

theorem succeeds {first second : Program I Unit} (ends : EndsAs handler state first second)
    (notice other : Cause → Notice) :
    EndsAs handler state (first.succeeds notice) (second.succeeds other) := by
  obtain ⟨results, states⟩ := ends
  obtain ⟨one, here, _⟩ := run_succeeds handler first notice state
  obtain ⟨another, there, _⟩ := run_succeeds handler second other state
  refine ⟨?_, here.trans (states.trans there.symm)⟩
  rw [one, another]
  generalize (first.run handler state).result = result at results
  generalize (second.run handler state).result = answer at results
  cases results with
  | value holds => exact .value rfl
  | failure same =>
    obtain rfl | ⟨cause, reason, rfl, rfl, _⟩ := Failure.eq_or_refused same
    · rename_i failure
      cases failure with
      | refused cause => exact .value rfl
      | defect _ | tooManyPages | tooDeep => exact .failure rfl
    · exact .value rfl

/-- Failures that quote no path are the same ones. -/
theorem result_eq (ends : EndsAs handler state first second)
    (unrefused : ∀ cause, (second.run handler state).result ≠ .error (.refused cause)) :
    (first.run handler state).result = (second.run handler state).result := by
  obtain ⟨results, _⟩ := ends
  generalize (first.run handler state).result = result at results
  generalize (second.run handler state).result = answer at results unrefused
  cases results with
  | value holds => rw [holds]
  | failure same =>
    obtain rfl | ⟨cause, reason, rfl, rfl, _⟩ := Failure.eq_or_refused same
    · rfl
    · exact absurd rfl (unrefused reason)

theorem map {value : α → β} (ends : EndsAs handler state first second)
    (unrefused : ∀ cause, (second.run handler state).result ≠ .error (.refused cause)) :
    ((value <$> first).run handler state).result = ((value <$> second).run handler state).result ∧
      ((value <$> first).run handler state).state =
        ((value <$> second).run handler state).state := by
  refine ⟨?_, by rw [run_map_state, run_map_state, ends.2]⟩
  have results := ends.result_eq unrefused
  rw [map_eq_pure_bind, map_eq_pure_bind, bind_eq_bind, bind_eq_bind, run_bind, run_bind]
  simp only [Run.andThen, results]
  cases (second.run handler state).result with
  | ok value => rfl
  | error failure => rfl

end EndsAs
end Program

namespace Path
variable {path other : Path}

/-- The path, or the path with a separator behind it. -/
def Trailed (path other : Path) : Prop := other = path ∨ other = path ++ [separator]

theorem Trailed.trimEnd_eq (trailed : Trailed path other) : trimEnd other = trimEnd path := by
  cases trailed with
  | inl same => rw [same]
  | inr behind => simp [behind, trimEnd]

theorem Trailed.join_eq (trailed : Trailed path other) (name : Path) :
    join other name = join path name := by
  rw [join, join, trailed.trimEnd_eq]

end Path

/-- A key that is no marker is not healed. -/
theorem Heals.unmarked {suffix : Key} {place : Path} {before after : Contents} {key : Key}
    (heals : Heals suffix place before after) (other : ∀ path : Path, key ≠ path ++ suffix) :
    after[key]? = before[key]? := by
  obtain same | ⟨_, path, _, _, marker, _⟩ := heals key
  · exact same
  · exact absurd marker (other path)

namespace FileSystem
variable {fs : FileSystem} {memory : Memory} {path source destination place : Path}
  (proper : fs.Proper)
include proper

section trailed
variable (plain : Path.Plain fs.suffix path) (trailed : path.Trailed place)
include plain trailed

theorem relative_trailed : fs.root.relative place = place := by
  cases trailed with
  | inl same => rw [same, proper.relative_plain plain]
  | inr behind => rw [behind, proper.relative_stem plain]

theorem sameDirectory_trailed : fs.SameDirectory place path := by
  have here := relative_trailed proper plain trailed
  refine ⟨?_, ?_, ?_, fun name => ?_⟩
  · cases trailed with
    | inl same => rw [same]
    | inr behind => simp [behind, Root.isRoot, proper.relative_plain plain,
        proper.relative_stem plain, plain.ne_nil]
  · cases trailed with
    | inl same => rw [same]
    | inr behind =>
      rw [behind, proper.stem_plain plain, Root.stem, proper.relative_stem plain,
        Path.withSeparator, if_pos List.getLast?_concat, if_neg]
      simpa using plain.ne_nil
  · cases trailed with
    | inl same => rw [same]
    | inr behind => rw [behind, proper.markerKey_stem plain, proper.markerKey_plain plain]
  · rw [trailed.join_eq name]
    exact fun _ => rfl

/-- It is never a marker. -/
theorem trailed_ne_marker (other : Path) : place ≠ other ++ fs.suffix := by
  cases trailed with
  | inl same => exact same ▸ (marker_ne proper.suffix_whole plain other).symm
  | inr behind =>
    exact behind ▸ (marker_ne_stem proper.suffix_whole proper.suffix_ne_nil other path).symm

end trailed

/-- A marked directory is in the way of a rename, whatever file is asked for. -/
theorem ensures_requireAbsent_marked (plain : Path.Plain fs.suffix path)
    (trailed : path.Trailed place) (marked : path ++ fs.suffix ∈ memory.contents) :
    (fs.requireAbsent place).Ensures (Memory.may fun _ => False) memory fun result later =>
      result = .error (.refused (.destinationExists place)) ∧ later = memory := by
  have same := sameDirectory_trailed proper plain trailed
  apply Returns.bind (returns_isFile_exact fs memory place)
  rintro file later ⟨_, rfl⟩
  cases file with
  | true => exact ⟨rfl, rfl⟩
  | false =>
    rw [← proper.markerKey_plain plain, ← same.markerKey] at marked
    apply Returns.bind (returns_isDirectory_marked (same.isRoot.trans (proper.isRoot_plain plain))
      marked)
    rintro found final ⟨rfl, rfl⟩
    exact ⟨rfl, rfl⟩

end FileSystem

/-- Whether a directory can be renamed does not turn on a separator behind the destination: the
destination has its marker, or a file and a placeholder or neither, or the rename is refused
before it looks. -/
def Contents.Indifferent (suffix : Key) (source destination : Path) (contents : Contents) : Prop :=
  destination ++ suffix ∈ contents ∨
    (destination ∈ contents ↔ destination ++ [separator] ∈ contents) ∨
    ¬ contents.HasDirectory suffix source ∨
    source ++ [separator] <+: destination ++ [separator]

namespace FileSystem
open Program (EndsAs)
variable {fs : FileSystem} {memory : Memory} {path source destination begun place : Path}
  (proper : fs.Proper)
include proper

theorem endsAs_requireAbsent (plain : Path.Plain fs.suffix path) (trailed : path.Trailed place)
    (alike : path ++ fs.suffix ∈ memory.contents ∨
      (path ∈ memory.contents ↔ path ++ [separator] ∈ memory.contents)) :
    EndsAs Memory.serve memory (fs.requireAbsent place) (fs.requireAbsent path) := by
  have same := sameDirectory_trailed proper plain trailed
  by_cases marked : path ++ fs.suffix ∈ memory.contents
  · obtain ⟨here, stays⟩ := Memory.run_of_ensures
      (ensures_requireAbsent_marked proper plain trailed marked)
    obtain ⟨there, still⟩ := Memory.run_of_ensures
      (ensures_requireAbsent_marked proper plain (.inl rfl) marked)
    rw [EndsAs, here, there]
    exact ⟨.failure rfl, stays.trans still.symm⟩
  · have files : EndsAs Memory.serve memory (fs.isFile place) (fs.isFile path) := by
      obtain ⟨found, here, exact_here, stays⟩ := Memory.run_of_ensures
        (returns_isFile_exact fs memory place)
      obtain ⟨known, there, exact_there, still⟩ := Memory.run_of_ensures
        (returns_isFile_exact fs memory path)
      rw [EndsAs, here, there]
      refine ⟨.value ?_, stays.trans still.symm⟩
      rw [Bool.eq_iff_iff, exact_here, exact_there, relative_trailed proper plain trailed,
        proper.relative_plain plain]
      cases trailed with
      | inl plainly => rw [plainly]
      | inr behind => exact behind ▸ (alike.resolve_left marked).symm
    apply files.bind
    intro found _
    apply Echoes.endsAs
    exact .ite (fun _ => .refuse rfl) fun _ => .bind_eq (echoes_isDirectory same) fun _ =>
      .ite (fun _ => .refuse rfl) fun _ => .done rfl

/-- A rename goes the same way with separators behind its paths, where it does not turn on
them. -/
theorem endsAs_moveDirectory (old : Path.Plain fs.suffix source)
    (new : Path.Plain fs.suffix destination) (neat : memory.contents.Neat fs.suffix)
    (from_source : source.Trailed begun) (trailed : destination.Trailed place)
    (alike : place = destination ∨ memory.contents.Indifferent fs.suffix source destination)
    (depth : Nat) :
    EndsAs Memory.serve memory (fs.moveDirectory depth begun place)
      (fs.moveDirectory depth source destination) := by
  have whole := proper.suffix_whole
  have same := sameDirectory_trailed proper old from_source
  have also := sameDirectory_trailed proper new trailed
  have nested : ∀ {depth : Nat} {one other first second : Path}, fs.SameDirectory one other →
      fs.root.Synonyms first second →
      Echoes (I := Store.interface Memory.Cursor) Eq (fs.moveDirectory depth one first)
        (fs.moveDirectory depth other second) :=
    fun here there => echoes_moveDirectory here there.directory (echoes_requireAbsent there) _
  cases depth with
  | zero => exact .refl _
  | succ depth =>
    rw [moveDirectory_succ, moveDirectory_succ, same.stem, also.stem, proper.stem_plain old,
      proper.stem_plain new]
    by_cases inside : source ++ [separator] <+: destination ++ [separator]
    · rw [if_pos inside, if_pos inside]
      exact Echoes.endsAs (.refuse (by rfl)) memory
    · rw [if_neg inside, if_neg inside]
      apply ((echoes_requireChildren same false).endsAs memory).bind
      intro children listed
      have gathered := Memory.run_of_ensures (ensures_requireChildren proper old neat false)
      generalize (fs.requireChildren source false).run Memory.serve memory = lists at *
      obtain ⟨marked, _⟩ := gathered.listed children listed
      have there := (gathered.heals.hasDirectory_iff whole).mp (.inl marked)
      have absent : EndsAs Memory.serve lists.state (fs.requireAbsent place)
          (fs.requireAbsent destination) := by
        obtain rfl | marker | both | missing | below := alike
        · exact .refl _
        · exact endsAs_requireAbsent proper new trailed (.inl (gathered.heals.mem marker))
        · have file := Contents.mem_of_lookup_eq (gathered.heals.file whole new)
          have placeholder := Contents.mem_of_lookup_eq
            (gathered.heals.unmarked (trailed_ne_marker proper new (.inr rfl)))
          exact endsAs_requireAbsent proper new trailed
            (.inr (file.trans (both.trans placeholder.symm)))
        · exact absurd there missing
        · exact absurd below inside
      exact absent.bind fun _ _ => (echoes_moveVacant same also children nested).endsAs _

/-- The demand that nothing is at a place puts the marker of a directory there, unless it finds
the very key of the place first. -/
theorem ensures_requireAbsent_trailed (plain : Path.Plain fs.suffix path)
    (trailed : path.Trailed place) :
    (fs.requireAbsent place).Ensures (Memory.may fun _ => False) memory fun result later =>
      Heals fs.suffix path memory.contents later.contents ∧
        (result = .ok () → place ∉ memory.contents) ∧
        ∀ failure, result = .error failure → (path ++ fs.suffix ∈ later.contents ↔
          place ∉ memory.contents ∨ path ++ fs.suffix ∈ memory.contents) := by
  have same := sameDirectory_trailed proper plain trailed
  apply Returns.bind (returns_isFile_exact fs memory place)
  intro file later looked
  obtain ⟨asked, still⟩ := looked
  rw [relative_trailed proper plain trailed] at asked
  subst still
  cases file with
  | true => exact ⟨.refl _ _ _, nofun, fun _ _ => by simp [asked.mp rfl]⟩
  | false =>
    have free : place ∉ later.contents := fun present => nomatch asked.mpr present
    apply Returns.bind ((echoes_isDirectory same).returns (returns_isDirectory proper plain))
    intro found probed look
    cases found with
    | true => exact ⟨look.heals, nofun, fun _ _ => by simp [look.marked rfl, free]⟩
    | false => exact ⟨look.heals, fun _ => free, nofun⟩

/-- Where nothing but the file or the placeholder at the destination could refuse a rename, the
destination has its marker afterwards exactly if the rename did not find what it asked for. -/
theorem ensures_moveDirectory_marks (old : Path.Plain fs.suffix source)
    (new : Path.Plain fs.suffix destination) (neat : memory.contents.Neat fs.suffix)
    (trailed : destination.Trailed place)
    (there : memory.contents.HasDirectory fs.suffix source)
    (outside : ¬ source ++ [separator] <+: destination ++ [separator])
    (unmarked : destination ++ fs.suffix ∉ memory.contents)
    (clear : ¬ fs.Obstructed (fun _ => False) memory.contents source) (depth : Nat) :
    (fs.moveDirectory (depth + 1) source place).Ensures (Memory.may fun _ => False) memory
      fun _ later => destination ++ fs.suffix ∈ later.contents ↔ place ∉ memory.contents := by
  have whole := proper.suffix_whole
  have also := sameDirectory_trailed proper new trailed
  have free : ¬ source.Holds fs.suffix (destination ++ fs.suffix) := by
    rintro (same | below)
    · exact outside (List.append_cancel_right same ▸ List.prefix_refl _)
    · exact outside (stem_prefix_stem.mpr (.inr ((stem_prefix_marker whole).mp below)))
  rw [moveDirectory_succ, also.stem, proper.stem_plain old, proper.stem_plain new, if_neg outside]
  apply Ensures.bind (ensures_requireChildren proper old neat false)
  · intro children listed gathered
    obtain ⟨marked, merged⟩ := gathered.listed children rfl
    have bare : destination ++ fs.suffix ∉ listed.contents := fun present =>
      unmarked ((Contents.mem_of_lookup_eq (gathered.heals.outside free)).mp present)
    have asked := Contents.mem_of_lookup_eq
      (gathered.heals.unmarked (trailed_ne_marker proper new trailed))
    apply Ensures.bind (ensures_requireAbsent_trailed proper new trailed)
    · intro _ reached looked
      obtain ⟨heals, taken, _⟩ := looked
      have entries : (fs.moveEntry depth source place : Entry → Store.Action Memory.Cursor Unit) =
          fs.moveEntry depth source destination := by
        funext entry
        rw [moveEntry, moveEntry, trailed.join_eq]
      have rest : Keeps (Contents.Retains fs.suffix (destination ++ fs.suffix))
          ((children.forM (fs.moveEntry depth source destination)).bind fun _ =>
            fs.removeDirectory source true) := by
        refine keeps_moveListed proper old new (fun entry member => ?_) (.retains free destination)
          (fun old new => keeps_moveDirectory proper old new depth)
        exact merged.plain_of_mem whole proper.suffix_ne_nil neat member
      have copies : (fs.copyMarker source place : Store.Action Memory.Cursor Unit) =
          fs.copyMarker source destination := by
        rw [copyMarker, copyMarker, also.markerKey]
      have spared : place ∉ memory.contents := fun present => taken rfl (asked.mpr present)
      rw [entries, copies]
      apply Ensures.bind (ensures_copyMarker proper old new)
      · rintro _ copied (⟨_, content, _, rfl⟩ | ⟨⟨_, ⟨⟩⟩, _⟩)
        have retains : Contents.Retains fs.suffix (destination ++ fs.suffix)
            (reached.insert (destination ++ fs.suffix) content).contents := by
          refine ⟨(heals.neat (gathered.heals.neat neat)).insert fun _ => ?_, ?_⟩
          · exact ⟨destination, new, .inr (.inl rfl)⟩
          · exact Contents.mem_iff_lookup.mpr
              ⟨content, (Contents.lookup_insert ..).trans (if_pos rfl)⟩
        apply Ensures.mono (rest _ retains)
        exact fun _ _ kept => iff_of_true kept.present spared
      · rintro failure copied (⟨⟨⟩, _⟩ | ⟨_, _, missing⟩)
        exact (missing (heals.mem marked)).elim fun _ => False.elim
    · intro failure reached looked
      obtain ⟨_, _, refused⟩ := looked
      rw [refused failure rfl, asked]
      exact or_iff_left bare
  · intro failure listed gathered
    exact absurd (gathered.stopped failure rfl there) clear

/-- The same for the answer of a rename. -/
theorem marked_renameDirectory (old : Path.Plain fs.suffix source)
    (new : Path.Plain fs.suffix destination) (neat : memory.contents.Neat fs.suffix)
    (from_source : source.Trailed begun) (trailed : destination.Trailed place)
    (there : memory.contents.HasDirectory fs.suffix source)
    (outside : ¬ source ++ [separator] <+: destination ++ [separator])
    (unmarked : destination ++ fs.suffix ∉ memory.contents)
    (roomy : fs.Roomy fs.limits.depth source memory.contents) :
    destination ++ fs.suffix ∈
        ((fs.renameDirectory begun place).run Memory.serve memory).state.contents ↔
      place ∉ memory.contents := by
  have same := sameDirectory_trailed proper old from_source
  have moves : Echoes (I := Store.interface Memory.Cursor) Eq
      (fs.moveDirectory fs.limits.depth begun place)
      (fs.moveDirectory fs.limits.depth source place) :=
    echoes_moveDirectory same (.refl place) (.refl _) _
  obtain ⟨depth, levels⟩ := Nat.exists_eq_succ_of_ne_zero (Nat.ne_zero_of_lt roomy.some_depth)
  rw [renameDirectory, (Program.run_succeeds ..).2.1, (moves.endsAs memory).2, levels]
  exact Memory.run_of_ensures (ensures_moveDirectory_marks proper old new neat trailed there outside
    unmarked roomy.not_obstructed depth)

end FileSystem

/-- The operation with something behind the path of its directory, and of where a directory is
renamed to. -/
def Operation.trailed (trail behind : Path) : Operation → Operation
  | .isDirectory path => .isDirectory (path ++ trail)
  | .makeDirectories path createParents => .makeDirectories (path ++ trail) createParents
  | .deleteDirectory path recursive => .deleteDirectory (path ++ trail) recursive
  | .renameDirectory source destination =>
    .renameDirectory (source ++ trail) (destination ++ behind)
  | .children path recursive => .children (path ++ trail) recursive
  | operation => operation

namespace FileSystem
open Program (EndsAs)
variable {fs : FileSystem} {memory : Memory} {operation : Operation} {trail behind : Path}
  (proper : fs.Proper)
  (plain : ∀ path ∈ operation.paths, Path.Plain fs.suffix path)
  (bare : trail = [] ∨ trail = [separator]) (last : behind = [] ∨ behind = [separator])
include proper plain bare last

/-- With separators behind its paths, an operation does the same. -/
theorem perform_trailed (neat : memory.contents.Neat fs.suffix)
    (clear : ∀ path, ¬ fs.Obstructed (fun _ => False) memory.contents path)
    (alike : ∀ source destination, operation = .renameDirectory source destination →
      behind = [] ∨ memory.contents.Indifferent fs.suffix source destination) :
    ((fs.perform (operation.trailed trail behind)).run Memory.serve memory).result =
        ((fs.perform operation).run Memory.serve memory).result ∧
      ((fs.perform (operation.trailed trail behind)).run Memory.serve memory).state =
        ((fs.perform operation).run Memory.serve memory).state := by
  have trailed : ∀ path : Path, path.Trailed (path ++ trail) := by
    intro path
    cases bare with
    | inl none => exact .inl (by rw [none, List.append_nil])
    | inr one => exact .inr (by rw [one])
  cases operation with
  | isDirectory path =>
    have here := plain path (.head _)
    have same := sameDirectory_trailed proper here (trailed path)
    apply ((echoes_isDirectory same).endsAs memory).map
    obtain ⟨found, told, _⟩ := run_isDirectory memory proper here
    simp [told]
  | makeDirectories path createParents =>
    have here := plain path (.head _)
    have same := sameDirectory_trailed proper here (trailed path)
    have makes : (fs.makeDirectory (path ++ trail) createParents : Store.Action Memory.Cursor Unit) =
        fs.makeDirectory path createParents := by
      rw [makeDirectory, makeDirectory, same.isRoot, proper.isRoot_plain here,
        if_neg Bool.false_ne_true, if_neg Bool.false_ne_true, (trailed path).trimEnd_eq]
    have ends : EndsAs Memory.serve memory (fs.makeDirectories (path ++ trail) createParents)
        (fs.makeDirectories path createParents) := by
      rw [makeDirectories, makeDirectories, makes]
      exact EndsAs.succeeds (.refl _) _ _
    exact ends.map (Program.run_succeeds_unrefused _ _ memory)
  | deleteDirectory path recursive =>
    have same := sameDirectory_trailed proper (plain path (.head _)) (trailed path)
    apply ((echoes_deleteDirectory same recursive).endsAs memory).map
    exact Program.run_succeeds_unrefused _ _ memory
  | renameDirectory source destination =>
    have placed : destination.Trailed (destination ++ behind) := by
      cases last with
      | inl none => exact .inl (by rw [none, List.append_nil])
      | inr one => exact .inr (by rw [one])
    have moves : EndsAs Memory.serve memory
        (fs.renameDirectory (source ++ trail) (destination ++ behind))
        (fs.renameDirectory source destination) := by
      apply EndsAs.succeeds
      apply endsAs_moveDirectory proper (plain source (.head _))
        (plain destination (.tail _ (.head _))) neat (trailed source) placed
      exact (alike source destination rfl).imp_left fun none => by rw [none, List.append_nil]
    exact moves.map (Program.run_succeeds_unrefused _ _ memory)
  | children path recursive =>
    have here := plain path (.head _)
    have same := sameDirectory_trailed proper here (trailed path)
    apply ((echoes_children same recursive).endsAs memory).map
    intro cause refused
    have enumerated := Memory.run_of_ensures (ensures_children proper here neat recursive)
    exact clear path (enumerated.stopped _ refused)
  | isFile _ | parentExists _ | writeFile _ _ | deleteFile _ | renameFile _ _ | size _
  | modificationTime _ => exact ⟨rfl, rfl⟩

/-- In tidy contents, directories are the same with or without a separator behind their paths,
but for the destination of a rename: there it is the same exactly if the rename does not turn on
whether the file or the placeholder is looked for. -/
theorem perform_trailed_iff {pageSize : Nat} (tidy : memory.contents.Tidy fs.suffix)
    (read : fs.settings.pageSize = .ok pageSize)
    (room : memory.contents.reach ≤ min fs.limits.pages fs.limits.depth) :
    let slashed := (fs.perform (operation.trailed trail behind)).run Memory.serve memory
    let bare := (fs.perform operation).run Memory.serve memory
    slashed.result = bare.result ∧ slashed.state.contents = bare.state.contents ↔
      behind = [] ∨ ∀ source destination, operation = .renameDirectory source destination →
        memory.contents.Indifferent fs.suffix source destination := by
  intro slashed plainly
  have pages := Nat.le_trans room (Nat.min_le_left _ _)
  have deep := Nat.le_trans room (Nat.min_le_right _ _)
  have roomy : ∀ path, fs.Roomy fs.limits.depth path memory.contents :=
    fun path => .of_reach read pages deep
  have clear := fun path => (roomy path).not_obstructed
  constructor
  · rintro ⟨_, stores⟩
    apply last.imp_right
    rintro rfl source destination rfl
    by_contra decisive
    simp only [Contents.Indifferent, not_or, not_not] at decisive
    obtain ⟨unmarked, differ, there, outside⟩ := decisive
    have marks : ∀ {begun place : Path}, source.Trailed begun → destination.Trailed place →
        (destination ++ fs.suffix ∈
          ((fs.renameDirectory begun place).run Memory.serve memory).state.contents ↔
            place ∉ memory.contents) := fun begins goes =>
      marked_renameDirectory proper (plain source (.head _)) (plain destination (.tail _ (.head _)))
        tidy.neat begins goes there outside unmarked (roomy source)
    have begins : source.Trailed (source ++ trail) := by
      cases bare with
      | inl none => exact .inl (by rw [none, List.append_nil])
      | inr one => exact .inr (by rw [one])
    have behind := marks begins (.inr rfl)
    have without := marks (.inl rfl) (.inl rfl)
    simp only [slashed, plainly, Operation.trailed, perform, Program.run_map_state] at stores
    rw [stores, without] at behind
    exact differ (not_iff_not.mp behind)
  · intro alike
    obtain ⟨results, states⟩ := perform_trailed proper plain bare last tidy.neat clear
      fun source destination renames => alike.imp_right fun every => every _ _ renames
    exact ⟨results, congrArg Memory.contents states⟩

omit proper plain bare last in
/-- Separators behind both paths of a rename to a free place. -/
theorem perform_trailed_iff_free :
    let memory := Memory.holding [("a/x".toList, [120]), ("b".toList, [121])]
    let operation := Operation.renameDirectory "a".toList "c".toList
    let slashed := (usual.perform (operation.trailed [separator] [separator])).run Memory.serve memory
    let bare := (usual.perform operation).run Memory.serve memory
    (∀ path ∈ operation.paths, Path.Plain usual.suffix path) ∧
      memory.contents.Tidy usual.suffix ∧
      memory.contents.Indifferent usual.suffix "a".toList "c".toList ∧
      slashed.result = bare.result ∧ slashed.state.contents = bare.state.contents := by
  intro memory operation slashed plainly
  have plain : ∀ path ∈ operation.paths, Path.Plain usual.suffix path := by decide
  have tidy : memory.contents.Tidy usual.suffix := by decide +kernel
  have free : memory.contents.Indifferent usual.suffix "a".toList "c".toList :=
    .inr (.inl (by decide +kernel))
  have same := perform_trailed_iff usual_proper plain (.inr rfl) (.inr rfl) tidy
    (Settings.pageSize_integer rfl) (by decide +kernel)
  refine ⟨plain, tidy, free, same.mpr (.inr ?_)⟩
  intro source destination renames
  obtain ⟨rfl, rfl⟩ := Operation.renameDirectory.inj renames
  exact free

omit proper plain bare last in
/-- A file at the destination is overlooked behind a separator. -/
theorem not_perform_trailed : ¬ ∀ (fs : FileSystem) (operation : Operation) (memory : Memory)
    (trail behind : Path), fs.Proper →
    (∀ path ∈ operation.paths, Path.Plain fs.suffix path) →
    (trail = [] ∨ trail = [separator]) → (behind = [] ∨ behind = [separator]) →
    memory.contents.Tidy fs.suffix →
    let slashed := (fs.perform (operation.trailed trail behind)).run Memory.serve memory
    let bare := (fs.perform operation).run Memory.serve memory
    slashed.result = bare.result ∧ slashed.state.contents = bare.state.contents := by
  intro same
  have answers := (same usual (.renameDirectory "a".toList "b".toList)
    (.holding [("a/x".toList, [120]), ("b".toList, [121])]) [] [separator] usual_proper (by decide)
    (.inl rfl) (.inr rfl) (by decide +kernel)).1
  have slashed : ((usual.perform (.renameDirectory "a".toList "b/".toList)).run Memory.serve
      (.holding [("a/x".toList, [120]), ("b".toList, [121])])).result = .ok (.truth true) := by
    decide +kernel
  have bare : ((usual.perform (.renameDirectory "a".toList "b".toList)).run Memory.serve
      (.holding [("a/x".toList, [120]), ("b".toList, [121])])).result = .ok (.truth false) := by
    decide +kernel
  exact nomatch slashed.symm.trans (answers.trans bare)

end FileSystem
end KeyTree
