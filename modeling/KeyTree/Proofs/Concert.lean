import KeyTree.Proofs.Reference
import KeyTree.Proofs.Tandem

/-!
Sequences of operations beside each other. An operation on a memory and the same operation on
a backend that lists completely answer the same and leave the same contents, so the next one
starts from the same contents on both sides again. What a listing answers on either side is what
the keys tell. Limits that are wide enough for all the
contents that a sequence leads to are wide enough for the sequence.
-/
namespace KeyTree

open Program (Ensures Agrees)

/-- The same answer, but for the order of entries. -/
def Outcome.Same : Outcome → Outcome → Prop
  | .entries one, .entries other => SameEntries one other
  | one, other => one = other

/-- No name is told twice. -/
def Outcome.Once : Outcome → Prop
  | .entries (some children) => (children.map Entry.name).Nodup
  | _ => True

/-- The operation asks for the size or the time of an object. -/
def Operation.measures : Operation → Bool
  | .size _ | .modificationTime _ => true
  | _ => false

namespace FileSystem
variable {fs : FileSystem} {one other : Tuning} {right : Backend} {refusable : Prop}
  {contents : Contents} {path source destination : Path}

/-- No name is told twice, and what lists children answers and leaves what a listing is to answer
and leave: its entries are those that the keys tell. -/
structure Reports (fs : FileSystem) (operation : Operation) (before : Contents) (answer : Outcome)
    (after : Contents) : Prop where
  once : answer.Once
  lists : ∀ path recursive, operation = .children path recursive → ∃ listed,
    answer = .entries listed ∧ fs.Catalogued path recursive before listed after ∧
      ∀ children, listed = some children →
        Merged children (before.Tells fs.suffix (fs.root.stem path) recursive)

theorem Catalogued.reports (given : fs.suffix ≠ []) {recursive : Bool} {later : Contents}
    {listed : Option (List Entry)}
    (catalogued : fs.Catalogued path recursive contents listed later) :
    fs.Reports (.children path recursive) contents (.entries listed) later where
  once := by
    cases listed with
    | none => trivial
    | some children => exact catalogued.2.1.once
  lists := by
    rintro _ _ ⟨⟩
    refine ⟨listed, rfl, catalogued, ?_⟩
    rintro children rfl
    exact catalogued.2.1.congr fun entry _ => Contents.shown_iff_tells given

/-- Of what lists no children, nothing more is asked. -/
theorem Reports.of_other {operation : Operation} {answer : Outcome} {later : Contents}
    (once : answer.Once) (other : ∀ path recursive, operation ≠ .children path recursive) :
    fs.Reports operation contents answer later :=
  ⟨once, fun path recursive same => absurd same (other path recursive)⟩

/-- Both look for the object, and are refused if it is not there. -/
theorem agrees_requireStatus (faithful : right.Faithful) (contents : Contents)
    (allowed : refusable) (fs : FileSystem) (path : Path) :
    Agrees Memory.backend right refusable (fs.requireStatus path) (fs.requireStatus path) contents
      fun _ _ _ => True := by
  apply Agrees.look Memory.backend_faithful faithful
  · exact Agrees.bind (Agrees.notify _ _) fun _ _ _ _ => .refuse allowed _ _
  · exact fun _ _ => .done trivial

variable (proper : fs.Proper) (faithful : right.Faithful) (complete : fs.Complete right)
  (orderly : contents.Orderly fs.suffix) (ample : one.Ample contents.reach)
  (also : other.Ample contents.reach)
include proper faithful complete orderly ample also

theorem agrees_renameDirectory (old : fs.Place source) (new : fs.Place destination) :
    Agrees Memory.backend right refusable ((fs.tuned one).renameDirectory source destination)
      ((fs.tuned other).renameDirectory source destination) contents fun _ => Eq := by
  have deep : ∀ tuning : Tuning, tuning.Ample contents.reach →
      ∃ depth, tuning.limits.depth = depth + 1 := by
    intro tuning ample
    have roomy : (fs.tuned tuning).Roomy tuning.limits.depth source contents := .of_ample source ample
    exact Nat.exists_eq_succ_of_ne_zero (Nat.ne_of_gt roomy.some_depth)
  have moves : Agrees Memory.backend right True
      ((fs.tuned one).moveDirectory one.limits.depth source destination)
      ((fs.tuned other).moveDirectory other.limits.depth source destination) contents
      fun _ _ _ => True := by
    cases old with
    | inr root =>
      obtain ⟨depth, first⟩ := deep one ample
      obtain ⟨levels, second⟩ := deep other also
      have bare : fs.root.stem source <+: fs.root.stem destination :=
        (stem_root root).symm ▸ List.nil_prefix
      rw [first, second, moveDirectory_succ, moveDirectory_succ]
      exact Agrees.ite (fun _ => .refuse trivial _ _) fun outside => absurd bare outside
    | inl old =>
      cases new with
      | inl new =>
        exact agrees_moveDirectory proper faithful complete _ _ old new orderly
          (.of_ample source ample) (.of_ample source also)
      | inr root =>
        obtain ⟨depth, first⟩ := deep one ample
        obtain ⟨levels, second⟩ := deep other also
        rw [first, second, moveDirectory_succ, moveDirectory_succ]
        apply Agrees.ite (fun _ => .refuse trivial _ _)
        intro _
        apply Agrees.bind (agrees_requireChildren proper complete orderly (.inl old)
          (.of_ample _ ample) (.of_ample _ also) false)
        rintro listed children told _
        -- The root is never free, so nothing of the rest is reached.
        have taken : Memory.backend.Ends (fs.requireAbsent destination) listed fun result _ =>
            ∀ value, result = .ok value → False := by
          apply Memory.ends_of_ensures
          intro memory _
          apply Ensures.mono (ensures_requireAbsent_root root)
          rintro result final ⟨cause, rfl⟩ value ⟨⟩
        apply Agrees.bind ((mirrors_requireAbsent Memory.backend_faithful faithful fs destination
          listed).and_ends taken)
        exact fun _ _ _ both => both.2.elim
  exact moves.succeeds _ _

/-- One operation answers the same, and leaves the same contents. -/
theorem agrees_perform {operation : Operation} (placed : ∀ path ∈ operation.paths, fs.Place path) :
    Agrees Memory.backend right (operation.measures = true) ((fs.tuned one).perform operation)
      ((fs.tuned other).perform operation) contents
      fun later answer told => operation.measures = false → answer.Same told ∧
        fs.Reports operation contents answer later ∧ fs.Reports operation contents told later := by
  have memory := Memory.backend_faithful
  have truth : ∀ {refusable measured : Prop} {operation : Operation}
      {first : Store.Action Memory.Cursor Bool} {second : Store.Action right.Cursor Bool},
      Agrees Memory.backend right refusable first second contents (fun _ => Eq) →
      (∀ path recursive, operation ≠ .children path recursive) →
      Agrees Memory.backend right refusable (Outcome.truth <$> first) (Outcome.truth <$> second)
        contents fun later answer told => measured → answer.Same told ∧
          fs.Reports operation contents answer later ∧
          fs.Reports operation contents told later := by
    intro _ _ _ _ _ agrees unlisted
    exact agrees.bind fun _ _ _ same => .done fun _ =>
      ⟨congrArg Outcome.truth same, .of_other trivial unlisted, .of_other trivial unlisted⟩
  cases operation with
  | isDirectory path => exact truth (mirrors_isDirectory memory faithful fs path contents) nofun
  | isFile path => exact truth (mirrors_isFile memory faithful fs path contents) nofun
  | parentExists path => exact truth (mirrors_parentExists memory faithful fs path contents) nofun
  | makeDirectories path createParents =>
    rw [perform, perform, makeDirectories_tuned, makeDirectories_tuned]
    exact truth (mirrors_makeDirectories memory faithful fs path createParents contents) nofun
  | writeFile path written =>
    rw [perform, perform, writeFile_tuned, writeFile_tuned]
    apply Agrees.bind (mirrors_writeFile memory faithful fs path written contents)
    exact fun _ _ _ same => .done fun _ =>
      ⟨congrArg Outcome.written same, .of_other trivial nofun, .of_other trivial nofun⟩
  | deleteFile path => exact truth (mirrors_deleteFile memory faithful fs path contents) nofun
  | deleteDirectory path recursive =>
    exact truth ((agrees_removeDirectory proper faithful complete orderly (placed path (.head _))
      (.of_ample _ ample) (.of_ample _ also) recursive).succeeds _ _) nofun
  | renameFile source destination =>
    exact truth ((mirrors_moveFile memory faithful fs source destination contents).succeeds _ _)
      nofun
  | renameDirectory source destination =>
    exact truth (agrees_renameDirectory proper faithful complete orderly ample also
      (placed source (.head _)) (placed destination (.tail _ (.head _)))) nofun
  | children path recursive =>
    have given := proper.suffix_ne_nil
    apply Agrees.bind (agrees_children proper complete orderly (placed path (.head _))
      (.of_ample _ ample) (.of_ample _ also) recursive)
    rintro later listed told ⟨lists, tells⟩
    exact .done fun _ => ⟨(lists.agree tells).2, lists.reports given, tells.reports given⟩
  | size path =>
    have looks := agrees_requireStatus faithful contents (rfl : true = true) fs path
    have sizes : Agrees Memory.backend right (true = true) (fs.size path) (fs.size path) contents
        fun _ _ _ => True := looks.bind fun _ _ _ _ => .done trivial
    exact sizes.bind fun _ _ _ _ => .done (by simp [Operation.measures])
  | modificationTime path =>
    have looks := agrees_requireStatus faithful contents (rfl : true = true) fs path
    have times : Agrees Memory.backend right (true = true) (fs.modificationTimeMs path)
        (fs.modificationTimeMs path) contents fun _ _ _ => True :=
      looks.bind fun _ _ _ _ => .done trivial
    exact times.bind fun _ _ _ _ => .done (by simp [Operation.measures])

/-- The operation leaves the same contents on both sides and, unless it measures an object, is
answered for on both sides alike, by what the keys tell if it lists children. -/
def Matched (fs : FileSystem) (right : Backend) (one other : Tuning) (operation : Operation)
    (memory : Memory) (state : right.State) : Prop :=
  let first := ((fs.tuned one).perform operation).run Memory.serve memory
  let second := ((fs.tuned other).perform operation).run right.serve state
  first.state.contents = right.contents second.state ∧
    Matches (operation.measures = true)
      (fun answer told => operation.measures = false → answer.Same told ∧
        fs.Reports operation memory.contents answer first.state.contents ∧
        fs.Reports operation (right.contents state) told (right.contents second.state))
      first.result second.result

theorem matched_of_ample {operation : Operation} {memory : Memory} {state : right.State}
    (placed : ∀ path ∈ operation.paths, fs.Place path) (starts : memory.contents = contents)
    (begins : right.contents state = contents) : fs.Matched right one other operation memory state := by
  obtain ⟨later, reached, met, ends⟩ :=
    agrees_perform proper faithful complete orderly ample also placed memory state starts begins
  refine ⟨reached.trans met.symm, ?_⟩
  rw [starts, begins, met]
  subst reached
  exact ends

omit ample also in
/-- Along a whole sequence, with room for each of the contents that it leads to. -/
theorem exists_room_matched (operations : List Operation)
    (placed : ∀ operation ∈ operations, ∀ path ∈ operation.paths, fs.Place path) :
    ∃ room, ∀ one other : Tuning, one.Ample room → other.Ample room →
      ∀ (memory : Memory) (state : right.State), memory.contents = contents →
      right.contents state = contents → ∀ before operation, before ++ [operation] <+: operations →
        fs.Matched right one other operation ((fs.tuned one).reached before memory)
          (((fs.tuned other).performAll before).run right.serve state).state := by
  induction operations generalizing contents with
  | nil =>
    refine ⟨0, fun _ _ _ _ _ _ _ _ before operation within => ?_⟩
    simp at within
  | cons first later ih =>
    have places := placed first List.mem_cons_self
    -- One run shows where the first operation leads; all the others lead there, too.
    let wide := Tuning.wide contents.reach
    let ended := ((fs.tuned wide).perform first).run Memory.serve ⟨contents, ∅⟩
    have kept : ended.state.contents.Orderly fs.suffix :=
      Memory.run_of_ensures (keeps_perform_orderly (proper.tuned wide) places ⟨contents, ∅⟩ orderly)
    obtain ⟨room, matched⟩ := ih kept fun operation member =>
      placed operation (List.mem_cons_of_mem _ member)
    refine ⟨max contents.reach room, fun one other fits also memory state starts begins => ?_⟩
    have enough := fits.mono (Nat.le_max_left _ _)
    have plenty := also.mono (Nat.le_max_left _ _)
    have ample := Tuning.wide_ample contents.reach
    intro before operation within
    cases before with
    | nil =>
      obtain ⟨rfl, _⟩ := List.cons_prefix_cons.mp within
      exact matched_of_ample proper faithful complete orderly enough plenty places starts begins
    | cons head rest =>
      obtain ⟨rfl, inner⟩ := List.cons_prefix_cons.mp within
      rw [reached_cons, run_performAll_cons]
      apply matched one other (fits.mono (Nat.le_max_right _ _)) (also.mono (Nat.le_max_right _ _))
        _ _ ?_ ?_ rest operation inner
      · have leads : fs.Matched Memory.backend one wide head memory ⟨contents, ∅⟩ :=
          matched_of_ample proper Memory.backend_faithful (complete_memory proper) orderly enough
            ample places starts rfl
        exact leads.1
      · exact (matched_of_ample proper faithful complete orderly ample plenty places rfl begins).1.symm

end FileSystem
end KeyTree
