import KeyTree.Proofs.Commuting

/-!
Making directories one by one. A directory can be made by itself, in one that is there, or with
everything above it. Making each of those above it by itself, the outermost first, and then the
directory, comes to the same: the two give markers to different directories that were there before,
but they meet the same file, and in the end the same paths are directories
(`makeDirectories_stepwise`).
-/
namespace KeyTree

open KeyTree.Path (separator)
open Program (Ensures Returns)

/-- A directory can be made here by itself: the one above it is there, and no file is in its
place. -/
def Contents.Seats (suffix : Key) (contents : Contents) (path : Path) : Prop :=
  contents.Lodged suffix path ∧ (path ∈ contents → contents.HasDirectory suffix path)

/-- No file has changed, and the new directories are those up to the path, if the condition
holds. -/
structure Paved (suffix : Key) (path : Path) (condition : Prop) (before after : Contents) : Prop where
  files : ∀ key, Path.Plain suffix key → after[key]? = before[key]?
  directories : ∀ other, after.HasDirectory suffix other ↔
    before.HasDirectory suffix other ∨ condition ∧ path.UpTo other

namespace Paved
variable {suffix : Key} {path : Path} {condition : Prop} {region : Path → Prop}
  {before after : Contents}

/-- New markers are those of directories that were there, or of the path if it is made. -/
theorem of_gains (whole : separator ∉ suffix) (gains : Gains suffix region before after)
    (bound : ∀ other, region other →
      before.HasDirectory suffix other ∨ condition ∧ path.UpTo other)
    (made : condition → region path ∨ before.HasDirectory suffix path) :
    Paved suffix path condition before after where
  files key plain := by
    apply gains.same
    rintro ⟨_, other, _, same⟩
    exact marker_ne whole plain other same.symm
  directories other := by
    rw [gains.hasDirectory_iff whole]
    constructor
    · rintro (there | ⟨inner, here, upTo⟩)
      · exact .inl there
      · exact (bound inner here).imp (·.upTo upTo) fun fresh => ⟨fresh.1, fresh.2.trans upTo⟩
    · rintro (there | ⟨holds, upTo⟩)
      · exact .inl there
      · exact (made holds).symm.imp (·.upTo upTo) fun here => ⟨path, here, upTo⟩

variable (paved : Paved suffix path condition before after)
include paved

/-- A path that is not up to the one that was made is what it was. -/
theorem hasDirectory_child_iff {name : Path} :
    after.HasDirectory suffix (path ++ separator :: name) ↔
      before.HasDirectory suffix (path ++ separator :: name) := by
  rw [paved.directories]
  refine or_iff_left fun fresh => ?_
  have below : (path ++ separator :: name).Above (path ++ separator :: name) :=
    Path.UpTo.above_child fresh.2
  exact Path.not_above_self below

/-- With everything above it made, a name can be made by itself unless a file is in its place. -/
theorem seats_iff {name : Path} (plain : Path.Plain suffix (path ++ separator :: name))
    (first : separator ∉ name) (made : condition) :
    after.Seats suffix (path ++ separator :: name) ↔
      (path ++ separator :: name ∈ before →
        before.HasDirectory suffix (path ++ separator :: name)) := by
  have lodged : after.Lodged suffix (path ++ separator :: name) := fun outer _ above =>
    (paved.directories outer).mpr (.inr ⟨made, (Path.above_child_iff first).mp above⟩)
  rw [Contents.Seats, and_iff_right lodged, paved.hasDirectory_child_iff,
    Contents.mem_of_lookup_eq (paved.files _ plain)]

/-- A path made after the one above it; where it is not made, nothing was missing above it. -/
theorem child {name : Path} {seated : Prop} {later : Contents}
    (next : Paved suffix (path ++ separator :: name) seated after later)
    (stands : ¬ seated → before.HasDirectory suffix path) :
    Paved suffix (path ++ separator :: name) seated before later where
  files key plain := (next.files key plain).trans (paved.files key plain)
  directories other := by
    rw [next.directories, paved.directories]
    constructor
    · rintro ((there | ⟨_, upTo⟩) | fresh)
      · exact .inl there
      · by_cases taken : seated
        · exact .inr ⟨taken, .inr upTo.above_child⟩
        · exact .inl ((stands taken).upTo upTo)
      · exact .inr fresh
    · exact Or.imp_left .inl

end Paved

namespace FileSystem
variable {fs : FileSystem} {memory : Memory} {path : Path}

/-- Makes paths one after the other, each by itself, up to the first that cannot be made. -/
def makeEach {Cursor : Type} (fs : FileSystem) : List Path → Store.Action Cursor Bool
  | [] => pure true
  | path :: later => do
    if ← fs.makeDirectories path false then fs.makeEach later else pure false

/-- What is above a path and the path itself, the outermost first. -/
def stages (fs : FileSystem) (path : Path) : List Path :=
  (fs.root.ancestors path).reverse ++ [path]

theorem makeEach_append {Cursor : Type} (earlier later : List Path) :
    (fs.makeEach (earlier ++ later) : Store.Action Cursor Bool) =
      (fs.makeEach earlier).bind fun made => if made then fs.makeEach later else pure false := by
  induction earlier with
  | nil => rfl
  | cons path rest ih =>
    rw [List.cons_append, makeEach, makeEach, Program.bind_eq_bind, Program.bind_eq_bind,
      Program.bind_assoc]
    congr 1
    funext made
    cases made with
    | true => exact ih
    | false => rfl

theorem makeEach_single {Cursor : Type} (path : Path) :
    (fs.makeEach [path] : Store.Action Cursor Bool) = fs.makeDirectories path false := by
  refine Eq.trans (congrArg (Program.bind _) (funext fun made => ?_)) (Program.bind_done _)
  cases made with
  | true => rfl
  | false => rfl

section proper
variable (proper : fs.Proper)
include proper

theorem stages_name (plain : Path.Plain fs.suffix path) (single : separator ∉ path) :
    fs.stages path = [path] := by
  rw [stages, Root.ancestors, parent?_name proper plain single]
  rfl

theorem stages_below {parent name : Path}
    (plain : Path.Plain fs.suffix (parent ++ separator :: name)) (first : separator ∉ name) :
    fs.stages (parent ++ separator :: name) =
      fs.stages parent ++ [parent ++ separator :: name] := by
  rw [stages, Root.ancestors, parent?_below proper plain first, stages]
  simp

/-- The stages of a plain path are the path and all that is above it. -/
theorem mem_stages_iff {other : Path} (plain : Path.Plain fs.suffix path) :
    other ∈ fs.stages path ↔ path.UpTo other := by
  induction path, plain using Path.Plain.last_induction with
  | alone name plain single =>
    rw [stages_name proper plain single, List.mem_singleton]
    exact (or_iff_left (Path.not_above_name single)).symm
  | below parent name above plain first ih =>
    rw [stages_below proper plain first, List.mem_append, List.mem_singleton, ih, or_comm]
    exact or_congr_right (Path.above_child_iff first).symm

/-- Each of them is above those that come later. -/
theorem pairwise_stages (plain : Path.Plain fs.suffix path) :
    (fs.stages path).Pairwise fun outer inner => inner.Above outer := by
  induction path, plain using Path.Plain.last_induction with
  | alone name plain single =>
    rw [stages_name proper plain single]
    exact List.pairwise_singleton _ _
  | below parent name above plain first ih =>
    rw [stages_below proper plain first, List.pairwise_append]
    refine ⟨ih, List.pairwise_singleton _ _, fun outer member inner last => ?_⟩
    obtain rfl := List.mem_singleton.mp last
    exact ((mem_stages_iff proper above).mp member).above_child

theorem returns_parentExists_lodged (plain : Path.Plain fs.suffix path) :
    (fs.parentExists path).Returns (Memory.may fun _ => False) memory fun found later =>
      (found = true ↔ memory.contents.Lodged fs.suffix path) ∧ ∃ region,
        (∀ other, region other → memory.contents.HasDirectory fs.suffix other) ∧
        Gains fs.suffix region memory.contents later.contents := by
  rcases plain.cut_last with single | ⟨parent, name, first, above, rfl⟩
  · rw [parentExists, parent?_name proper plain single]
    exact ⟨true, rfl, iff_of_true rfl (Contents.lodged_of_not_mem single), fun _ => False,
      fun _ => False.elim, .refl fun _ => False.elim⟩
  · rw [parentExists, parent?_below proper plain first]
    apply Returns.mono (returns_isDirectory_gains proper above)
    rintro found later (⟨rfl, there, gains⟩ | ⟨rfl, missing, rfl⟩)
    · exact ⟨iff_of_true rfl (there.lodges first), (· = parent), fun _ same => same ▸ there, gains⟩
    · refine ⟨iff_of_false Bool.false_ne_true fun lodged => ?_, fun _ => False,
        fun _ => False.elim, .refl fun _ => False.elim⟩
      exact missing (lodged parent above stem_prefix_append)

/-- A path by itself is made exactly if it has its seat. -/
theorem ensures_makeDirectory_alone (plain : Path.Plain fs.suffix path) :
    (fs.makeDirectory path false).Ensures (Memory.may fun _ => False) memory fun result later =>
      Tells (memory.contents.Seats fs.suffix path) result ∧
        Paved fs.suffix path (memory.contents.Seats fs.suffix path) memory.contents
          later.contents := by
  have whole := proper.suffix_whole
  rw [makeDirectory, proper.isRoot_plain plain, if_neg Bool.false_ne_true, plain.trimEnd_eq]
  apply Returns.bind (returns_isDirectory_gains proper plain)
  rintro found looked (⟨rfl, there, gains⟩ | ⟨rfl, missing, rfl⟩)
  · exact ⟨.inl ⟨⟨fun outer _ above => there.above above, fun _ => there⟩, rfl⟩,
      .of_gains whole gains (fun _ same => .inl (same ▸ there)) fun _ => .inr there⟩
  · apply Returns.bind (returns_isFile_exact fs looked path)
    rintro file asked ⟨present, rfl⟩
    rw [proper.relative_plain plain] at present
    cases file with
    | true =>
      have blocked : ¬ asked.contents.Seats fs.suffix path :=
        fun seats => missing (seats.2 (present.mp rfl))
      exact ⟨.inr ⟨blocked, _, rfl⟩, .of_gains whole (.refl fun _ => False.elim)
        (fun _ => False.elim) fun seats => absurd seats blocked⟩
    | false =>
      have free : path ∉ asked.contents := fun there => Bool.false_ne_true (present.mpr there)
      have seats_iff : asked.contents.Seats fs.suffix path ↔
          asked.contents.Lodged fs.suffix path := and_iff_left fun there => absurd there free
      apply Returns.bind (returns_parentExists_lodged proper plain)
      rintro seated later ⟨lodged, region, within, heals⟩
      have unfiled : path ∉ later.contents := (heals.file_iff whole plain).not.mpr free
      cases seated with
      | false =>
        have blocked : ¬ asked.contents.Seats fs.suffix path :=
          fun seats => Bool.false_ne_true (lodged.mpr (seats_iff.mp seats))
        exact ⟨.inr ⟨blocked, _, rfl⟩, .of_gains whole heals (fun other here =>
          .inl (within other here)) fun seats => absurd seats blocked⟩
      | true =>
        have seats := seats_iff.mpr (lodged.mp rfl)
        have unmarked : path ++ fs.suffix ∉ later.contents := by
          intro marked
          rcases heals.mem_iff.mp marked with old | ⟨other, here, same⟩
          · exact missing (.inl old)
          · exact missing (List.append_cancel_right same ▸ within other here)
        apply Ensures.mono (ensures_requireMarker_topped proper plain unmarked unfiled)
        rintro result final ⟨⟨_, rfl⟩ | ⟨taken, _⟩, marks⟩
        · refine ⟨.inl ⟨seats, rfl⟩, .of_gains whole (heals.trans marks) ?_ fun _ =>
            .inl (.inr ⟨rfl, unfiled⟩)⟩
          rintro other (here | ⟨rfl, _⟩)
          · exact .inl (within other here)
          · exact .inr ⟨seats, .inl rfl⟩
        · exact absurd unfiled taken

theorem returns_makeDirectories_alone (plain : Path.Plain fs.suffix path) :
    (fs.makeDirectories path false).Returns (Memory.may fun _ => False) memory fun made later =>
      (made = true ↔ memory.contents.Seats fs.suffix path) ∧
        Paved fs.suffix path (memory.contents.Seats fs.suffix path) memory.contents
          later.contents :=
  Returns.succeeds_tells (ensures_makeDirectory_alone proper plain) _

/-- A path with everything above it. -/
theorem returns_makeDirectories_paved (plain : Path.Plain fs.suffix path) :
    (fs.makeDirectories path true).Returns (Memory.may fun _ => False) memory fun made later =>
      (made = true ↔ memory.contents.Clear fs.suffix path.UpTo) ∧
        Paved fs.suffix path (memory.contents.Clear fs.suffix path.UpTo) memory.contents
          later.contents := by
  apply Returns.mono (returns_makeDirectories_told proper plain)
  rintro made later ⟨told, gains⟩
  refine ⟨told, .of_gains proper.suffix_whole gains ?_ fun clear => ?_⟩
  · rintro other ⟨⟨upTo, _, clear⟩ | innermost, _⟩
    · exact .inr ⟨clear, upTo⟩
    · exact .inl innermost.there
  · by_cases there : memory.contents.HasDirectory fs.suffix path
    · exact .inr there
    · exact .inl ⟨.inl ⟨.inl rfl, there, clear⟩, clear path (.inl rfl)⟩

/-- Its stages, one after the other. -/
theorem returns_makeEach (plain : Path.Plain fs.suffix path) :
    (fs.makeEach (fs.stages path)).Returns (Memory.may fun _ => False) memory fun made later =>
      (made = true ↔ memory.contents.Clear fs.suffix path.UpTo) ∧
        Paved fs.suffix path (memory.contents.Clear fs.suffix path.UpTo) memory.contents
          later.contents := by
  induction path, plain using Path.Plain.last_induction with
  | alone name plain single =>
    have clear : memory.contents.Seats fs.suffix name ↔
        memory.contents.Clear fs.suffix (Path.UpTo name) := by
      rw [Contents.clear_upTo_iff]
      exact and_congr_left' (iff_of_true (Contents.lodged_of_not_mem single)
        fun other above => absurd above (Path.not_above_name single))
    rw [stages_name proper plain single, makeEach_single, ← clear]
    exact returns_makeDirectories_alone proper plain
  | below parent name above plain first ih =>
    have clear : memory.contents.Clear fs.suffix (parent ++ separator :: name).UpTo ↔ _ :=
      Contents.clear_upTo_iff
    rw [Path.above_child first] at clear
    rw [stages_below proper plain first, makeEach_append]
    apply Returns.bind ih
    rintro made reached ⟨outer, paved⟩
    cases made with
    | false =>
      have blocked : ¬ memory.contents.Clear fs.suffix parent.UpTo :=
        fun holds => Bool.false_ne_true (outer.mpr holds)
      have stuck : ¬ memory.contents.Clear fs.suffix (parent ++ separator :: name).UpTo :=
        fun holds => blocked (clear.mp holds).1
      refine ⟨false, rfl, iff_of_false Bool.false_ne_true stuck, paved.files, fun other => ?_⟩
      rw [paved.directories, or_iff_left fun fresh => blocked fresh.1,
        or_iff_left fun fresh => stuck fresh.1]
    | true =>
      have made := outer.mp rfl
      rw [and_iff_right made, ← paved.seats_iff plain first made] at clear
      rw [clear, if_pos rfl, makeEach_single]
      apply Returns.mono (returns_makeDirectories_alone proper plain)
      rintro answer later ⟨told, next⟩
      -- The last step can only fail at a file, and above a file nothing was missing before.
      refine ⟨told, paved.child next fun unseated => ?_⟩
      rw [paved.seats_iff plain first made, Classical.not_imp] at unseated
      exact .inr ⟨_, unseated.1, stem_prefix_append⟩

end proper

/-- Making a path with everything above it answers as making what is above it, from the outermost
inwards, and then the path, each by itself, and leaves the same files and the same directories. -/
theorem makeDirectories_stepwise (proper : fs.Proper) (plain : Path.Plain fs.suffix path) :
    let whole := (fs.makeDirectories path true).run Memory.serve memory
    let steps := (fs.makeEach (fs.stages path)).run Memory.serve memory
    (∀ other, other ∈ fs.stages path ↔ path.UpTo other) ∧
      ((fs.stages path).Pairwise fun outer inner => inner.Above outer) ∧
      ∃ made, whole.result = .ok made ∧ steps.result = .ok made ∧
        (∀ key, Path.Plain fs.suffix key →
          whole.state.contents[key]? = steps.state.contents[key]?) ∧
        ∀ other, whole.state.contents.HasDirectory fs.suffix other ↔
          steps.state.contents.HasDirectory fs.suffix other := by
  intro whole steps
  obtain ⟨made, answered, told, paved⟩ :=
    Memory.run_of_ensures (returns_makeDirectories_paved proper plain)
  obtain ⟨also, ended, exactly, laid⟩ :=
    Memory.run_of_ensures (@returns_makeEach fs memory path proper plain)
  obtain rfl : also = made := by rw [Bool.eq_iff_iff, told, exactly]
  refine ⟨fun _ => mem_stages_iff proper plain, pairwise_stages proper plain, also, answered, ended,
    fun key named => ?_, fun other => ?_⟩
  · exact (paved.files key named).trans (laid.files key named).symm
  · exact (paved.directories other).trans (laid.directories other).symm

theorem makeDirectories_stepwise_inferred :
    let memory := Memory.holding [("a/b/x".toList, [120]), ("ab".toList, [97])]
    let whole := (usual.makeDirectories "a/b/c".toList true).run Memory.serve memory
    let steps := (usual.makeEach (usual.stages "a/b/c".toList)).run Memory.serve memory
    Path.Plain usual.suffix "a/b/c".toList ∧
      usual.stages "a/b/c".toList = ["a".toList, "a/b".toList, "a/b/c".toList] ∧
      whole.result = .ok true ∧ steps.result = .ok true ∧
      ("a_$folder$".toList ∉ whole.state.contents ∧ "a_$folder$".toList ∈ steps.state.contents) ∧
      ∀ other, whole.state.contents.HasDirectory usual.suffix other ↔
        steps.state.contents.HasDirectory usual.suffix other := by
  intro memory whole steps
  have plain : Path.Plain usual.suffix "a/b/c".toList := by decide
  obtain ⟨_, _, made, answered, ended, _, directories⟩ :=
    @makeDirectories_stepwise usual memory _ usual_proper plain
  have yes : whole.result = .ok true := by decide +kernel
  cases yes.symm.trans answered
  exact ⟨plain, by decide +kernel, yes, ended, by decide +kernel, directories⟩

end FileSystem
end KeyTree
