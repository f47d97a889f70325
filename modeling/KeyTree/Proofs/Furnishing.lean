import KeyTree.Proofs.Catalogue

/-!
Making a directory, to the last key. Going up from a path, the first directory gets its marker
if it has none. The paths below that one, down to the path itself, get markers if none of them
is a file, and otherwise none of them does (`ensures_makeDirectory_told`). Only the outermost of
them can be a file: whatever stands above a key is a directory.
-/
namespace KeyTree

open KeyTree.Path (separator)
open Program (Ensures Returns)

namespace Path
variable {path other parent name : Path}

theorem not_above_self : ¬ path.Above path := not_stem_prefix_self

theorem Above.trans {inner outer : Path} (first : path.Above inner) (second : inner.Above outer) :
    path.Above outer :=
  stem_prefix_trans second first

theorem UpTo.trans {inner outer : Path} (first : path.UpTo inner) (second : inner.UpTo outer) :
    path.UpTo outer := by
  rcases second with rfl | above
  · exact first
  · rcases first with rfl | higher
    · exact .inr above
    · exact .inr (higher.trans above)

theorem above_child_iff (first : separator ∉ name) :
    (parent ++ separator :: name).Above other ↔ parent.UpTo other :=
  (stem_prefix_child first).trans stem_prefix_stem

/-- What is above a path is what is up to the one right above it. -/
theorem above_child (first : separator ∉ name) : (parent ++ separator :: name).Above = parent.UpTo :=
  funext fun _ => propext (above_child_iff first)

/-- Nothing is above a name. -/
theorem not_above_name (single : separator ∉ path) : ¬ path.Above other :=
  fun above => single (above.subset (by simp))

/-- Of two paths at or above the same path one is at or above the other. -/
theorem UpTo.linear {one : Path} (first : path.UpTo one) (second : path.UpTo other) :
    one.UpTo other ∨ other.Above one := by
  rcases first with rfl | first
  · exact .inl second
  · rcases second with rfl | second
    · exact .inr first
    · cases List.prefix_or_prefix_of_prefix first second with
      | inl outer => exact (stem_prefix_stem.mp outer).imp (fun same => .inl same.symm) id
      | inr outer => exact .inl (stem_prefix_stem.mp outer)

/-- Whatever is at or above a plain path is plain. -/
theorem Plain.upTo {suffix : Key} (plain : Plain suffix path) (upTo : path.UpTo other) :
    Plain suffix other := by
  rcases upTo with rfl | above
  · exact plain
  · obtain ⟨rest, rfl⟩ := stem_prefix_iff.mp above
    exact (append_iff.mp plain).1

end Path

/-- Empty markers were put in for the paths of the region that had none. -/
def Gains (suffix : Key) (region : Path → Prop) (before : Contents) : Contents → Prop :=
  Blanks (fun key => key ∉ before ∧ ∃ path, region path ∧ key = path ++ suffix) before

namespace Gains
variable {suffix : Key} {region other : Path → Prop} {before middle after : Contents} {path : Path}

theorem refl (marked : ∀ path, region path → path ++ suffix ∈ before) :
    Gains suffix region before before := by
  have none_new : ∀ key, ¬ (key ∉ before ∧ ∃ path, region path ∧ key = path ++ suffix) := by
    rintro _ ⟨fresh, path, here, rfl⟩
    exact fresh (marked path here)
  exact .of_present (fun _ => .inl rfl) (fun key _ new => absurd new (none_new key))
    fun key new => absurd new (none_new key)

theorem insert (absent : path ++ suffix ∉ before) :
    Gains suffix (· = path) before (before.insert (path ++ suffix) []) := by
  apply (Rewrites.insert before (path ++ suffix) []).congr
  · intro key
    constructor
    · rintro rfl
      exact ⟨absent, path, rfl, rfl⟩
    · rintro ⟨_, _, rfl, same⟩
      exact same
  · intro key content
    apply and_congr_left'
    constructor
    · rintro rfl
      exact ⟨absent, path, rfl, rfl⟩
    · rintro ⟨_, _, rfl, same⟩
      exact same

variable (gains : Gains suffix region before after)
include gains

theorem congr (same : ∀ path, region path ↔ other path) : Gains suffix other before after := by
  rwa [← funext fun path => propext (same path)]

theorem mem_iff {key : Key} :
    key ∈ after ↔ key ∈ before ∨ ∃ path, region path ∧ key = path ++ suffix := by
  rw [Contents.mem_iff_lookup]
  constructor
  · rintro ⟨content, stored⟩
    rcases (gains.lookup_iff key content).mp stored with ⟨_, old⟩ | ⟨⟨_, new⟩, _⟩
    · exact .inl (Contents.mem_iff_lookup.mpr ⟨content, old⟩)
    · exact .inr new
  · intro there
    by_cases old : key ∈ before
    · obtain ⟨content, stored⟩ := Contents.mem_iff_lookup.mp old
      exact ⟨content, (gains.lookup_iff key content).mpr (.inl ⟨fun new => new.1 old, stored⟩)⟩
    · exact ⟨[], (gains.lookup_iff key []).mpr (.inr ⟨⟨old, there.resolve_left old⟩, rfl⟩)⟩

theorem trans (next : Gains suffix other after middle) :
    Gains suffix (fun path => region path ∨ other path) before middle := by
  have regions : ∀ key, ((key ∉ before ∧ ∃ path, region path ∧ key = path ++ suffix) ∨
      (key ∉ after ∧ ∃ path, other path ∧ key = path ++ suffix)) ↔
      key ∉ before ∧ ∃ path, (region path ∨ other path) ∧ key = path ++ suffix := by
    intro key
    rw [gains.mem_iff]
    constructor
    · rintro (⟨fresh, path, here, same⟩ | ⟨fresh, path, here, same⟩)
      · exact ⟨fresh, path, .inl here, same⟩
      · exact ⟨fun old => fresh (.inl old), path, .inr here, same⟩
    · rintro ⟨fresh, path, here, same⟩
      by_cases first : ∃ path, region path ∧ key = path ++ suffix
      · exact .inl ⟨fresh, first⟩
      · exact .inr ⟨fun old => old.elim fresh first, path,
          here.resolve_left fun member => first ⟨path, member, same⟩, same⟩
  apply (Rewrites.andThen gains next _).congr regions
  · intro key content
    rw [← or_and_right, regions]
  · rintro key content ⟨⟨_, new⟩, _⟩ ⟨fresh, _⟩
    exact fresh (gains.mem_iff.mpr (.inr new))

theorem file_iff (whole : separator ∉ suffix) (plain : Path.Plain suffix path) :
    path ∈ after ↔ path ∈ before := by
  rw [gains.mem_iff]
  apply or_iff_left
  rintro ⟨other, _, same⟩
  exact marker_ne whole plain other same.symm

/-- A path is a directory now if it was one before, or is at or above a new marker. -/
theorem hasDirectory_iff (whole : separator ∉ suffix) : after.HasDirectory suffix path ↔
    before.HasDirectory suffix path ∨ ∃ inner, region inner ∧ inner.UpTo path := by
  constructor
  · rintro (marked | ⟨key, present, below⟩)
    · rcases gains.mem_iff.mp marked with old | ⟨inner, here, same⟩
      · exact .inl (.inl old)
      · exact .inr ⟨inner, here, .inl (List.append_cancel_right same)⟩
    · rcases gains.mem_iff.mp present with old | ⟨inner, here, rfl⟩
      · exact .inl (.inr ⟨key, old, below⟩)
      · exact .inr ⟨inner, here, .inr ((stem_prefix_marker whole).mp below)⟩
  · rintro (there | ⟨inner, here, upTo⟩)
    · exact there.imp (fun marked => gains.mem_iff.mpr (.inl marked))
        fun ⟨key, present, below⟩ => ⟨key, gains.mem_iff.mpr (.inl present), below⟩
    · have marked : inner ++ suffix ∈ after := gains.mem_iff.mpr (.inr ⟨inner, here, rfl⟩)
      rcases upTo with rfl | above
      · exact .inl marked
      · exact .inr ⟨_, marked, (stem_prefix_marker whole).mpr above⟩

end Gains

namespace Contents
variable {suffix : Key} {contents : Contents} {chain : Path → Prop} {path other : Path}

/-- No path of the chain is a file, unless it is a directory as well. -/
def Clear (suffix : Key) (contents : Contents) (chain : Path → Prop) : Prop :=
  ∀ path, chain path → path ∈ contents → contents.HasDirectory suffix path

/-- The path is the innermost directory of the chain. -/
structure Innermost (suffix : Key) (contents : Contents) (chain : Path → Prop) (path : Path) :
    Prop where
  member : chain path
  there : contents.HasDirectory suffix path
  last : ∀ other, chain other → contents.HasDirectory suffix other → ¬ other.Above path

/-- A chain of directories to be made calls for a marker of this path. -/
def Owes (suffix : Key) (contents : Contents) (chain : Path → Prop) (path : Path) : Prop :=
  chain path ∧ ¬ contents.HasDirectory suffix path ∧ contents.Clear suffix chain ∨
    contents.Innermost suffix chain path

/-- Making the path puts a marker here, unless one is there: nothing is done where the path
itself is a file. -/
def Lays (suffix : Key) (contents : Contents) (path other : Path) : Prop :=
  contents.Owes suffix path.UpTo other ∧
    (path ∈ contents → contents.HasDirectory suffix path)

theorem Owes.member (owes : contents.Owes suffix chain path) : chain path :=
  owes.elim And.left Innermost.member

theorem HasDirectory.upTo (there : contents.HasDirectory suffix path) (upTo : path.UpTo other) :
    contents.HasDirectory suffix other := by
  rcases upTo with rfl | above
  · exact there
  · exact there.above above

theorem clear_upTo_iff : contents.Clear suffix path.UpTo ↔
    contents.Clear suffix path.Above ∧ (path ∈ contents → contents.HasDirectory suffix path) := by
  constructor
  · exact fun clear => ⟨fun other above => clear other (.inr above), clear path (.inl rfl)⟩
  · rintro ⟨above, here⟩ other (rfl | higher)
    · exact here
    · exact above other higher

theorem owes_upTo_of_there (there : contents.HasDirectory suffix path) :
    contents.Owes suffix path.UpTo other ↔ other = path := by
  constructor
  · rintro (⟨upTo, missing, _⟩ | ⟨rfl | above, _, last⟩)
    · exact absurd (there.upTo upTo) missing
    · rfl
    · exact absurd above (last path (.inl rfl) there)
  · rintro rfl
    refine .inr ⟨.inl rfl, there, ?_⟩
    rintro inner (rfl | above) _ below
    · exact Path.not_above_self below
    · exact Path.not_above_self (above.trans below)

theorem owes_upTo_of_free (missing : ¬ contents.HasDirectory suffix path)
    (free : path ∉ contents) : contents.Owes suffix path.UpTo other ↔
      contents.Owes suffix path.Above other ∨
        other = path ∧ contents.Clear suffix path.Above := by
  have clear : contents.Clear suffix path.UpTo ↔ contents.Clear suffix path.Above :=
    clear_upTo_iff.trans (and_iff_left fun present => absurd present free)
  constructor
  · rintro (⟨rfl | above, unmade, cleared⟩ | ⟨rfl | above, there, last⟩)
    · exact .inr ⟨rfl, clear.mp cleared⟩
    · exact .inl (.inl ⟨above, unmade, clear.mp cleared⟩)
    · exact absurd there missing
    · exact .inl (.inr ⟨above, there, fun inner higher => last inner (.inr higher)⟩)
  · rintro ((⟨above, unmade, cleared⟩ | ⟨above, there, last⟩) | ⟨rfl, cleared⟩)
    · exact .inl ⟨.inr above, unmade, clear.mpr cleared⟩
    · refine .inr ⟨.inr above, there, ?_⟩
      rintro inner (rfl | higher) found
      · exact absurd found missing
      · exact last inner higher found
    · exact .inl ⟨.inl rfl, missing, clear.mpr cleared⟩

/-- Above a file everything is a directory, so nothing is to be made there. -/
theorem owes_upTo_of_file (missing : ¬ contents.HasDirectory suffix path)
    (present : path ∈ contents) :
    contents.Owes suffix path.UpTo other ↔ contents.Owes suffix path.Above other := by
  constructor
  · rintro (⟨_, _, cleared⟩ | ⟨rfl | above, there, last⟩)
    · exact absurd (cleared path (.inl rfl) present) missing
    · exact absurd there missing
    · exact .inr ⟨above, there, fun inner higher => last inner (.inr higher)⟩
  · rintro (⟨above, unmade, _⟩ | ⟨above, there, last⟩)
    · exact absurd (.inr ⟨path, present, above⟩) unmade
    · refine .inr ⟨.inr above, there, ?_⟩
      rintro inner (rfl | higher) found
      · exact absurd found missing
      · exact last inner higher found

end Contents

/-- The result is a success where the condition holds, and a refusal elsewhere. -/
def Tells (condition : Prop) (result : Except Failure Unit) : Prop :=
  condition ∧ result = .ok () ∨ ¬ condition ∧ ∃ cause, result = .error (.refused cause)

theorem Tells.congr {one other : Prop} {result : Except Failure Unit} (tells : Tells one result)
    (same : one ↔ other) : Tells other result := by
  rwa [← propext same]

/-- A program that tells of a condition answers whether it holds. -/
theorem Program.Returns.succeeds_tells {I : Interface} {σ : Type} {may : Behaviour I σ} {state : σ}
    {program : Program I Unit} {condition : Prop} {post : σ → Prop}
    (ensured : program.Ensures may state fun result later => Tells condition result ∧ post later)
    (notice : Cause → Notice) :
    (program.succeeds notice).Returns may state fun answer later =>
      (answer = true ↔ condition) ∧ post later := by
  apply Returns.mono (Returns.succeeds ensured notice _)
  · rintro answer later (⟨rfl, ⟨holds, _⟩ | ⟨_, _, ⟨⟩⟩, left⟩ |
      ⟨rfl, _, ⟨_, ⟨⟩⟩ | ⟨fails, _⟩, left⟩)
    · exact ⟨iff_of_true rfl holds, left⟩
    · exact ⟨iff_of_false Bool.false_ne_true fails, left⟩
  · rintro failure later ⟨⟨_, ⟨⟩⟩ | ⟨_, cause, ⟨⟩⟩, _⟩
    exact ⟨cause, rfl⟩

namespace FileSystem
variable {fs : FileSystem} {memory : Memory} {path : Path}

/-- Makes what is missing above a path. -/
def furnish {Cursor : Type} (fs : FileSystem) (path : Path) : Store.Action Cursor Unit :=
  (fs.missing (fs.root.ancestors path)).bind fun outer => outer.forM fs.makeAncestor

variable (proper : fs.Proper)
include proper

theorem furnish_below {Cursor : Type} {parent name : Path}
    (plain : Path.Plain fs.suffix (parent ++ separator :: name)) (first : separator ∉ name) :
    (fs.furnish (parent ++ separator :: name) : Store.Action Cursor Unit) =
      (fs.isDirectory parent).bind fun found =>
        if found then pure () else (fs.furnish parent).bind fun _ => fs.makeAncestor parent := by
  rw [furnish, Root.ancestors, parent?_below proper plain first, missing, Program.bind_eq_bind,
    Program.bind_assoc]
  congr 1
  funext found
  cases found with
  | true => rfl
  | false =>
    rw [furnish, Program.bind_assoc]
    simp only [Bool.false_eq_true, if_false, Program.bind_eq_bind, Program.bind_assoc]
    congr 1
    funext outer
    exact List.forM_append.trans (congrArg _ (funext fun _ => Program.bind_done _))

/-- A look for a directory that is there leaves it with a marker, and one for any other path leaves
all as it was. -/
theorem returns_isDirectory_gains (plain : Path.Plain fs.suffix path) :
    (fs.isDirectory path).Returns (Memory.may fun _ => False) memory fun found later =>
      found = true ∧ memory.contents.HasDirectory fs.suffix path ∧
          Gains fs.suffix (· = path) memory.contents later.contents ∨
        found = false ∧ ¬ memory.contents.HasDirectory fs.suffix path ∧ later = memory := by
  by_cases marked : path ++ fs.suffix ∈ memory.contents
  · rw [← proper.markerKey_plain plain] at marked
    apply Returns.mono (returns_isDirectory_marked (proper.isRoot_plain plain) marked)
    rw [proper.markerKey_plain plain] at marked
    rintro found later ⟨rfl, rfl⟩
    exact .inl ⟨rfl, .inl marked, .refl fun _ same => same ▸ marked⟩
  · apply Returns.mono (returns_isDirectory proper plain)
    intro found later look
    cases found with
    | false =>
      obtain ⟨rfl, _⟩ := look.unmarked rfl fun _ => id
      exact .inr ⟨rfl, fun there => (look.missed rfl there).elim fun _ => id, rfl⟩
    | true =>
      have there := (look.heals.hasDirectory_iff proper.suffix_whole).mp (.inl (look.marked rfl))
      refine .inl ⟨rfl, there, .of_present ?_ ?_ ?_⟩
      · intro key
        by_cases own : key = path ++ fs.suffix
        · exact (look.heals key).imp_right fun new =>
            ⟨new.1, own ▸ marked, path, rfl, own⟩
        · exact .inl (look.only key own)
      · exact fun key content new stored =>
          absurd (Contents.mem_iff_lookup.mpr ⟨content, stored⟩) new.1
      · rintro key ⟨_, _, rfl, rfl⟩
        exact look.marked rfl

/-- What making a chain of directories leaves. -/
structure Laid (suffix : Key) (chain : Path → Prop) (before : Memory)
    (result : Except Failure Unit) (after : Memory) : Prop where
  tells : Tells (before.contents.Clear suffix chain) result
  gains : Gains suffix (before.contents.Owes suffix chain) before.contents after.contents

/-- What the last step of it leaves, which is about the path itself. -/
structure Topped (suffix : Key) (path : Path) (before : Memory) (result : Except Failure Unit)
    (after : Memory) : Prop where
  tells : Tells (path ∉ before.contents) result
  gains : Gains suffix (fun other => other = path ∧ path ∉ before.contents) before.contents
    after.contents

omit proper in
theorem makeMissing_furnish {Cursor : Type} (path : Path) :
    (fs.makeMissing path true : Store.Action Cursor Unit) =
      (fs.furnish path).bind fun _ => fs.requireMarker path :=
  (Program.bind_assoc _ _ _).symm

theorem ensures_requireMarker_topped (plain : Path.Plain fs.suffix path)
    (unmarked : path ++ fs.suffix ∉ memory.contents) (free : path ∉ memory.contents) :
    (fs.requireMarker path).Ensures (Memory.may fun _ => False) memory
      (Topped fs.suffix path memory) := by
  rw [requireMarker, createMarker, proper.markerKey_plain plain]
  apply Returns.bind (Memory.returns_createEmpty _ memory _)
  rintro made later (⟨rfl, rfl⟩ | ⟨_, _, ⟨⟩⟩)
  exact ⟨.inl ⟨free, rfl⟩, (Gains.insert unmarked).congr fun other => (and_iff_left free).symm⟩

theorem ensures_makeAncestor_topped (plain : Path.Plain fs.suffix path)
    (unmarked : path ++ fs.suffix ∉ memory.contents) :
    (fs.makeAncestor path).Ensures (Memory.may fun _ => False) memory
      (Topped fs.suffix path memory) := by
  apply Returns.bind (returns_isFile_exact fs memory path)
  rintro file later ⟨exactly, rfl⟩
  rw [proper.relative_plain plain] at exactly
  cases file with
  | true =>
    have present := exactly.mp rfl
    exact ⟨.inr ⟨fun free => free present, _, rfl⟩, .refl fun _ here => absurd present here.2⟩
  | false =>
    exact ensures_requireMarker_topped proper plain unmarked fun present =>
      Bool.false_ne_true (exactly.mpr present)

/-- Once everything above a path that is no directory is made, the path itself comes last. -/
theorem ensures_furnish_topped {last : Store.Action Memory.Cursor Unit}
    (plain : Path.Plain fs.suffix path)
    (missing : ¬ memory.contents.HasDirectory fs.suffix path)
    (above : (fs.furnish path).Ensures (Memory.may fun _ => False) memory
      (Laid fs.suffix path.Above memory))
    (tops : ∀ later : Memory, path ++ fs.suffix ∉ later.contents →
      (path ∈ later.contents ↔ path ∈ memory.contents) →
      last.Ensures (Memory.may fun _ => False) later (Topped fs.suffix path later)) :
    ((fs.furnish path).bind fun _ => last).Ensures (Memory.may fun _ => False) memory
      (Laid fs.suffix path.UpTo memory) := by
  have whole := proper.suffix_whole
  have clear : memory.contents.Clear fs.suffix path.UpTo ↔
      memory.contents.Clear fs.suffix path.Above ∧ path ∉ memory.contents :=
    Contents.clear_upTo_iff.trans
      (and_congr_right fun _ => imp_congr_right fun _ => iff_false_intro missing)
  apply Ensures.bind above
  · rintro _ later ⟨⟨cleared, _⟩ | ⟨_, _, ⟨⟩⟩, gains⟩
    have file := gains.file_iff whole plain
    have unmarked : path ++ fs.suffix ∉ later.contents := by
      intro marked
      rcases gains.mem_iff.mp marked with old | ⟨other, owed, same⟩
      · exact missing (.inl old)
      · exact Path.not_above_self (List.append_cancel_right same ▸ owed.member)
    apply Ensures.mono (tops later unmarked file)
    rintro result final ⟨tells, topped⟩
    refine ⟨tells.congr ?_, (gains.trans topped).congr fun other => ?_⟩
    · rw [file, clear, and_iff_right cleared]
    · rw [file]
      by_cases present : path ∈ memory.contents
      · rw [Contents.owes_upTo_of_file missing present]
        simp [present]
      · rw [Contents.owes_upTo_of_free missing present]
        simp [present, cleared]
  · rintro failure later ⟨⟨_, ⟨⟩⟩ | ⟨unclear, refused⟩, gains⟩
    refine ⟨.inr ⟨fun cleared => unclear (clear.mp cleared).1, refused⟩, gains.congr fun other => ?_⟩
    by_cases present : path ∈ memory.contents
    · rw [Contents.owes_upTo_of_file missing present]
    · rw [Contents.owes_upTo_of_free missing present]
      simp [unclear]

theorem ensures_furnish (plain : Path.Plain fs.suffix path) :
    (fs.furnish path).Ensures (Memory.may fun _ => False) memory
      (Laid fs.suffix path.Above memory) := by
  induction path, plain using Path.Plain.last_induction generalizing memory with
  | alone name plain single =>
    rw [furnish, Root.ancestors, parent?_name proper plain single]
    exact ⟨.inl ⟨fun other above => absurd above (Path.not_above_name single), rfl⟩,
      .refl fun other owed => absurd owed.member (Path.not_above_name single)⟩
  | below parent name above plain first ih =>
    rw [furnish_below proper plain first, Path.above_child first]
    apply Returns.bind (returns_isDirectory_gains proper above)
    rintro found looked (⟨rfl, there, gains⟩ | ⟨rfl, missing, rfl⟩)
    · refine ⟨.inl ⟨fun other upTo _ => there.upTo upTo, rfl⟩, gains.congr fun other => ?_⟩
      exact (Contents.owes_upTo_of_there there).symm
    · apply ensures_furnish_topped proper above missing ih
      intro later unmarked _
      exact ensures_makeAncestor_topped proper above unmarked

/-- Making a directory succeeds where no file is in the way. It marks the innermost directory
that is there and all that is missing below it; where a file is in the way it only marks that
directory, and not even that if the path itself is the file. -/
theorem ensures_makeDirectory_told (plain : Path.Plain fs.suffix path) :
    (fs.makeDirectory path true).Ensures (Memory.may fun _ => False) memory fun result later =>
      Tells (memory.contents.Clear fs.suffix path.UpTo) result ∧
        Gains fs.suffix (memory.contents.Lays fs.suffix path) memory.contents later.contents := by
  rw [makeDirectory, proper.isRoot_plain plain, if_neg Bool.false_ne_true, plain.trimEnd_eq]
  apply Returns.bind (returns_isDirectory_gains proper plain)
  rintro found looked (⟨rfl, there, gains⟩ | ⟨rfl, missing, rfl⟩)
  · refine ⟨.inl ⟨fun other upTo _ => there.upTo upTo, rfl⟩, gains.congr fun other => ?_⟩
    rw [Contents.Lays, Contents.owes_upTo_of_there there, and_iff_left fun _ => there]
  · apply Returns.bind (returns_isFile_exact fs looked path)
    rintro file later ⟨asked, rfl⟩
    rw [proper.relative_plain plain] at asked
    cases file with
    | true =>
      have present := asked.mp rfl
      have blocked : ¬ (path ∈ later.contents → later.contents.HasDirectory fs.suffix path) :=
        fun free => missing (free present)
      exact ⟨.inr ⟨fun clear => missing (clear path (.inl rfl) present), _, rfl⟩,
        .refl fun _ here => absurd here.2 blocked⟩
    | false =>
      have free : path ∉ later.contents := fun present => Bool.false_ne_true (asked.mpr present)
      show (fs.makeMissing path true).Ensures _ _ _
      rw [makeMissing_furnish]
      apply Ensures.mono (ensures_furnish_topped proper plain missing
        (ensures_furnish proper plain) fun reached unmarked file =>
          ensures_requireMarker_topped proper plain unmarked (file.not.mpr free))
      rintro result final ⟨tells, laid⟩
      exact ⟨tells, laid.congr fun other => (and_iff_left fun present => absurd present free).symm⟩

end FileSystem
end KeyTree
