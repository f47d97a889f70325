import KeyTree.FileSystem.File
import KeyTree.Proofs.Probe

/-!
Making directories. A marker is only put where no file is, unless that file's name is a
directory already, and where everything above is a directory: the looks at the path and at the
paths above it make sure of that, and the missing directories are made from the outermost
inwards. So making a directory changes no file, no file becomes a directory by it, and no
directory above a new marker is left without one (`Marks`).
-/
namespace KeyTree

open KeyTree.Path (separator)
open Program (Ensures Returns)

namespace Path
variable {suffix : Key} {path parent name : Path}

/-- The other path is above this one. -/
def Above (path other : Path) : Prop := other ++ [separator] <+: path

/-- The other path is this one or above it. -/
def UpTo (path other : Path) : Prop := other = path ∨ Above path other

theorem UpTo.above_child {other : Path} (upTo : UpTo parent other) :
    Above (parent ++ separator :: name) other := by
  rcases upTo with rfl | above
  · exact stem_prefix_append
  · exact above.trans (List.prefix_append _ _)

theorem beforeLast?_append (first : separator ∉ name) :
    beforeLast? (parent ++ separator :: name) = some parent := by
  have kept : ∀ c ∈ name.reverse, decide (c ≠ separator) = true := by
    intro c member
    exact decide_eq_true fun same => first (same ▸ List.mem_reverse.mp member)
  have reversed : (parent ++ separator :: name).reverse =
      name.reverse ++ separator :: parent.reverse := by simp
  rw [beforeLast?, reversed, List.dropWhile_append_of_pos kept,
    List.dropWhile_cons_of_neg (by simp)]
  simp

theorem beforeLast?_of_not_mem (whole : separator ∉ path) : beforeLast? path = none := by
  have kept : ∀ c ∈ path.reverse, decide (c ≠ separator) = true := by
    intro c member
    exact decide_eq_true fun same => whole (same ▸ List.mem_reverse.mp member)
  rw [beforeLast?, ← List.append_nil path.reverse, List.dropWhile_append_of_pos kept]
  rfl

/-- A path is a name, or a name below another path. -/
theorem cut_last (path : Path) : separator ∉ path ∨
    ∃ parent name, separator ∉ name ∧ path = parent ++ separator :: name := by
  by_cases whole : separator ∈ path
  · obtain ⟨name, parent, split, first⟩ :=
      List.eq_append_cons_of_mem (List.mem_reverse.mpr whole)
    have same : path = parent.reverse ++ separator :: name.reverse := by
      rw [← List.reverse_reverse path, split]
      simp
    exact .inr ⟨_, _, fun member => first (List.mem_reverse.mp member), same⟩
  · exact .inl whole

/-- A plain path is a name, or a name below a plain path. -/
theorem Plain.cut_last (plain : Plain suffix path) : separator ∉ path ∨
    ∃ parent name, separator ∉ name ∧ Plain suffix parent ∧ path = parent ++ separator :: name := by
  obtain single | ⟨parent, name, first, rfl⟩ := Path.cut_last path
  · exact .inl single
  · exact .inr ⟨parent, name, first, (append_iff.mp plain).1, rfl⟩

/-- Names are put below plain paths one by one. -/
theorem Plain.last_induction {motive : (path : Path) → Plain suffix path → Prop}
    (alone : ∀ name plain, separator ∉ name → motive name plain)
    (below : ∀ parent name above plain, separator ∉ name → motive parent above →
      motive (parent ++ separator :: name) plain)
    (path : Path) (plain : Plain suffix path) : motive path plain := by
  induction length : path.length using Nat.strongRecOn generalizing path with
  | ind bound ih =>
    rcases plain.cut_last with single | ⟨parent, name, first, above, rfl⟩
    · exact alone path plain single
    · have shorter : parent.length < bound := by
        rw [← length, List.length_append, List.length_cons]
        omega
      exact below parent name above plain first (ih _ shorter parent above rfl)

end Path

namespace Contents
variable {suffix : Key} {contents : Contents} {path other : Path}

/-- Everything above the path is a directory. -/
def Lodged (suffix : Key) (contents : Contents) (path : Path) : Prop :=
  ∀ outer, Path.Plain suffix outer → path.Above outer → contents.HasDirectory suffix outer

/-- A marker of the path makes no file a directory, and whatever is above it was a directory or
has got its own marker. -/
structure Admits (suffix : Key) (before after : Contents) (path : Path) : Prop where
  free : path ∈ before → before.HasDirectory suffix path
  above : ∀ outer, Path.Plain suffix outer → path.Above outer →
    before.HasDirectory suffix outer ∨ outer ++ suffix ∈ after

/-- Whatever is above a directory is one. -/
theorem HasDirectory.above (there : contents.HasDirectory suffix path)
    (above : other ++ [separator] <+: path) : contents.HasDirectory suffix other := by
  rcases there with marked | ⟨key, present, below⟩
  · exact .inr ⟨_, marked, above.trans (List.prefix_append _ _)⟩
  · exact .inr ⟨key, present, stem_prefix_trans above below⟩

theorem Lodged.admits {after : Contents} (lodged : contents.Lodged suffix path)
    (free : path ∈ contents → contents.HasDirectory suffix path) :
    contents.Admits suffix after path :=
  ⟨free, fun outer plain above => .inl (lodged outer plain above)⟩

theorem HasDirectory.admits {after : Contents} (there : contents.HasDirectory suffix path) :
    contents.Admits suffix after path :=
  ⟨fun _ => there, fun _ _ above => .inl (there.above above)⟩

theorem lodged_of_not_mem (whole : separator ∉ path) : contents.Lodged suffix path := by
  intro outer _ above
  exact absurd (above.subset (by simp)) whole

theorem HasDirectory.lodges {name : Path} (there : contents.HasDirectory suffix path)
    (first : separator ∉ name) : contents.Lodged suffix (path ++ separator :: name) := by
  intro outer _ above
  rcases stem_prefix_stem.mp ((stem_prefix_child first).mp above) with rfl | further
  · exact there
  · exact there.above further

end Contents

/-- Empty markers were put in at paths of the region; none of them made a file a directory, or a
directory above it that has no marker. -/
def Marks (suffix : Key) (region : Path → Prop) (before after : Contents) : Prop :=
  ∀ key, after[key]? = before[key]? ∨ after[key]? = some [] ∧ ∃ path, region path ∧
    Path.Plain suffix path ∧ before.Admits suffix after path ∧ key = path ++ suffix

namespace Marks
variable {suffix : Key} {region wider : Path → Prop} {path place : Path}
  {before middle after : Contents}

theorem refl (contents : Contents) : Marks suffix region contents contents :=
  fun _ => .inl rfl

theorem insert (here : region path) (plain : Path.Plain suffix path)
    (admits : before.Admits suffix (before.insert (path ++ suffix) []) path) :
    Marks suffix region before (before.insert (path ++ suffix) []) := by
  intro key
  rw [Contents.lookup_insert]
  split
  · rename_i same
    exact .inr ⟨rfl, path, here, plain, admits, same.symm⟩
  · exact .inl rfl

section
variable (marks : Marks suffix region before after)
include marks

theorem mono (widens : ∀ path, region path → wider path) : Marks suffix wider before after := by
  intro key
  apply (marks key).imp_right
  rintro ⟨fresh, path, here, rest⟩
  exact ⟨fresh, path, widens path here, rest⟩

theorem mem {key : Key} (present : key ∈ before) : key ∈ after := by
  rcases marks key with same | ⟨fresh, _⟩
  · exact (Contents.mem_of_lookup_eq same).mpr present
  · exact Contents.mem_iff_lookup.mpr ⟨[], fresh⟩

theorem file (whole : separator ∉ suffix) (plain : Path.Plain suffix path) :
    after[path]? = before[path]? := by
  rcases marks path with same | ⟨_, other, _, _, _, same⟩
  · exact same
  · exact absurd same.symm (marker_ne whole plain other)

theorem under (there : before.Under path) : after.Under path := by
  obtain ⟨key, present, below⟩ := there
  exact ⟨key, marks.mem present, below⟩

theorem hasDirectory (there : before.HasDirectory suffix path) :
    after.HasDirectory suffix path :=
  there.imp marks.mem marks.under

theorem lodged (lodged : before.Lodged suffix path) : after.Lodged suffix path :=
  fun outer plain above => marks.hasDirectory (lodged outer plain above)

/-- A directory was one before, or has got its marker. -/
theorem marked_or (whole : separator ∉ suffix) (plain : Path.Plain suffix path)
    (there : after.HasDirectory suffix path) :
    before.HasDirectory suffix path ∨ path ++ suffix ∈ after := by
  rcases there with marked | ⟨key, stored, below⟩
  · exact .inr marked
  · rcases marks key with same | ⟨_, other, _, _, admits, rfl⟩
    · exact .inl (.inr ⟨key, (Contents.mem_of_lookup_eq same).mp stored, below⟩)
    · exact admits.above path plain ((stem_prefix_marker whole).mp below)

/-- A file that is a directory afterwards was one before. -/
theorem clash (whole : separator ∉ suffix) (plain : Path.Plain suffix path) (present : path ∈ before)
    (there : after.HasDirectory suffix path) : before.HasDirectory suffix path := by
  cases marks.marked_or whole plain there with
  | inl there => exact there
  | inr marked =>
    rcases marks (path ++ suffix) with same | ⟨_, other, _, _, admits, same⟩
    · exact .inl ((Contents.mem_of_lookup_eq same).mp marked)
    · exact List.append_cancel_right same ▸ admits.free (List.append_cancel_right same ▸ present)

theorem trans (whole : separator ∉ suffix) (next : Marks suffix region after middle) :
    Marks suffix region before middle := by
  intro key
  rcases next key with same | ⟨fresh, path, here, plain, admits, marker⟩
  · rw [same]
    apply (marks key).imp_right
    rintro ⟨fresh, path, here, plain, admits, marker⟩
    refine ⟨fresh, path, here, plain, ⟨admits.free, fun outer named above => ?_⟩, marker⟩
    exact (admits.above outer named above).imp_right next.mem
  · refine .inr ⟨fresh, path, here, plain, ⟨fun present => ?_, fun outer named above => ?_⟩, marker⟩
    · exact marks.clash whole plain present (admits.free (marks.mem present))
    · cases admits.above outer named above with
      | inl there => exact (marks.marked_or whole named there).imp_right next.mem
      | inr marked => exact .inr marked

theorem tidy (tidy : before.Tidy suffix) : after.Tidy suffix := by
  intro key present
  rcases marks key with same | ⟨_, path, _, plain, _, marker⟩
  · exact tidy key ((Contents.mem_of_lookup_eq same).mp present)
  · exact ⟨path, plain, .inr (.inl marker)⟩

theorem neat (neat : before.Neat suffix) : after.Neat suffix := by
  intro key present given
  rcases marks key with same | ⟨_, path, _, plain, _, marker⟩
  · exact neat key ((Contents.mem_of_lookup_eq same).mp present) given
  · exact ⟨path, plain, .inr (.inl marker)⟩

theorem hollow (hollow : before.Hollow suffix) : after.Hollow suffix := by
  intro path plain key kind content stored
  rcases marks key with same | ⟨fresh, _⟩
  · exact hollow path plain key kind content (same ▸ stored)
  · rw [fresh, Option.some.injEq] at stored
    exact stored.symm

theorem isTree (whole : separator ∉ suffix) (tree : before.IsTree suffix) :
    after.IsTree suffix where
  tidy := marks.tidy tree.tidy
  hollow := marks.hollow tree.hollow
  apart path plain present there := by
    have stored := (Contents.mem_of_lookup_eq (marks.file whole plain)).mp present
    exact tree.apart path plain stored (marks.clash whole plain stored there)

end
end Marks

/-- The directories that are still missing above a path, the outermost first; everything above
the first is there. -/
inductive Contents.Awaits (suffix : Key) (contents : Contents) : Path → List Path → Prop
  | ready {path : Path} (lodged : contents.Lodged suffix path) : Awaits suffix contents path []
  | next {parent name : Path} {outer : List Path} (plain : Path.Plain suffix parent)
      (first : separator ∉ name) (above : Awaits suffix contents parent outer) :
      Awaits suffix contents (parent ++ separator :: name) (outer ++ [parent])

/-- Writing to an open upload leaves it open, with all the contents behind what it had. -/
theorem Upload.writeAll_open (key : Key) (kept : Content) (contents : List Content) :
    (⟨key, kept, false⟩ : Upload).writeAll contents =
      .ok (contents.map List.length, ⟨key, kept ++ contents.flatten, false⟩) := by
  induction contents generalizing kept with
  | nil => simp [writeAll]
  | cons content later ih =>
    have rest := ih (kept ++ content)
    simp [writeAll, write, bind, Except.bind, pure, Except.pure, rest]

namespace FileSystem
variable {fs : FileSystem} {memory : Memory} {path : Path}

section
variable (proper : fs.Proper)
include proper

theorem parent?_name (plain : Path.Plain fs.suffix path) (whole : separator ∉ path) :
    fs.root.parent? path = none := by
  rw [Root.parent?, proper.isRoot_plain plain]
  exact Path.beforeLast?_of_not_mem whole

theorem parent?_below {parent name : Path}
    (plain : Path.Plain fs.suffix (parent ++ separator :: name)) (first : separator ∉ name) :
    fs.root.parent? (parent ++ separator :: name) = some parent := by
  rw [Root.parent?, proper.isRoot_plain plain]
  exact Path.beforeLast?_append first

/-- What a look for a directory leaves where nothing fails. -/
structure Found (suffix : Key) (path : Path) (before : Memory) (found : Bool) (after : Memory) :
    Prop where
  marks : Marks suffix (· = path) before.contents after.contents
  there : found = true ↔ after.contents.HasDirectory suffix path

theorem returns_isDirectory_found (plain : Path.Plain fs.suffix path) :
    (fs.isDirectory path).Returns (Memory.may fun _ => False) memory
      (Found fs.suffix path memory) := by
  apply Returns.mono (returns_isDirectory proper plain)
  intro found later look
  refine ⟨fun key => ?_, fun yes => .inl (look.marked yes), fun there => ?_⟩
  · by_cases other : key = path ++ fs.suffix
    · apply (look.heals key).imp_right
      rintro ⟨fresh, healed, _, under, marker, _⟩
      rw [other] at marker
      rw [← List.append_cancel_right marker] at under
      exact ⟨fresh, path, rfl, plain, Contents.HasDirectory.admits (.inr under), other⟩
    · exact .inl (look.only key other)
  · cases found with
    | true => rfl
    | false =>
      have missed := look.missed rfl ((look.heals.hasDirectory_iff proper.suffix_whole).mp there)
      exact missed.elim fun _ => False.elim

theorem returns_missing (plain : Path.Plain fs.suffix path) :
    (fs.missing (fs.root.ancestors path)).Returns (Memory.may fun _ => False) memory
      fun outer later => Marks fs.suffix path.Above memory.contents later.contents ∧
        later.contents.Awaits fs.suffix path outer := by
  have whole := proper.suffix_whole
  induction path, plain using Path.Plain.last_induction generalizing memory with
  | alone name plain single =>
    rw [Root.ancestors, parent?_name proper plain single]
    exact ⟨[], rfl, .refl _, .ready (Contents.lodged_of_not_mem single)⟩
  | below parent name above plain first ih =>
    rw [Root.ancestors, parent?_below proper plain first, missing]
    apply Returns.bind (returns_isDirectory_found proper above)
    intro found probed look
    have looked : Marks fs.suffix (parent ++ separator :: name).Above memory.contents
        probed.contents :=
      look.marks.mono fun _ here => Path.UpTo.above_child (.inl here)
    cases found with
    | true => exact ⟨[], rfl, looked, .ready ((look.there.mp rfl).lodges first)⟩
    | false =>
      apply Returns.bind ih
      rintro outer later ⟨marks, awaits⟩
      have more : Marks fs.suffix (parent ++ separator :: name).Above probed.contents
          later.contents :=
        marks.mono fun _ higher => Path.UpTo.above_child (.inr higher)
      exact ⟨_, rfl, looked.trans whole more, .next above first awaits⟩

/-- What putting markers leaves: the directory, or a refusal. -/
structure Furnished (suffix : Key) (path : Path) (before : Memory) (result : Except Failure Unit)
    (after : Memory) : Prop where
  marks : Marks suffix path.UpTo before.contents after.contents
  ends : result = .ok () ∧ after.contents.HasDirectory suffix path ∨
    ∃ cause, result = .error (.refused cause)

theorem ensures_requireMarker (plain : Path.Plain fs.suffix path)
    (free : path ∉ memory.contents) (lodged : memory.contents.Lodged fs.suffix path) :
    (fs.requireMarker path).Ensures (Memory.may fun _ => False) memory
      (Furnished fs.suffix path memory) := by
  rw [requireMarker, createMarker, proper.markerKey_plain plain]
  apply Returns.bind (Memory.returns_createEmpty _ memory _)
  rintro made later (⟨rfl, rfl⟩ | ⟨_, _, ⟨⟩⟩)
  refine ⟨.insert (.inl rfl) plain (lodged.admits fun present => absurd present free),
    .inl ⟨rfl, .inl ?_⟩⟩
  exact Contents.mem_iff_lookup.mpr ⟨[], (Contents.lookup_insert ..).trans (if_pos rfl)⟩

theorem ensures_makeAncestor (plain : Path.Plain fs.suffix path)
    (lodged : memory.contents.Lodged fs.suffix path) :
    (fs.makeAncestor path).Ensures (Memory.may fun _ => False) memory
      (Furnished fs.suffix path memory) := by
  apply Returns.bind (returns_isFile proper plain)
  rintro file later ⟨rfl, _, absent⟩
  cases file with
  | true => exact ⟨.refl _, .inr ⟨_, rfl⟩⟩
  | false =>
    exact ensures_requireMarker proper plain (absent rfl id) lodged

theorem ensures_makeAncestors {outer : List Path}
    (awaits : memory.contents.Awaits fs.suffix path outer) :
    (outer.forM fs.makeAncestor).Ensures (Memory.may fun _ => False) memory fun result later =>
      Marks fs.suffix path.Above memory.contents later.contents ∧
        (result = .ok () ∧ later.contents.Lodged fs.suffix path ∨
          ∃ cause, result = .error (.refused cause)) := by
  have whole := proper.suffix_whole
  induction awaits with
  | ready lodged => exact ⟨.refl _, .inl ⟨rfl, lodged⟩⟩
  | @next parent name outer plain first _ ih =>
    have split : (outer ++ [parent]).forM fs.makeAncestor = (outer.forM fs.makeAncestor).bind
        fun _ => ([parent].forM fs.makeAncestor : Store.Action Memory.Cursor Unit) :=
      List.forM_append
    have above : ∀ other, parent.UpTo other → (parent ++ separator :: name).Above other :=
      fun _ => Path.UpTo.above_child
    rw [split]
    apply Ensures.bind ih
    · rintro _ reached ⟨marks, ⟨_, lodged⟩ | ⟨_, ⟨⟩⟩⟩
      have outermost : Marks fs.suffix (parent ++ separator :: name).Above memory.contents
          reached.contents :=
        marks.mono fun other higher => above other (.inr higher)
      apply Ensures.bind (ensures_makeAncestor proper plain lodged)
      · rintro _ later ⟨more, ⟨_, there⟩ | ⟨_, ⟨⟩⟩⟩
        exact ⟨outermost.trans whole (more.mono above), .inl ⟨rfl, there.lodges first⟩⟩
      · rintro failure later ⟨more, ⟨⟨⟩, _⟩ | ⟨cause, ⟨⟩⟩⟩
        exact ⟨outermost.trans whole (more.mono above), .inr ⟨cause, rfl⟩⟩
    · rintro failure reached ⟨marks, ⟨⟨⟩, _⟩ | ⟨cause, ⟨⟩⟩⟩
      exact ⟨marks.mono fun other higher => above other (.inr higher), .inr ⟨cause, rfl⟩⟩

theorem ensures_makeMissing (plain : Path.Plain fs.suffix path) (createParents : Bool)
    (absent : path ∉ memory.contents) :
    (fs.makeMissing path createParents).Ensures (Memory.may fun _ => False) memory
      (Furnished fs.suffix path memory) := by
  have whole := proper.suffix_whole
  -- Whatever was done to the directories above, the path is still no file.
  have finish : ∀ {later : Memory}, Marks fs.suffix path.Above memory.contents later.contents →
      later.contents.Lodged fs.suffix path →
      (fs.requireMarker path).Ensures (Memory.may fun _ => False) later
        (Furnished fs.suffix path memory) := by
    intro later marks lodged
    have free : path ∉ later.contents :=
      fun present => absent ((Contents.mem_of_lookup_eq (marks.file whole plain)).mp present)
    apply Ensures.mono (ensures_requireMarker proper plain free lodged)
    intro _ final furnished
    exact ⟨(marks.mono fun _ => .inr).trans whole furnished.marks, furnished.ends⟩
  cases createParents with
  | true =>
    apply Returns.bind (returns_missing proper plain)
    rintro outer looked ⟨marks, awaits⟩
    apply Ensures.bind (ensures_makeAncestors proper awaits)
    · rintro _ reached ⟨more, ⟨_, lodged⟩ | ⟨_, ⟨⟩⟩⟩
      exact finish (marks.trans whole more) lodged
    · rintro failure reached ⟨more, ⟨⟨⟩, _⟩ | ⟨cause, ⟨⟩⟩⟩
      exact ⟨(marks.trans whole more).mono fun _ => .inr, .inr ⟨cause, rfl⟩⟩
  | false =>
    have above : (fs.parentExists path).Returns (Memory.may fun _ => False) memory
        fun found later => Marks fs.suffix path.Above memory.contents later.contents ∧
          (found = true → later.contents.Lodged fs.suffix path) := by
      rcases plain.cut_last with single | ⟨parent, name, first, above, rfl⟩
      · rw [parentExists, parent?_name proper plain single]
        exact ⟨true, rfl, .refl _, fun _ => Contents.lodged_of_not_mem single⟩
      · rw [parentExists, parent?_below proper plain first]
        apply Returns.mono (returns_isDirectory_found proper above)
        intro found later look
        exact ⟨look.marks.mono fun _ here => Path.UpTo.above_child (.inl here),
          fun yes => (look.there.mp yes).lodges first⟩
    apply Returns.bind above
    rintro found later ⟨marks, lodged⟩
    cases found with
    | true => exact finish marks (lodged rfl)
    | false => exact ⟨marks.mono fun _ => .inr, .inr ⟨_, rfl⟩⟩

/-- Making a directory changes no file and makes no file a directory; it succeeds where the
directory is there already. -/
theorem ensures_makeDirectory (plain : Path.Plain fs.suffix path) (createParents : Bool) :
    (fs.makeDirectory path createParents).Ensures (Memory.may fun _ => False) memory
      fun result later => Furnished fs.suffix path memory result later ∧
        (memory.contents.HasDirectory fs.suffix path → result = .ok ()) := by
  have whole := proper.suffix_whole
  rw [makeDirectory, proper.isRoot_plain plain, if_neg Bool.false_ne_true, plain.trimEnd_eq]
  apply Returns.bind (returns_isDirectory_found proper plain)
  intro found probed look
  have looked : Marks fs.suffix path.UpTo memory.contents probed.contents :=
    look.marks.mono fun _ => .inl
  cases found with
  | true => exact ⟨⟨looked, .inl ⟨rfl, look.there.mp rfl⟩⟩, fun _ => rfl⟩
  | false =>
    have missing : ¬ memory.contents.HasDirectory fs.suffix path :=
      fun there => nomatch look.there.mpr (look.marks.hasDirectory there)
    apply Returns.bind (returns_isFile proper plain)
    rintro file later ⟨rfl, _, absent⟩
    cases file with
    | true => exact ⟨⟨looked, .inr ⟨_, rfl⟩⟩, fun there => absurd there missing⟩
    | false =>
      apply Ensures.mono (ensures_makeMissing proper plain createParents (absent rfl id))
      intro result final furnished
      exact ⟨⟨looked.trans whole furnished.marks, furnished.ends⟩,
        fun there => absurd there missing⟩

theorem returns_makeDirectories (plain : Path.Plain fs.suffix path) (createParents : Bool) :
    (fs.makeDirectories path createParents).Returns (Memory.may fun _ => False) memory
      fun made later => Marks fs.suffix path.UpTo memory.contents later.contents ∧
        (made = true → later.contents.HasDirectory fs.suffix path) ∧
        (memory.contents.HasDirectory fs.suffix path → made = true) := by
  have refuses : ∀ failure later, Furnished fs.suffix path memory (.error failure) later ∧
      (memory.contents.HasDirectory fs.suffix path → (.error failure : Except Failure Unit) = .ok ()) →
      ∃ cause, failure = .refused cause := by
    rintro failure later ⟨⟨_, ⟨⟨⟩, _⟩ | ⟨cause, same⟩⟩, _⟩
    exact ⟨cause, Except.error.inj same⟩
  apply Returns.mono (Returns.succeeds (ensures_makeDirectory proper plain createParents)
    (.directoryNotMade path) refuses)
  rintro made later (⟨rfl, ⟨marks, ⟨_, there⟩ | ⟨_, ⟨⟩⟩⟩, _⟩ | ⟨rfl, cause, ⟨marks, _⟩, kept⟩)
  · exact ⟨marks, fun _ => there, fun _ => rfl⟩
  · exact ⟨marks, nofun, fun there => nomatch kept there⟩

omit proper in
theorem returns_startUpload (key : Key) :
    (Upload.start key).Returns (Memory.may fun _ => False) memory fun upload later =>
      upload = ⟨key, [], false⟩ ∧ later.contents = memory.contents := by
  rintro opened later (⟨rfl, rfl⟩ | ⟨⟨⟩, _⟩)
  exact ⟨_, rfl, rfl, rfl⟩

omit proper in
theorem returns_closeUpload (key : Key) (content : Content) :
    (Upload.close ⟨key, content, false⟩).Returns (Memory.may fun _ => False) memory
      fun answer later => answer.1 = .ok () ∧
        later.contents = memory.contents.insert key content := by
  rintro stored later (⟨rfl, rfl⟩ | ⟨⟨⟩, _⟩)
  exact ⟨_, rfl, rfl, rfl⟩

omit proper in
/-- An upload that was just opened is stored as it was written. -/
theorem returns_writeOpened (key : Key) (written : List Content) :
    (do let (counts, upload) ← Program.ofExcept
          ((Upload.writeAll ⟨key, [], false⟩ written).mapError .defect)
        let (answer, _) ← upload.close
        Program.ofExcept (answer.map fun _ => some counts) :
      Store.Action Memory.Cursor (Option (List Nat))).Returns (Memory.may fun _ => False) memory
      fun answer later => answer = some (written.map List.length) ∧
        later.contents = memory.contents.insert key written.flatten := by
  rw [Upload.writeAll_open key [] written]
  apply Ensures.bind_done
  apply Returns.bind (returns_closeUpload key written.flatten)
  rintro ⟨answer, closed⟩ later ⟨rfl, same⟩
  exact ⟨_, rfl, rfl, same⟩

/-- An upload is opened below a directory only, or where nothing is above the file. -/
theorem ensures_create (plain : Path.Plain fs.suffix path) :
    (fs.create path).Ensures (Memory.may fun _ => False) memory fun result later =>
      Marks fs.suffix path.Above memory.contents later.contents ∧
        (result = .ok none ∧ ¬ memory.contents.HasDirectory fs.suffix path ∨
          result = .ok (some ⟨path, [], false⟩) ∧ later.contents.Lodged fs.suffix path) := by
  rcases plain.cut_last with single | ⟨parent, name, first, above, rfl⟩
  · rw [create, parent?_name proper plain single, proper.relative_plain plain]
    apply Returns.bind (returns_startUpload path)
    rintro upload later ⟨rfl, same⟩
    exact ⟨same ▸ .refl _, .inr ⟨rfl, Contents.lodged_of_not_mem single⟩⟩
  · rw [create, parent?_below proper plain first, proper.relative_plain plain]
    apply Returns.bind (returns_makeDirectories proper above true)
    rintro made reached ⟨marks, there, kept⟩
    have outer : Marks fs.suffix (parent ++ separator :: name).Above memory.contents
        reached.contents :=
      marks.mono fun _ => Path.UpTo.above_child
    cases made with
    | false =>
      refine ⟨outer, .inl ⟨rfl, fun directory => ?_⟩⟩
      cases kept (directory.above stem_prefix_append)
    | true =>
      apply Returns.bind (returns_startUpload _)
      rintro upload later ⟨rfl, same⟩
      exact ⟨same ▸ outer, .inr ⟨rfl, same ▸ (there rfl).lodges first⟩⟩

/-- What creating a file leaves: the file, where no other is above it, or a refusal to make the
directory that it is in. -/
def Wrote (suffix : Key) (path : Path) (contents : List Content) (before : Memory)
    (result : Except Failure (Option (List Nat))) (after : Memory) : Prop :=
  ∃ made : Contents, Marks suffix path.Above before.contents made ∧
    (result = .ok none ∧ ¬ before.contents.HasDirectory suffix path ∧ after.contents = made ∨
      result = .ok (some (contents.map List.length)) ∧ made.Lodged suffix path ∧
        after.contents = made.insert path contents.flatten)

theorem ensures_writeFile (plain : Path.Plain fs.suffix path) (contents : List Content) :
    (fs.writeFile path contents).Ensures (Memory.may fun _ => False) memory
      (Wrote fs.suffix path contents memory) := by
  apply Ensures.bind (ensures_create proper plain)
  · rintro upload made ⟨marks, ⟨⟨⟩, missing⟩ | ⟨⟨⟩, lodged⟩⟩
    · exact ⟨_, marks, .inl ⟨rfl, missing, rfl⟩⟩
    · apply Ensures.mono (returns_writeOpened path contents)
      rintro result later ⟨_, rfl, rfl, same⟩
      exact ⟨_, marks, .inr ⟨rfl, lodged, same⟩⟩
  · rintro failure later ⟨_, ⟨⟨⟩, _⟩ | ⟨⟨⟩, _⟩⟩

end
end FileSystem
end KeyTree
