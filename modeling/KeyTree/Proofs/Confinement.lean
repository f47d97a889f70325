import KeyTree.Proofs.Anywhere
import KeyTree.Proofs.Removal
import KeyTree.Proofs.Trailing

/-!
Where a removal deletes. A removal lists the keys behind the stem of its path and then joins the
listed names to the path, which takes all separators at the end of the path away. So the joined
keys are the listed ones, and nothing else is deleted, unless two separators end the key of the
path, or the joined key goes on like the root and is cut down with it.
-/
namespace KeyTree

open KeyTree.Path (separator)
open Program (Ensures Returns)

namespace Path
variable {path name : Path}

theorem prefix_withSeparator (path : Path) : path <+: withSeparator path := by
  unfold withSeparator
  split
  · exact List.prefix_refl path
  · exact List.prefix_append _ _

/-- Where at most one separator is at the end, none is left. -/
theorem trailed_trimEnd (single : ¬ [separator, separator] <:+ path) :
    (trimEnd path).Trailed path := by
  obtain ⟨count, cut⟩ := exists_trimEnd path
  match count with
  | 0 => exact .inl (by simpa using cut)
  | 1 => exact .inr cut
  | count + 2 =>
    refine absurd ⟨trimEnd path ++ List.replicate count separator, ?_⟩ single
    rw [List.append_assoc]
    exact (cut.trans (by rw [List.replicate_add]; rfl)).symm

theorem trimEnd_of_double (double : [separator, separator] <:+ path) :
    ∃ rest, path = trimEnd path ++ separator :: separator :: rest := by
  have bare := getLast?_trimEnd_ne path
  obtain ⟨front, same⟩ := double
  obtain ⟨count, cut⟩ := exists_trimEnd path
  generalize trimEnd path = base at *
  match count with
  | 0 =>
    rw [List.replicate_zero, List.append_nil] at cut
    exact absurd (by simp [← cut, ← same]) bare
  | 1 =>
    rw [← same, List.append_cons front, List.replicate_one] at cut
    exact absurd (by simp [← List.append_cancel_right cut]) bare
  | count + 2 => exact ⟨List.replicate count separator, cut⟩

end Path

namespace Root
variable {root : Root} {path name : Path} {key : Key}

/-- The root goes on behind the key and one separator. -/
def Continues (root : Root) (key : Key) : Prop :=
  ∃ c rest, root.start = key ++ separator :: c :: rest ∧ c ≠ separator

/-- A root of one scheme and one name has its single separators nowhere but at the end. -/
theorem not_continues_of_scheme {scheme name : Path}
    (start : root.key = scheme ++ [':', separator, separator] ++ name)
    (first : separator ∉ scheme) (whole : separator ∉ name)
    (last : key.getLast? ≠ some separator) : ¬ root.Continues key := by
  have shape : ∃ tail, root.start = scheme ++ [':'] ++ separator :: separator :: tail ∧
      separator ∉ tail.dropLast := by
    unfold Root.start Path.withSeparator
    rw [start]
    split
    · exact ⟨name, by simp, fun inner => whole (name.dropLast_subset inner)⟩
    · exact ⟨name ++ [separator], by simp, by simpa using whole⟩
  obtain ⟨tail, spelled, single⟩ := shape
  rintro ⟨c, rest, continued, other⟩
  obtain ⟨more, longer, same⟩ | ⟨more, longer, same⟩ :=
    List.append_eq_append_iff.mp (continued.symm.trans spelled)
  · cases more with
    | nil => exact other (by simpa using (List.cons.inj (List.cons.inj same).2).1)
    | cons d more =>
      have within : separator ∈ scheme ++ [':'] := by
        rw [longer, (List.cons.inj same).1]
        simp
      rw [List.mem_append, List.mem_singleton] at within
      exact within.elim first (by decide)
  · match more with
    | [] => exact other (by simpa using (List.cons.inj (List.cons.inj same).2).1.symm)
    | [d] =>
      obtain rfl := (List.cons.inj same).1
      exact last (by rw [longer, List.getLast?_concat])
    | d :: e :: more =>
      obtain rfl : tail = more ++ separator :: c :: rest := (List.cons.inj (List.cons.inj same).2).2
      rw [List.dropLast_append_of_ne_nil (List.cons_ne_nil _ _)] at single
      simp at single

/-- A name behind a key stays there, unless the root goes on behind that key. -/
theorem relative_behind_trim (below : root.relative path ≠ [])
    (single : ¬ root.Continues (Path.trimEnd (root.relative path)))
    (given : name ≠ []) (first : name.head? ≠ some separator)
    (last : name.getLast? ≠ some separator) :
    root.relative (Path.trimEnd (root.relative path) ++ separator :: name) =
      Path.trimEnd (root.relative path) ++ separator :: name := by
  obtain top | ⟨apart, outside, front⟩ := root.relative_normal path
  · exact absurd top below
  have ends := start_ne_trimEnd apart outside
  have filled := trimEnd_relative_ne_nil below
  have inside := Path.trimEnd_prefix_self (root.relative path)
  have head : (Path.trimEnd (root.relative path)).head? = some separator →
      (root.relative path).head? = some separator := Path.head?_of_trimEnd
  generalize Path.trimEnd (root.relative path) = base at *
  obtain ⟨c, rest, rfl⟩ := List.exists_cons_of_ne_nil given
  have other : c ≠ separator := fun same => first (by rw [same, List.head?_cons])
  apply relative_eq_self_of
  · rw [← Path.getLast?_behind base given] at last
    unfold Path.withSeparator
    rw [if_neg last]
    exact fun same => single ⟨c, rest ++ [separator], by simp [← same], other⟩
  · intro within
    obtain before | ⟨tail, start⟩ :=
      List.prefix_or_prefix_of_prefix within (List.prefix_append base _)
    · exact outside (before.trans inside)
    · rw [← start, List.prefix_append_right_inj] at within
      match tail with
      | [] => exact outside (by rwa [← start, List.append_nil])
      | [d] => exact ends (by rw [← start, (List.cons_prefix_cons.mp within).1])
      | d :: e :: tail =>
        obtain ⟨rfl, behind⟩ := List.cons_prefix_cons.mp within
        obtain ⟨rfl, _⟩ := List.cons_prefix_cons.mp behind
        exact single ⟨e, tail, start.symm, other⟩
  · intro lead
    obtain ⟨d, more, rfl⟩ := List.exists_cons_of_ne_nil filled
    exact front (head lead)

end Root

namespace FileSystem
variable {fs : FileSystem} {fallible : Store.Request Memory.Cursor → Prop} {memory : Memory}
  {path : Path} {recursive : Bool}

/-- Joined names go behind the stem of the path: at most one separator ends its key, and the root
does not go on behind it. Nothing is asked of the root, nor of a suffix that ends every name. -/
def Confined (fs : FileSystem) (path : Path) : Prop :=
  fs.root.isRoot path = true ∨ fs.suffix = [] ∨
    ¬ [separator, separator] <:+ fs.root.relative path ∧
      ¬ fs.root.Continues (Path.trimEnd (fs.root.relative path))

/-- The key is behind the stem of the path, or it is the marker of the path. -/
def Inside (fs : FileSystem) (path : Path) (key : Key) : Prop :=
  fs.root.stem path <+: key ∨ key = fs.markerKey path

instance (fs : FileSystem) (path : Path) (key : Key) : Decidable (fs.Inside path key) :=
  inferInstanceAs (Decidable (_ ∨ _))

/-- A removal of everything below the path deletes only keys inside it, whatever keys there are and
whichever deletions fail. -/
def DeletesInside (fs : FileSystem) (path : Path) : Prop :=
  ∀ (memory : Memory) (faults : Faults), [] ∉ memory.contents → OnlyDeletes faults.Hits →
    let ended := (fs.deleteDirectory path true).run (Memory.serveFaulty faults) ⟨memory, 0⟩
    ∀ key ∈ memory.contents, key ∉ ended.state.memory.contents → fs.Inside path key

/-- A name that a recursive listing shows: it is not empty, and a file's does not end with a
separator. -/
theorem ofObject_solid {suffix : Key} {name : Path}
    (named : (Entry.ofObject suffix name).name ≠ []) :
    suffix ≠ [] ∧ ((Entry.ofObject suffix name).isDirectory = false →
      (Entry.ofObject suffix name).name.Solid) := by
  unfold Entry.ofObject at *
  split at named
  · exact absurd rfl named
  · rename_i given
    refine ⟨given, ?_⟩
    rw [if_neg given]
    split
    · exact nofun
    · split
      · exact nofun
      · rename_i unmarked last
        rw [if_neg unmarked, if_neg last] at named
        exact fun _ => Path.solid_of_getLast?_ne named last

/-- What goes with a listed name that is joined to a key without a separator at its end. -/
theorem Doomed.keys {entry : Entry} {joined key : Key}
    (reads : fs.root.relative (Path.join path entry.name) = joined) (given : joined ≠ [])
    (last : joined.getLast? ≠ some separator) (doomed : fs.Doomed path entry key) :
    entry.isDirectory = false ∧ key = joined ∨ key = joined ++ fs.suffix ∨
      key = joined ++ [separator] := by
  have stem : fs.root.stem (Path.join path entry.name) = joined ++ [separator] := by
    rw [Root.stem_eq (reads.trans_ne given), reads, Path.withSeparator, if_neg last]
  have marker : fs.markerOf joined = joined ++ fs.suffix := by
    rw [markerOf, Path.dropSeparator, if_neg last]
  obtain same | ⟨_, _, same⟩ := doomed
  · simp only [entryKey, reads, marker] at same
    cases kind : entry.isDirectory with
    | true => exact .inr (.inl (by simpa [kind] using same))
    | false => exact .inl ⟨rfl, by simpa [kind] using same⟩
  · exact .inr (.inr (same.trans stem))

section ends
variable (below : fs.root.relative path ≠ [])
  (ends : ¬ [separator, separator] <:+ fs.root.relative path)
include ends

theorem markerKey_eq_trimEnd :
    fs.markerKey path = Path.trimEnd (fs.root.relative path) ++ fs.suffix := by
  have bare := Path.getLast?_trimEnd_ne (fs.root.relative path)
  rw [markerKey, markerOf, Path.dropSeparator]
  cases Path.trailed_trimEnd ends with
  | inl same => rw [if_neg (same ▸ bare), ← same]
  | inr behind =>
    have last : (fs.root.relative path).getLast? = some separator := by
      rw [behind, List.getLast?_concat]
    rw [if_pos last]
    generalize Path.trimEnd (fs.root.relative path) = base at *
    rw [behind, List.dropLast_concat]

include below

theorem stem_eq_trimEnd :
    fs.root.stem path = Path.trimEnd (fs.root.relative path) ++ [separator] := by
  have marker : fs.markerKey path = _ := markerKey_eq_trimEnd ends
  rw [Root.stem_eq below, Path.withSeparator_eq_drop]
  exact congrArg (· ++ [separator]) (List.append_cancel_right marker)

variable (clean : fs.root.Clean)
  (single : ¬ fs.root.Continues (Path.trimEnd (fs.root.relative path)))
include clean single

/-- What goes with a listed name is inside the directory. -/
theorem Doomed.inside {entry : Entry} {key : Key}
    (solid : entry.isDirectory = false → entry.name.Solid) (doomed : fs.Doomed path entry key) :
    fs.Inside path key := by
  have bare := Path.getLast?_trimEnd_ne (fs.root.relative path)
  have filled := Root.trimEnd_relative_ne_nil below
  have joined := Root.relative_join_trim clean path entry.name
  rw [Inside, stem_eq_trimEnd below ends, markerKey_eq_trimEnd ends]
  by_cases hollow : Path.trim entry.name = []
  · -- The joined path is the directory itself.
    rw [if_pos hollow] at joined
    obtain ⟨file, _⟩ | same | same := doomed.keys joined filled bare
    · exact absurd hollow (solid file).trim_ne_nil
    · exact .inr same
    · exact .inl (by rw [same])
  · have last := Path.getLast?_trimEnd_ne (entry.name.dropWhile (· = separator))
    rw [if_neg hollow, Root.relative_behind_trim below single hollow (Path.head?_trim_ne _) last]
      at joined
    rw [← Path.trim, ← Path.getLast?_behind (Path.trimEnd (fs.root.relative path)) hollow] at last
    left
    obtain ⟨_, same⟩ | same | same := doomed.keys joined (by simp) last
    · exact same ▸ stem_prefix_append
    · exact same ▸ stem_prefix_append.trans (List.prefix_append _ _)
    · exact same ▸ stem_prefix_append.trans (List.prefix_append _ _)

end ends

/-- The keys that a removal deletes once it has listed the path: what goes with the listed names,
the placeholder of the path, and its marker. -/
def Condemned (fs : FileSystem) (path : Path) (children : List Entry) (key : Key) : Prop :=
  (∃ entry ∈ children, fs.Doomed path entry key) ∨ key ≠ [] ∧ key = fs.root.stem path ∨
    key = fs.markerKey path

/-- What a recursive removal of a path of any text leaves. -/
structure Swept (fs : FileSystem) (fallible : Store.Request Memory.Cursor → Prop) (path : Path)
    (before : Memory) (result : Except Failure Unit) (after : Memory) : Prop where
  lost : ∀ key ∈ before.contents, key ∉ after.contents → ∃ probed : Contents, ∃ children,
    Merged children (probed.Shown fs.suffix (fs.root.stem path) false) ∧
      fs.Condemned path children key
  gone : result = .ok () → (∀ key, ¬ fallible (.status key)) → ∃ probed, ∃ children,
    Sought fs path before true probed ∧
      Merged children (probed.contents.Shown fs.suffix (fs.root.stem path) false) ∧
        ∀ key, fs.Condemned path children key → key ∉ after.contents
  stopped : ∀ failure, result = .error failure → ¬ fs.DirectoryAt before.contents path ∨
    (∃ query, fallible query) ∨ (∃ defect, fs.settings.pageSize = .error defect) ∨
      ∃ probed, Sought fs path before true probed ∧
        fs.limits.pages ≤ (probed.contents.entries (fs.root.stem path) false).length

theorem ensures_removeCondemned (children : List Entry) :
    ((children.forM (fs.removeEntry path)).bind fun _ =>
        (fs.removePlaceholder path).bind fun _ => fs.removeMarker path).Ensures
      (Memory.may fallible) memory (Deleted fallible (fs.Condemned path children) memory) := by
  refine Deleted.bind (ensures_removeEntries children) fun middle => ?_
  refine Deleted.bind (ensures_removeStem path) fun middle => ?_
  exact Ensures.mono (ensures_delete (Deleted.nothing _)) fun _ _ deleted =>
    deleted.congr fun key => iff_of_eq (or_false _)

theorem ensures_removeDirectory_at (only : OnlyDeletes fallible) (path : Path) :
    (fs.removeDirectory path true).Ensures (Memory.may fallible) memory
      (Swept fs fallible path memory) := by
  -- A recursive listing shows no groups, so it marks none.
  have upholds : ∀ probed, Sought fs path memory true probed → Upholds fs fallible
      (fs.root.stem path) (probed.contents.entries (fs.root.stem path) !true)
      fun _ now => now.contents = probed.contents :=
    fun probed _ => .of_memory fun start member => by cases Contents.grouped_of_group member
  have listing : (fs.children path true).Ensures (Memory.may fallible) memory
      (Exposed fs fallible path true (fun before _ now => now.contents = before) memory) :=
    ensures_children_at only upholds fun _ _ => rfl
  unfold removeDirectory removeBelow requireChildren
  rw [Program.bind_eq_bind, Program.bind_eq_bind, Program.bind_eq_bind, Program.bind_assoc,
    Program.bind_assoc]
  refine Ensures.bind listing ?_ ?_
  · rintro (_ | children) listed shown
    · obtain ⟨missing, rfl⟩ := shown.absent rfl
      exact ⟨fun _ there gone => absurd there gone, nofun, fun _ _ => .inl missing⟩
    · obtain ⟨_, probed, sought, same, merged⟩ := shown.listed children rfl
      refine Ensures.mono (ensures_removeCondemned children) fun result after deleted => ?_
      refine ⟨fun key there gone => ?_, fun ok truthful => ?_, fun failure failed => ?_⟩
      · obtain kept | ⟨condemned, _⟩ := deleted.keeps key
        · refine absurd ((Contents.mem_of_lookup_eq kept).mpr ?_) gone
          exact same ▸ sought.mem there
        · exact ⟨probed.contents, children, merged, condemned⟩
      · exact ⟨probed, children, sought, merged, deleted.gone ok truthful⟩
      · exact .inr (.inl (deleted.stopped failure failed))
  · intro failure listed shown
    obtain ⟨⟨probed, sought, _, same⟩, why⟩ := shown.stopped failure rfl
    refine ⟨fun key there gone => absurd ?_ gone, nofun, fun _ _ => .inr why⟩
    exact same ▸ sought.mem there

theorem Confined.deletesInside (clean : fs.root.Clean) (confined : fs.Confined path) :
    fs.DeletesInside path := by
  intro memory faults _ only ended
  have inside : (fs.removeDirectory path true).Ensures (Memory.may faults.Hits) memory
      fun _ later => ∀ key ∈ memory.contents, key ∉ later.contents → fs.Inside path key := by
    refine Ensures.mono (ensures_removeDirectory_at only path) fun _ later swept => ?_
    intro key there gone
    obtain ⟨probed, children, merged, condemned⟩ := swept.lost key there gone
    obtain ⟨entry, member, doomed⟩ | ⟨_, placeholder⟩ | marker := condemned
    · obtain ⟨named, other, _, _, rfl⟩ := merged.shown_of_mem member
      have listed := ofObject_solid named
      obtain top | bare | ⟨ends, single⟩ := confined
      · exact .inl (by simp [Root.stem_root (of_decide_eq_true top)])
      · exact absurd bare listed.1
      · by_cases below : fs.root.relative path = []
        · exact .inl (by simp [Root.stem_root below])
        · exact doomed.inside below ends clean single listed.2
    · exact .inl (placeholder ▸ List.prefix_refl _)
    · exact .inr marker
  exact Memory.run_of_ensures_faulty 0 (inside.succeeds_leaves _)

section exact
variable {pageSize : Nat} {name : Path} {victim : Key}
  (reads : fs.root.relative (Path.join path name) = victim) (whole : separator ∉ fs.suffix)
  (given : fs.suffix ≠ []) (read : fs.settings.pageSize = .ok pageSize)
  (room : 1 < fs.limits.pages) (named : name ≠ []) (last : name.getLast? ≠ some separator)
  (unmarked : ¬ fs.suffix <:+ name)
include reads whole given read room named last unmarked

/-- Where one file is behind the stem, a removal takes the key of its joined name. -/
theorem returns_removeDirectory_file (flawless : ∀ query, ¬ fallible query)
    (single : ∀ key, fs.root.stem path <+: key →
      (key ∈ memory.contents ↔ key = fs.root.stem path ++ name)) :
    (fs.removeDirectory path true).Returns (Memory.may fallible) memory fun _ later =>
      victim ∉ later.contents := by
  have behind : ∀ probed, Sought fs path memory true probed → ∀ key, fs.root.stem path <+: key →
      (key ∈ probed.contents ↔ key = fs.root.stem path ++ name) := fun probed sought key below =>
    (Contents.mem_of_lookup_eq (sought.lookup_below whole below)).trans (single key below)
  have shows : Entry.ofListed fs.suffix (fs.root.stem path)
      (Listed.ofKey (fs.root.stem path) false (fs.root.stem path ++ name)) = ⟨name, false⟩ := by
    simp [Contents.ofKey_ungrouped, Entry.ofListed, Entry.ofObject, given, unmarked, last]
  refine Ensures.mono (ensures_removeDirectory_at (fun query hit => absurd hit (flawless query))
    path) fun result later swept => ?_
  cases result with
  | ok value =>
    refine ⟨value, rfl, ?_⟩
    obtain ⟨probed, children, sought, merged, gone⟩ := swept.gone rfl fun key => flawless _
    apply gone
    refine .inl ⟨⟨name, false⟩, merged.file_iff.mpr ⟨named, ?_, ?_⟩, .inl reads.symm⟩
    · exact ⟨_, (behind probed sought _ (List.prefix_append _ _)).mpr rfl, List.prefix_append _ _,
        shows.symm⟩
    · rintro ⟨key, present, below, same⟩
      rw [(behind probed sought key below).mp present, shows] at same
      cases same
  | error failure =>
    obtain missing | ⟨query, hit⟩ | ⟨defect, unread⟩ | ⟨probed, sought, long⟩ :=
      swept.stopped failure rfl
    · refine absurd (.inr (.inr ⟨_, (single _ ?_).mpr rfl, ?_⟩)) missing
      · exact List.prefix_append _ _
      · exact List.prefix_append _ _
    · exact absurd hit (flawless query)
    · cases read.symm.trans unread
    · have short : (probed.contents.entries (fs.root.stem path) false).length ≤
          [fs.root.stem path ++ name].length :=
        Contents.length_entries_le false fun key present below => by
          simpa using (behind probed sought key below).mp present
      rw [List.length_singleton] at short
      omega

/-- So that key is inside the path if nothing else is ever deleted. -/
theorem DeletesInside.joined (inside : fs.DeletesInside path) (held : victim ≠ []) :
    fs.Inside path victim := by
  by_contra outside
  have free : ¬ fs.root.stem path <+: victim := fun behind => outside (.inl behind)
  let memory := ((Memory.holding []).insert (fs.root.stem path ++ name) []).insert victim []
  have there : ∀ key, key ∈ memory.contents ↔ victim = key ∨ fs.root.stem path ++ name = key := by
    simp [memory, Memory.insert, Memory.holding]
  have only : ∀ key, fs.root.stem path <+: key →
      (key ∈ memory.contents ↔ key = fs.root.stem path ++ name) := by
    intro key behind
    have apart : victim ≠ key := fun same => free (same ▸ behind)
    rw [there, or_iff_right apart, eq_comm]
  have filled : [] ∉ memory.contents := by simp [there, held, named]
  let faults : Faults := fun _ _ => none
  have flawless : ∀ query, ¬ faults.Hits query := by simp [faults, Faults.Hits]
  have removes := returns_removeDirectory_file reads whole given read room named last unmarked
    flawless only
  have gone : ((fs.removeDirectory path true).succeeds (.directoryNotDeleted path)).Ensures
      (Memory.may faults.Hits) memory fun _ later => victim ∉ later.contents := by
    apply Ensures.succeeds_leaves
    apply Ensures.mono removes
    rintro _ _ ⟨_, _, gone⟩
    exact gone
  exact outside (inside memory faults filled (fun query hit => absurd hit (flawless query)) victim
    ((there _).mpr (.inl rfl)) (Memory.run_of_ensures_faulty 0 gone))

end exact

/-- A character that neither cuts a name nor ends the suffix. -/
theorem exists_letter (suffix : Key) :
    ∃ letter : Char, letter ≠ separator ∧ suffix.getLast? ≠ some letter := by
  by_cases last : suffix.getLast? = some 'a'
  · exact ⟨'b', by decide, by simp [last]⟩
  · exact ⟨'a', by decide, last⟩

theorem not_suffix_of_getLast? {suffix : Key} {letter : Char} (given : suffix ≠ [])
    (apart : suffix.getLast? ≠ some letter) (name : Key) : ¬ suffix <:+ name ++ [letter] := by
  rintro ⟨front, same⟩
  apply apart
  have last := congrArg List.getLast? same
  rwa [List.getLast?_append, List.getLast?_concat, List.getLast?_eq_some_getLast given,
    Option.some_or, ← List.getLast?_eq_some_getLast given] at last

section escapes
variable {pageSize : Nat} (clean : fs.root.Clean) (below : fs.root.relative path ≠ [])
  (whole : separator ∉ fs.suffix) (given : fs.suffix ≠ [])
  (read : fs.settings.pageSize = .ok pageSize) (room : 1 < fs.limits.pages)
  (inside : fs.DeletesInside path)
include clean below whole given read room inside

/-- Where the root goes on behind the key of the path, a listed key that does so too is cut down
with it: what goes is the key of one letter. -/
theorem DeletesInside.not_continues :
    ¬ fs.root.Continues (Path.trimEnd (fs.root.relative path)) := by
  rintro ⟨c, rest, start, solid⟩
  obtain ⟨letter, other, apart⟩ := exists_letter fs.suffix
  have long : 2 < fs.root.start.length := by
    have := List.length_pos_iff.mpr (Root.trimEnd_relative_ne_nil below)
    simp [start]
    omega
  have last : (c :: rest ++ [letter]).getLast? ≠ some separator := by
    rw [List.getLast?_concat]
    simpa using other
  have kept : Path.trim (c :: rest ++ [letter]) = c :: rest ++ [letter] :=
    Path.trim_eq_self (by simpa using solid) last
  have reads : fs.root.relative (Path.join path (c :: rest ++ [letter])) = [letter] := by
    have behind : Path.trimEnd (fs.root.relative path) ++ separator :: (c :: rest ++ [letter]) =
        fs.root.start ++ [letter] := by simp [start]
    rw [Root.relative_join_trim clean, kept, if_neg (by simp), behind, Root.relative_start]
    apply Root.relative_eq_self_of
    · intro same
      simp [← same, Path.withSeparator, other] at long
    · intro within
      have short := within.length_le
      rw [List.length_singleton] at short
      omega
    · simpa using other
  obtain behind | marker := inside.joined reads whole given read room (by simp) last
    (not_suffix_of_getLast? given apart _) (by simp)
  · have ends : (fs.root.stem path).getLast? = some separator := by
      rw [Root.stem_eq below, Path.getLast?_withSeparator]
    have cut : separator ∈ [letter] := behind.subset (List.mem_of_getLast? ends)
    exact other (List.mem_singleton.mp cut).symm
  · refine not_suffix_of_getLast? given apart [] ?_
    exact marker ▸ List.suffix_append _ _

/-- Where two separators end the key of the path, a name that is joined to it loses the second: what
goes is the same name behind one separator. -/
theorem DeletesInside.not_double : ¬ [separator, separator] <:+ fs.root.relative path := by
  intro double
  have single := inside.not_continues clean below whole given read room
  obtain ⟨letter, other, apart⟩ := exists_letter fs.suffix
  obtain ⟨rest, cut⟩ := Path.trimEnd_of_double double
  have last : [letter].getLast? ≠ some separator := by simpa using other
  have reads : fs.root.relative (Path.join path [letter]) =
      Path.trimEnd (fs.root.relative path) ++ [separator, letter] := by
    have kept : Path.trim [letter] = [letter] := Path.trim_eq_self (by simpa using other) last
    rw [Root.relative_join_trim clean, kept, if_neg (by simp)]
    exact Root.relative_behind_trim below single (by simp) (by simpa using other) last
  obtain behind | marker := inside.joined reads whole given read room (by simp) last
    (not_suffix_of_getLast? given apart []) (by simp)
  · have further : fs.root.relative path <+:
        Path.trimEnd (fs.root.relative path) ++ [separator, letter] :=
      (Path.prefix_withSeparator _).trans (Root.stem_eq below ▸ behind)
    generalize Path.trimEnd (fs.root.relative path) = base at *
    rw [cut, List.prefix_append_right_inj, List.cons_prefix_cons, List.cons_prefix_cons] at further
    exact other further.2.1.symm
  · refine not_suffix_of_getLast? given apart
      (Path.trimEnd (fs.root.relative path) ++ [separator]) ?_
    rw [List.append_assoc]
    exact marker ▸ List.suffix_append _ _

end escapes

theorem DeletesInside.confined {pageSize : Nat} (clean : fs.root.Clean)
    (whole : separator ∉ fs.suffix) (read : fs.settings.pageSize = .ok pageSize)
    (room : 1 < fs.limits.pages) (inside : fs.DeletesInside path) : fs.Confined path := by
  by_cases below : fs.root.relative path = []
  · exact .inl (decide_eq_true below)
  · by_cases given : fs.suffix = []
    · exact .inr (.inl given)
    · exact .inr (.inr ⟨inside.not_double clean below whole given read room,
        inside.not_continues clean below whole given read room⟩)

/-- For a root of one scheme and one name only the separators at the end of the path count. -/
theorem confined_iff_of_scheme {scheme name : Path}
    (start : fs.root.key = scheme ++ [':', separator, separator] ++ name)
    (first : separator ∉ scheme) (last : separator ∉ name) :
    fs.Confined path ↔ fs.root.isRoot path = true ∨ fs.suffix = [] ∨
      ¬ [separator, separator] <:+ fs.root.relative path := by
  have single := Root.not_continues_of_scheme start first last
    (Path.getLast?_trimEnd_ne (fs.root.relative path))
  simp only [Confined, single, not_false_eq_true, and_true]

/-- A removal of everything below a path deletes nothing outside it if its key has at most one
separator at its end and the root does not go on behind it, and for no other path. -/
theorem deleteDirectory_deletes_inside {pageSize : Nat} (clean : fs.root.Clean) :
    (fs.Confined path → fs.DeletesInside path) ∧
      (separator ∉ fs.suffix → fs.settings.pageSize = .ok pageSize → 1 < fs.limits.pages →
        fs.DeletesInside path → fs.Confined path) :=
  ⟨fun confined => confined.deletesInside clean, fun whole read room inside =>
    inside.confined clean whole read room⟩

theorem deleteDirectory_deletes_inside_usual :
    usual.DeletesInside "//mem://bucket//a/".toList ∧ ¬ usual.DeletesInside "a//".toList := by
  have key : usual.root.key = "mem".toList ++ [':', separator, separator] ++ "bucket".toList := rfl
  have clean : usual.root.Clean := .of_scheme key (by decide) (by decide) (by decide)
  have inside_iff (path : Path) := @deleteDirectory_deletes_inside usual path 1000 clean
  have confined_iff (path : Path) : usual.Confined path ↔ _ :=
    confined_iff_of_scheme key (by decide) (by decide)
  refine ⟨(inside_iff _).1 ((confined_iff _).mpr ?_), fun inside => ?_⟩
  · exact .inr (.inr (by decide +kernel))
  · have single := (confined_iff _).mp ((inside_iff _).2 (by decide) rfl (by decide) inside)
    revert single
    decide +kernel

/-- A removal of a path with two separators behind it deletes a file of another directory. -/
theorem not_deleteDirectory_deletes_inside :
    ¬ ∀ (fs : FileSystem) (path : Path), fs.root.Clean → fs.DeletesInside path := by
  intro inside
  have key : usual.root.key = "mem".toList ++ [':', separator, separator] ++ "bucket".toList := rfl
  have clean : usual.root.Clean := .of_scheme key (by decide) (by decide) (by decide)
  have outside := inside usual "a//".toList clean
    (.holding [("a//x".toList, [120]), ("a/x".toList, [121])]) (fun _ _ => none) (by decide +kernel)
    (by simp [OnlyDeletes, Faults.Hits]) "a/x".toList (by decide +kernel) (by decide +kernel)
  revert outside
  decide +kernel

end FileSystem
end KeyTree
