import KeyTree.FileSystem.Basic

/-!
Plain paths: names joined by one separator each, none of them empty and none ending
with the suffix of the markers. Below a root with a scheme a plain path is its own
key, and its marker and its stem are the path with something put behind it, so these
three kinds of keys never meet.
-/
namespace KeyTree

open KeyTree.Path (separator)

/-- Every name that the separators of the path leave is a name of its own. -/
def Path.Plain (suffix : Key) (path : Path) : Prop :=
  ∀ name ∈ path.splitOn separator, name ≠ [] ∧ ¬ suffix <:+ name

instance (suffix : Key) (path : Path) : Decidable (Path.Plain suffix path) :=
  inferInstanceAs (Decidable (∀ name ∈ path.splitOn separator, name ≠ [] ∧ ¬ suffix <:+ name))

/-- No name that the separators of the path leave is empty; a plain path is one of these. -/
def Path.Named (path : Path) : Prop := ∀ name ∈ path.splitOn separator, name ≠ []

instance (path : Path) : Decidable path.Named :=
  inferInstanceAs (Decidable (∀ name ∈ path.splitOn separator, name ≠ []))

theorem Path.trimEnd_of_getLast?_ne {path : Path} (last : path.getLast? ≠ some separator) :
    trimEnd path = path := by
  rw [List.getLast?_eq_head?_reverse] at last
  rw [trimEnd]
  cases reversed : path.reverse with
  | nil => simpa using reversed.symm
  | cons c before =>
    rw [reversed, List.head?_cons] at last
    rw [List.dropWhile_cons_of_neg (by simpa using last), ← reversed, List.reverse_reverse]

theorem Path.trim_eq_self {name : Path} (first : name.head? ≠ some separator)
    (last : name.getLast? ≠ some separator) : trim name = name := by
  have kept : name.dropWhile (· = separator) = name := by
    cases name with
    | nil => rfl
    | cons c rest => exact List.dropWhile_cons_of_neg (by simpa using first)
  rw [trim, kept, trimEnd_of_getLast?_ne last]

theorem Path.getLast?_withSeparator (path : Path) :
    (withSeparator path).getLast? = some separator := by
  unfold withSeparator
  split
  · assumption
  · exact List.getLast?_concat

namespace Path.Named
variable {path rest name : Path}

theorem append_iff : Named (path ++ separator :: rest) ↔ Named path ∧ Named rest := by
  simp only [Named, List.splitOn_append_cons_self, List.forall_mem_append]

theorem iff_of_not_mem (whole : separator ∉ name) : Named name ↔ name ≠ [] := by
  simp only [Named, List.splitOn_eq_singleton whole, List.mem_singleton, forall_eq]

theorem ne_nil (named : Named path) : path ≠ [] := by
  rintro rfl
  exact (iff_of_not_mem List.not_mem_nil).mp named rfl

theorem cons_ne (named : Named path) : path ≠ separator :: rest := by
  rintro rfl
  rw [← List.nil_append (separator :: rest), append_iff] at named
  exact named.1.ne_nil rfl

theorem concat_ne (named : Named path) : path ≠ rest ++ [separator] := by
  rintro rfl
  exact (append_iff.mp named).2.ne_nil rfl

theorem head?_ne (named : Named path) : path.head? ≠ some separator := by
  cases path with
  | nil => simp
  | cons c rest =>
    intro head
    exact named.cons_ne (by rw [List.head?_cons, Option.some.injEq] at head; rw [head])

theorem getLast?_ne (named : Named path) : path.getLast? ≠ some separator := by
  intro last
  obtain ⟨rest, ends⟩ := List.getLast?_eq_some_iff.mp last
  exact named.concat_ne ends

theorem withSeparator_eq (named : Named path) : withSeparator path = path ++ [separator] :=
  if_neg named.getLast?_ne

/-- Nothing has to be trimmed before such paths are joined. -/
theorem join_eq (named : Named path) (below : Named rest) :
    join path rest = path ++ separator :: rest := by
  rw [join, trimEnd_of_getLast?_ne named.getLast?_ne,
    trim_eq_self below.head?_ne below.getLast?_ne, if_neg named.ne_nil, if_neg below.ne_nil]

/-- Two separators never stand side by side. -/
theorem no_double (named : Named path) : ¬ [separator, separator] <:+: path := by
  rintro ⟨before, after, rfl⟩
  have right : Named (separator :: after) := by
    rw [List.append_assoc] at named
    exact (append_iff.mp named).2
  exact right.cons_ne rfl

end Path.Named

namespace Path.Plain
variable {suffix : Key} {path rest name : Path}

theorem append_iff : Plain suffix (path ++ separator :: rest) ↔
    Plain suffix path ∧ Plain suffix rest := by
  simp only [Plain, List.splitOn_append_cons_self, List.forall_mem_append]

theorem iff_of_not_mem (whole : separator ∉ name) :
    Plain suffix name ↔ name ≠ [] ∧ ¬ suffix <:+ name := by
  simp only [Plain, List.splitOn_eq_singleton whole, List.mem_singleton, forall_eq]

theorem named (plain : Plain suffix path) : Named path :=
  fun name member => (plain name member).1

theorem ne_nil (plain : Plain suffix path) : path ≠ [] := plain.named.ne_nil

theorem concat_ne (plain : Plain suffix path) : path ≠ rest ++ [separator] :=
  plain.named.concat_ne

theorem head?_ne (plain : Plain suffix path) : path.head? ≠ some separator := plain.named.head?_ne

theorem getLast?_ne (plain : Plain suffix path) : path.getLast? ≠ some separator :=
  plain.named.getLast?_ne

/-- A plain path is a name, or a name with a plain path below it. -/
theorem cut (plain : Plain suffix path) :
    ∃ name, separator ∉ name ∧ Plain suffix name ∧
      (path = name ∨ ∃ rest, Plain suffix rest ∧ path = name ++ separator :: rest) := by
  by_cases whole : separator ∈ path
  · obtain ⟨name, rest, rfl, first⟩ := List.eq_append_cons_of_mem whole
    obtain ⟨left, right⟩ := append_iff.mp plain
    exact ⟨name, first, left, .inr ⟨rest, right, rfl⟩⟩
  · exact ⟨path, whole, plain, .inl rfl⟩

theorem not_suffix {path : Path} (whole : separator ∉ suffix) (plain : Plain suffix path) :
    ¬ suffix <:+ path := by
  obtain ⟨name, first, named, rfl | ⟨rest, right, rfl⟩⟩ := plain.cut
  · exact ((iff_of_not_mem first).mp named).2
  · intro ends
    have shorter : rest.length < (name ++ separator :: rest).length := by
      rw [List.length_append, List.length_cons]
      omega
    rcases List.suffix_or_suffix_of_suffix ends (List.suffix_append name (separator :: rest))
      with below | above
    · rcases List.suffix_cons_iff.mp below with rfl | inner
      · exact whole List.mem_cons_self
      · exact not_suffix whole right inner
    · exact whole (above.subset List.mem_cons_self)
termination_by path.length

/-! Nothing has to be trimmed from a plain path before it is joined. -/

theorem withSeparator_eq (plain : Plain suffix path) :
    withSeparator path = path ++ [separator] :=
  plain.named.withSeparator_eq

theorem dropSeparator_eq (plain : Plain suffix path) : dropSeparator path = path :=
  if_neg plain.getLast?_ne

theorem trimEnd_eq (plain : Plain suffix path) : trimEnd path = path :=
  trimEnd_of_getLast?_ne plain.getLast?_ne

theorem join_eq (plain : Plain suffix path) (below : Plain suffix rest) :
    join path rest = path ++ separator :: rest :=
  plain.named.join_eq below.named

end Path.Plain

/-- The stem of a plain path, or of the root. -/
def Path.Stem (suffix stem : Key) : Prop :=
  stem = [] ∨ ∃ path, Path.Plain suffix path ∧ stem = path ++ [separator]

namespace Path.Stem
variable {suffix stem : Key} {name : Path}

theorem shape (at_stem : Stem suffix stem) : stem = [] ∨ ∃ front, stem = front ++ [separator] :=
  at_stem.imp_right fun ⟨path, _, same⟩ => ⟨path, same⟩

theorem append_plain (at_stem : Stem suffix stem) (plain : Plain suffix name) :
    Plain suffix (stem ++ name) := by
  rcases at_stem with rfl | ⟨path, above, rfl⟩
  · exact plain
  · rw [List.append_assoc, List.singleton_append]
    exact Plain.append_iff.mpr ⟨above, plain⟩

theorem of_append (at_stem : Stem suffix stem) (plain : Plain suffix (stem ++ name)) :
    Plain suffix name := by
  rcases at_stem with rfl | ⟨path, _, rfl⟩
  · exact plain
  · rw [List.append_assoc, List.singleton_append] at plain
    exact (Plain.append_iff.mp plain).2

end Path.Stem

section keys
variable {suffix : Key} {path other rest : Path}

/-- What stands below a path starts with it and a separator. -/
theorem stem_prefix_iff {key : Key} :
    path ++ [separator] <+: key ↔ ∃ rest, key = path ++ separator :: rest := by
  constructor
  · rintro ⟨rest, rfl⟩
    exact ⟨rest, by rw [List.append_assoc, List.singleton_append]⟩
  · rintro ⟨rest, rfl⟩
    exact ⟨rest, by rw [List.append_assoc, List.singleton_append]⟩

theorem stem_prefix_append : path ++ [separator] <+: path ++ separator :: rest :=
  stem_prefix_iff.mpr ⟨rest, rfl⟩

/-- A stem is at the front of what is put behind it. -/
theorem prefix_behind (stem name rest : Key) : stem <+: stem ++ name ++ rest :=
  (List.prefix_append stem name).trans (List.prefix_append _ rest)

theorem stem_prefix_stem : path ++ [separator] <+: other ++ [separator] ↔
    path = other ∨ path ++ [separator] <+: other := by
  rw [List.prefix_concat_iff, List.append_left_inj]

/-- A marker stands below whatever its directory stands below. -/
theorem stem_prefix_marker (whole : separator ∉ suffix) :
    path ++ [separator] <+: other ++ suffix ↔ path ++ [separator] <+: other := by
  constructor
  · intro below
    rcases List.prefix_or_prefix_of_prefix below (List.prefix_append other suffix) with
      within | ⟨part, same⟩
    · exact within
    · obtain ⟨later, split⟩ := below
      rw [← same, List.append_assoc, List.append_cancel_left_eq] at split
      rcases List.eq_nil_or_concat part with rfl | ⟨before, c, rfl⟩
      · exact ⟨[], by rw [List.append_nil, ← same, List.append_nil]⟩
      · rw [List.concat_eq_append, ← List.append_assoc] at same
        have last := List.singleton_inj.mp (List.append_inj' same rfl).2
        rw [← split, last] at whole
        exact absurd (by simp) whole
  · exact fun below => below.trans (List.prefix_append other suffix)

theorem stem_prefix_trans (outer : path ++ [separator] <+: other)
    {key : Key} (inner : other ++ [separator] <+: key) : path ++ [separator] <+: key :=
  outer.trans ((List.prefix_append other [separator]).trans inner)

theorem not_stem_prefix_self : ¬ path ++ [separator] <+: path := by
  intro within
  have longer := within.length_le
  rw [List.length_append, List.length_singleton] at longer
  omega

theorem not_stem_prefix_marker (whole : separator ∉ suffix) :
    ¬ path ++ [separator] <+: path ++ suffix :=
  fun below => not_stem_prefix_self ((stem_prefix_marker whole).mp below)

/-- A child of a path is below whatever the path is or is below. -/
theorem stem_prefix_child {name : Path} (first : separator ∉ name) :
    path ++ [separator] <+: other ++ separator :: name ↔
      path ++ [separator] <+: other ++ [separator] := by
  have child : other ++ [separator] <+: other ++ separator :: name := stem_prefix_append
  constructor
  · intro below
    rcases List.prefix_or_prefix_of_prefix below child with above | above
    · exact above
    · rcases stem_prefix_stem.mp above with rfl | inside
      · exact List.prefix_refl _
      · obtain ⟨rest, rfl⟩ := stem_prefix_iff.mp inside
        obtain ⟨later, same⟩ := below
        simp only [List.append_assoc, List.cons_append, List.append_cancel_left_eq,
          List.cons.injEq, true_and] at same
        exact absurd (same ▸ by simp) first
  · exact fun above => above.trans child

variable (whole : separator ∉ suffix) (plain : Path.Plain suffix path)
include whole plain

theorem marker_ne (other : Path) : other ++ suffix ≠ path := by
  rintro rfl
  exact plain.not_suffix whole (List.suffix_append other suffix)

omit whole in
theorem stem_ne (other : Path) : other ++ [separator] ≠ path := by
  rintro rfl
  exact plain.concat_ne rfl

omit plain in
theorem marker_ne_stem (given : suffix ≠ []) (path other : Path) :
    path ++ suffix ≠ other ++ [separator] := by
  intro same
  obtain ⟨before, c, rfl⟩ := (List.eq_nil_or_concat suffix).resolve_left given
  rw [List.concat_eq_append, ← List.append_assoc] at same
  have last := List.singleton_inj.mp (List.append_inj' same rfl).2
  rw [last] at whole
  exact whole (by simp)

end keys

/-- A key that nothing is taken from the front of. -/
theorem Root.relative_eq_self_of {root : Root} {key : Key}
    (apart : Path.withSeparator key ≠ root.start) (outside : ¬ root.start <+: key)
    (first : key.head? ≠ some separator) : root.relative key = key := by
  rw [relative.eq_def, if_neg apart, if_neg outside]
  cases key with
  | nil => rfl
  | cons c rest => exact if_neg fun same => first (by rw [same, List.head?_cons])

theorem Path.no_double_withSeparator {path : Path} (single : ¬ [separator, separator] <:+: path) :
    ¬ [separator, separator] <:+: withSeparator path := by
  unfold withSeparator
  split
  · exact single
  · rename_i unended
    intro double
    rcases List.infix_concat_iff.mp double with ⟨before, same⟩ | inner
    · rw [List.append_cons before separator [separator]] at same
      have ended := (List.append_inj' same rfl).1
      exact unended (by rw [← ended, List.getLast?_concat])
    · exact single inner

namespace Root
variable {root : Root} {path : Path}

/-- A root has two separators in a row if it has a scheme. -/
theorem double_start {scheme name : Path}
    (key : root.key = scheme ++ [':', separator, separator] ++ name) :
    [separator, separator] <:+: root.start := by
  have inner : [separator, separator] <:+: root.key := ⟨scheme ++ [':'], name, by simp [key]⟩
  unfold start Path.withSeparator
  split
  · exact inner
  · exact inner.trans (List.prefix_append _ _).isInfix

variable (double : [separator, separator] <:+: root.start)
include double

/-- Then no path without two of them in a row, and without one at its start, has the root in
front. -/
theorem relative_of_single (single : ¬ [separator, separator] <:+: path)
    (head : path.head? ≠ some separator) : root.relative path = path := by
  have apart : Path.withSeparator path ≠ root.start := by
    intro same
    exact Path.no_double_withSeparator single (same ▸ double)
  exact relative_eq_self_of apart (fun within => single (double.trans within.isInfix)) head

theorem relative_named (named : path.Named) : root.relative path = path :=
  relative_of_single double named.no_double named.head?_ne

theorem relative_ended (named : path.Named) :
    root.relative (path ++ [separator]) = path ++ [separator] := by
  apply relative_of_single double
  · have single := Path.no_double_withSeparator named.no_double
    rwa [named.withSeparator_eq] at single
  · rw [List.head?_append]
    have first := named.head?_ne
    cases path with
    | nil => exact absurd rfl named.ne_nil
    | cons c rest => exact first

end Root

/-- The root has a scheme before its name, and the suffix marks a name without
cutting it. -/
structure FileSystem.Proper (fs : FileSystem) : Prop where
  scheme : ∃ scheme name, fs.root.key = scheme ++ [':', separator, separator] ++ name
  suffix_ne_nil : fs.suffix ≠ []
  suffix_whole : separator ∉ fs.suffix

/-- A file system over a bucket, with the usual settings. -/
def FileSystem.usual : FileSystem where
  root := ⟨"mem://bucket".toList, by decide⟩
  suffix := "_$folder$".toList

theorem FileSystem.usual_proper : usual.Proper :=
  ⟨⟨"mem".toList, "bucket".toList, rfl⟩, by decide, by decide⟩

namespace FileSystem.Proper
variable {fs : FileSystem} {path : Path}

theorem double_start (proper : fs.Proper) : [separator, separator] <:+: fs.root.start := by
  obtain ⟨scheme, name, key⟩ := proper.scheme
  exact Root.double_start key

section named
variable (proper : fs.Proper) (named : path.Named)
include proper named

theorem relative_named : fs.root.relative path = path :=
  Root.relative_named proper.double_start named

theorem isRoot_named : fs.root.isRoot path = false := by
  rw [Root.isRoot, proper.relative_named named]
  exact decide_eq_false named.ne_nil

theorem stem_named : fs.root.stem path = path ++ [separator] := by
  rw [Root.stem, proper.relative_named named, named.withSeparator_eq]
  exact if_neg fun bare => named.ne_nil (List.append_left_eq_self.mp bare)

theorem markerKey_named : fs.markerKey path = path ++ fs.suffix := by
  rw [markerKey, proper.relative_named named, markerOf, Path.dropSeparator,
    if_neg named.getLast?_ne]

theorem markerKey_ended : fs.markerKey (path ++ [separator]) = path ++ fs.suffix := by
  rw [markerKey, Root.relative_ended proper.double_start named, markerOf, Path.dropSeparator,
    List.getLast?_concat, if_pos rfl, List.dropLast_concat]

end named

section plain
variable (proper : fs.Proper) (plain : Path.Plain fs.suffix path)
include proper plain

theorem relative_plain : fs.root.relative path = path := proper.relative_named plain.named

theorem relative_stem : fs.root.relative (path ++ [separator]) = path ++ [separator] :=
  Root.relative_ended proper.double_start plain.named

theorem isRoot_plain : fs.root.isRoot path = false := proper.isRoot_named plain.named

theorem stem_plain : fs.root.stem path = path ++ [separator] := proper.stem_named plain.named

theorem markerKey_plain : fs.markerKey path = path ++ fs.suffix := proper.markerKey_named plain.named

theorem markerKey_stem : fs.markerKey (path ++ [separator]) = path ++ fs.suffix :=
  proper.markerKey_ended plain.named

end plain
end FileSystem.Proper
end KeyTree
