import KeyTree.Proofs.Spelling
import Mathlib.Data.List.Induction

/-!
The keys of joined paths. A name that is joined to a path is put behind the stem of the path,
and so is the start of a group; the one other thing that can happen is that the longer path
spells the root. A name with separators of its own at its ends loses them first. Nothing that is
taken from the front of a path makes its key longer.
-/
namespace KeyTree

open KeyTree.Path (separator)

namespace Path
variable {path name : Path}

theorem length_trimEnd_le (path : Path) : (trimEnd path).length ≤ path.length := by
  have short := (List.dropWhile_suffix (p := (· = separator)) (l := path.reverse)).length_le
  rw [List.length_reverse] at short
  rwa [trimEnd, List.length_reverse]

theorem getLast?_trimEnd_ne (path : Path) : (trimEnd path).getLast? ≠ some separator := by
  rw [trimEnd, List.getLast?_reverse]
  intro last
  have kept := List.head?_dropWhile_not (· = separator) path.reverse
  rw [last] at kept
  simp at kept

theorem length_dropSeparator_le (path : Path) : (dropSeparator path).length ≤ path.length := by
  rw [dropSeparator]
  split
  · rw [List.length_dropLast]
    exact Nat.sub_le _ _
  · exact Nat.le_refl _

/-- A name without a separator is joined as it is. -/
theorem join_name (given : name ≠ []) (whole : separator ∉ name) :
    join path name = if trimEnd path = [] then name else trimEnd path ++ separator :: name := by
  have last : name.getLast? ≠ some separator := fun ends => whole (List.mem_of_getLast? ends)
  have first : name.head? ≠ some separator := fun front => whole (List.mem_of_head? front)
  rw [join, trim_eq_self first last]
  simp only [if_neg given]

theorem getLast?_behind (path : Path) (given : name ≠ []) :
    (path ++ separator :: name).getLast? = name.getLast? := by
  rw [List.append_cons, List.getLast?_append, List.getLast?_eq_some_getLast given, Option.some_or]

theorem getLast?_join_ne (path : Path) (given : name ≠ []) (whole : separator ∉ name) :
    (join path name).getLast? ≠ some separator := by
  rw [join_name given whole]
  have last : name.getLast? ≠ some separator := fun ends => whole (List.mem_of_getLast? ends)
  split
  · exact last
  · rwa [getLast?_behind _ given]

theorem trimEnd_separators (path : Path) (count : Nat) :
    trimEnd (path ++ List.replicate count separator) = trimEnd path := by
  induction count with
  | zero => rw [List.replicate_zero, List.append_nil]
  | succ count ih =>
    rw [List.replicate_succ', ← List.append_assoc, ← ih]
    simp [trimEnd]

/-- Only separators are taken away at the end. -/
theorem exists_trimEnd (path : Path) :
    ∃ count, path = trimEnd path ++ List.replicate count separator := by
  induction path using List.reverseRecOn with
  | nil => exact ⟨0, rfl⟩
  | append_singleton front c ih =>
    by_cases same : c = separator
    · obtain ⟨count, cut⟩ := ih
      refine ⟨count + 1, ?_⟩
      have shorter := trimEnd_separators front 1
      rw [List.replicate_one] at shorter
      rw [same, shorter, List.replicate_succ', ← List.append_assoc, ← cut]
    · have kept : trimEnd (front ++ [c]) = front ++ [c] :=
        trimEnd_of_getLast?_ne (by simpa using same)
      exact ⟨0, by simp [kept]⟩

theorem trimEnd_prefix_self (path : Path) : trimEnd path <+: path := by
  obtain ⟨count, cut⟩ := exists_trimEnd path
  exact ⟨_, cut.symm⟩

theorem head?_of_trimEnd {c : Char} (first : (trimEnd path).head? = some c) :
    path.head? = some c := by
  obtain ⟨behind, cut⟩ := trimEnd_prefix_self path
  rw [← cut, List.head?_append, first, Option.some_or]

theorem head?_trim_ne (name : Path) : (trim name).head? ≠ some separator := by
  intro first
  have lead := List.head?_dropWhile_not (· = separator) name
  rw [head?_of_trimEnd first] at lead
  simp at lead

/-- Something is left of a name that has more than separators. -/
theorem Solid.trim_ne_nil (solid : Solid name) : trim name ≠ [] := by
  obtain ⟨c, member, other⟩ := solid
  rw [← List.takeWhile_append_dropWhile (p := (· = separator)) (l := name), List.mem_append]
    at member
  have behind := member.resolve_left fun taken =>
    other (by simpa using List.mem_takeWhile_imp taken)
  exact List.ne_nil_of_mem (mem_trimEnd behind other)

theorem solid_of_getLast?_ne (given : path ≠ []) (last : path.getLast? ≠ some separator) :
    Solid path := by
  refine ⟨path.getLast given, List.getLast_mem given, fun same => last ?_⟩
  rw [List.getLast?_eq_some_getLast given, same]

/-- Nothing is left of a path that has only separators. -/
theorem trimEnd_of_not_solid (hollow : ¬ Solid path) : trimEnd path = [] := by
  by_contra given
  obtain ⟨c, member, other⟩ := solid_of_getLast?_ne given (getLast?_trimEnd_ne path)
  exact hollow ⟨c, (trimEnd_prefix_self path).subset member, other⟩

theorem trimEnd_append_of_not_solid (hollow : ¬ Solid path) (front : Path) :
    trimEnd (front ++ path) = trimEnd front := by
  obtain ⟨count, cut⟩ := exists_trimEnd path
  rw [trimEnd_of_not_solid hollow, List.nil_append] at cut
  rw [cut, trimEnd_separators]

end Path

namespace Root
variable {root : Root} {path name : Path} {key : Key}

theorem relative_suffix (root : Root) (path : Path) : root.relative path <:+ path := by
  fun_induction Root.relative root path with
  | case1 path same => exact List.nil_suffix
  | case2 path _ within ih => exact ih.trans (List.drop_suffix _ _)
  | case3 => exact List.suffix_refl []
  | case4 rest _ _ ih => exact ih.trans (List.suffix_cons _ _)
  | case5 c rest _ _ _ => exact List.suffix_refl _

/-- The front of a path may be brought to its key before what follows a separator is read. -/
theorem relative_append_separator (first : root.start.head? ≠ some separator) (path rest : Path) :
    root.relative (path ++ separator :: rest) =
      root.relative (root.relative path ++ separator :: rest) := by
  fun_induction Root.relative root path with
  | case1 path same =>
    rw [List.nil_append, relative_separator first]
    unfold Path.withSeparator at same
    split at same
    · rw [same, relative_start, relative_separator first]
    · rw [← List.singleton_append, ← List.append_assoc, same, relative_start]
  | case2 path _ within ih =>
    obtain ⟨behind, rfl⟩ := within
    rw [List.drop_left] at ih
    rw [List.append_assoc, relative_start, ih, List.drop_left]
  | case3 => rfl
  | case4 behind _ _ ih => rw [List.cons_append, relative_separator first, ih]
  | case5 c behind _ _ _ => rfl

/-- The key of a path is the root's, or no root stands in front of it. -/
theorem relative_normal (root : Root) (path : Path) : root.relative path = [] ∨
    Path.withSeparator (root.relative path) ≠ root.start ∧ ¬ root.start <+: root.relative path ∧
      (root.relative path).head? ≠ some separator := by
  fun_induction Root.relative root path with
  | case1 | case3 => exact .inl rfl
  | case2 _ _ _ ih => exact ih
  | case4 _ _ _ ih => exact ih
  | case5 c rest other apart outside =>
    exact .inr ⟨apart, outside, fun same => other (Option.some.inj same)⟩

theorem isRoot_eq_false : root.isRoot path = false ↔ root.relative path ≠ [] :=
  decide_eq_false_iff_not

theorem stem_root (top : root.relative path = []) : root.stem path = [] := by
  rw [stem, top]
  rfl

/-- Below the root, the stem is the key with one separator at its end. -/
theorem stem_eq (below : root.relative path ≠ []) :
    root.stem path = Path.withSeparator (root.relative path) := by
  have normal := root.relative_normal path
  rw [stem, if_neg]
  intro bare
  rw [Path.withSeparator] at bare
  split at bare
  · exact (normal.resolve_left below).2.2 (by rw [bare, List.head?_cons])
  · exact below (List.append_left_eq_self.mp bare)

theorem stem_shape (root : Root) (path : Path) :
    root.stem path = [] ∨ ∃ front, root.stem path = front ++ [separator] := by
  rw [stem]
  split
  · exact .inl rfl
  · exact .inr (List.getLast?_eq_some_iff.mp (Path.getLast?_withSeparator _))

theorem length_stem_le (root : Root) (path : Path) : (root.stem path).length ≤ path.length + 1 := by
  have within := (root.relative_suffix path).length_le
  rw [stem]
  split
  · exact Nat.zero_le _
  · rw [Path.withSeparator]
    split
    · omega
    · rw [List.length_append, List.length_singleton]
      omega

theorem getLast?_relative_ne (last : path.getLast? ≠ some separator) :
    (root.relative path).getLast? ≠ some separator := by
  intro ends
  obtain ⟨front, same⟩ := List.getLast?_eq_some_iff.mp ends
  obtain ⟨lead, split⟩ := root.relative_suffix path
  rw [← split, same, ← List.append_assoc] at last
  exact last List.getLast?_concat

theorem stem_below (below : root.relative path ≠ []) (last : path.getLast? ≠ some separator) :
    root.stem path = root.relative path ++ [separator] := by
  have ends : Path.withSeparator (root.relative path) = root.relative path ++ [separator] :=
    if_neg (getLast?_relative_ne last)
  have longer : root.relative path ++ [separator] ≠ [separator] := by simpa using below
  simp only [stem, ends, if_neg longer]

/-- What is put behind a key and a separator stays, unless it is the end of the root. -/
theorem relative_behind (below : root.relative path ≠ []) (last : path.getLast? ≠ some separator)
    {tail : Path} (single : separator ∉ tail.dropLast) :
    root.relative (root.relative path ++ separator :: tail) = [] ∨
      root.relative (root.relative path ++ separator :: tail) =
        root.relative path ++ separator :: tail := by
  obtain top | ⟨apart, outside, front⟩ := root.relative_normal path
  · exact absurd top below
  have bare : (root.relative path).getLast? ≠ some separator := getLast?_relative_ne last
  generalize root.relative path = key at *
  rw [Path.withSeparator, if_neg bare] at apart
  rw [relative.eq_def]
  split
  · exact .inl rfl
  split
  · rename_i within
    -- The root ends behind the key, with a separator: at the first one or with the tail.
    left
    obtain ⟨behind, start⟩ : key <+: root.start :=
      (List.prefix_or_prefix_of_prefix within (List.prefix_append _ _)).resolve_left outside
    rw [← start, List.prefix_append_right_inj] at within
    cases behind with
    | nil =>
      have same : root.start = key := by rw [← start, List.append_nil]
      exact absurd (same ▸ List.prefix_refl root.start) outside
    | cons c behind =>
      obtain ⟨rfl, rest, rfl⟩ := List.cons_prefix_cons.mp within
      have ends := root.getLast?_start
      rcases List.eq_nil_or_concat behind with rfl | ⟨inner, c, rfl⟩
      · exact absurd start apart
      · cases rest with
        | nil => simp [← start, relative_nil]
        | cons d rest =>
          rw [← start, List.concat_eq_append, ← List.cons_append, ← List.append_assoc,
            List.getLast?_concat] at ends
          exact absurd (by simp [Option.some.inj ends]) single
  · right
    cases key with
    | nil => exact absurd rfl below
    | cons c rest =>
      rw [List.head?_cons] at front
      exact if_neg fun same => front (by rw [same])

theorem relative_name (whole : separator ∉ name) :
    root.relative name = [] ∨ root.relative name = name := by
  have outside : ¬ root.start <+: name := fun within =>
    whole (within.subset (List.mem_of_getLast? root.getLast?_start))
  rw [relative.eq_def, if_neg outside]
  split
  · exact .inl rfl
  · cases name with
    | nil => exact .inl rfl
    | cons c rest =>
      have other : c ≠ separator := fun same => whole (same ▸ List.mem_cons_self)
      exact .inr (if_neg other)

/-- A name that is joined to a path stands behind its stem, unless the two spell the root. -/
theorem relative_join (first : root.start.head? ≠ some separator) (path : Path)
    (given : name ≠ []) (whole : separator ∉ name) :
    root.relative (Path.join path name) = [] ∨
      root.relative (Path.join path name) = root.stem (Path.trimEnd path) ++ name := by
  have last := Path.getLast?_trimEnd_ne path
  rw [Path.join_name given whole]
  generalize Path.trimEnd path = base at *
  split
  · rename_i bare
    rw [bare, stem_root root.relative_nil]
    exact relative_name whole
  · rw [relative_append_separator first]
    by_cases top : root.relative base = []
    · rw [top, stem_root top, List.nil_append, relative_separator first]
      exact relative_name whole
    · rw [stem_below top last, List.append_assoc, List.singleton_append]
      exact relative_behind top last fun inner => whole (name.dropLast_subset inner)

/-- What is left of a key without the separators at its end does not end the root. -/
theorem start_ne_trimEnd (apart : Path.withSeparator key ≠ root.start)
    (outside : ¬ root.start <+: key) : root.start ≠ Path.trimEnd key ++ [separator] := by
  intro same
  obtain ⟨count, cut⟩ := Path.exists_trimEnd key
  cases count with
  | zero =>
    rw [List.replicate_zero, List.append_nil] at cut
    have bare : key.getLast? ≠ some separator := cut ▸ Path.getLast?_trimEnd_ne key
    exact apart (by rw [Path.withSeparator, if_neg bare, same, ← cut])
  | succ count =>
    refine outside ⟨List.replicate count separator, ?_⟩
    rw [same, List.append_assoc]
    exact cut.symm

theorem trimEnd_relative_ne_nil (below : root.relative path ≠ []) :
    Path.trimEnd (root.relative path) ≠ [] := by
  obtain top | ⟨_, _, first⟩ := root.relative_normal path
  · exact absurd top below
  · cases key : root.relative path with
    | nil => exact absurd key below
    | cons c rest =>
      have solid : Path.Solid (c :: rest) :=
        ⟨c, List.mem_cons_self, fun same => first (by rw [key, same, List.head?_cons])⟩
      exact solid.trimEnd.ne_nil

section clean
variable (clean : root.Clean)
include clean

theorem relative_trimEnd_start : root.relative (Path.trimEnd root.start) = [] := by
  obtain ⟨front, start, top⟩ := clean.start_front
  have bare : front.getLast? ≠ some separator := by
    intro double
    obtain ⟨before, rfl⟩ := List.getLast?_eq_some_iff.mp double
    exact clean.last ⟨before, by rw [start, List.append_assoc]; rfl⟩
  have kept := Path.trimEnd_separators front 1
  rw [List.replicate_one, Path.trimEnd_of_getLast?_ne bare] at kept
  rw [start, kept, top]

/-- Separators at the end of a path are at the end of its key. -/
theorem relative_trimEnd (path : Path) :
    root.relative (Path.trimEnd path) = Path.trimEnd (root.relative path) := by
  fun_induction Root.relative root path with
  | case1 path same =>
    have kept : Path.trimEnd (Path.withSeparator path) = Path.trimEnd path := by
      unfold Path.withSeparator
      split
      · rfl
      · exact Path.trimEnd_separators path 1
    rw [← kept, same]
    exact relative_trimEnd_start clean
  | case2 path _ within ih =>
    obtain ⟨behind, rfl⟩ := within
    rw [List.drop_left] at ih ⊢
    by_cases solid : Path.Solid behind
    · rw [Path.trimEnd_append solid, relative_start, ih]
    · rw [Path.trimEnd_append_of_not_solid solid, relative_trimEnd_start clean,
        relative_of_not_solid clean solid]
      rfl
  | case3 => exact root.relative_nil
  | case4 rest _ _ ih =>
    rw [← List.singleton_append]
    by_cases solid : Path.Solid rest
    · rw [Path.trimEnd_append solid, List.singleton_append, relative_separator clean.first, ih]
    · rw [Path.trimEnd_append_of_not_solid solid, relative_of_not_solid clean solid]
      exact root.relative_nil
  | case5 c rest other apart outside =>
    apply relative_eq_self_of
    · rw [Path.withSeparator, if_neg (Path.getLast?_trimEnd_ne _)]
      exact (start_ne_trimEnd apart outside).symm
    · exact fun within => outside (within.trans (Path.trimEnd_prefix_self _))
    · exact fun first => other (Option.some.inj (Path.head?_of_trimEnd first))

/-- What is joined to a path goes behind its key without the separators at the end. -/
theorem relative_join_trim (path name : Path) : root.relative (Path.join path name) =
    if Path.trim name = [] then Path.trimEnd (root.relative path)
    else root.relative (Path.trimEnd (root.relative path) ++ separator :: Path.trim name) := by
  rw [← relative_trimEnd clean]
  simp only [Path.join]
  split
  · rename_i bare
    rw [bare, root.relative_nil, List.nil_append, relative_separator clean.first]
    split
    · rename_i hollow
      rw [hollow, root.relative_nil]
    · rfl
  · split
    · rfl
    · rw [relative_append_separator clean.first]

/-- If no separator is at the end of the key, that is right behind the stem. -/
theorem relative_join_behind (last : (root.relative path).getLast? ≠ some separator)
    (given : Path.trim name ≠ []) :
    root.relative (Path.join path name) = root.relative (root.stem path ++ Path.trim name) := by
  rw [relative_join_trim clean, if_neg given, Path.trimEnd_of_getLast?_ne last]
  by_cases top : root.relative path = []
  · rw [top, stem_root top, List.nil_append, List.nil_append, relative_separator clean.first]
  · rw [stem_eq top, Path.withSeparator, if_neg last, List.append_assoc, List.singleton_append]

end clean
end Root

/-- A path whose names are joined to the root or to another such path is the key behind the stem. -/
theorem FileSystem.Proper.relative_join_named {fs : FileSystem} {path name : Path}
    (proper : fs.Proper) (clean : fs.root.Clean)
    (place : fs.root.relative path = [] ∨ Path.Named (fs.root.relative path)) (named : name.Named) :
    fs.root.relative (Path.join path name) = fs.root.stem path ++ name := by
  have kept : Path.trim name = name := Path.trim_eq_self named.head?_ne named.getLast?_ne
  obtain top | above := place
  · rw [Root.relative_join_behind clean (by simp [top]) (by rw [kept]; exact named.ne_nil), kept,
      Root.stem_root top, List.nil_append, proper.relative_named named]
  · rw [Root.relative_join_behind clean above.getLast?_ne (by rw [kept]; exact named.ne_nil), kept,
      Root.stem_eq above.ne_nil, Path.withSeparator, if_neg above.getLast?_ne, List.append_assoc,
      List.singleton_append, proper.relative_named (Path.Named.append_iff.mpr ⟨above, named⟩)]

end KeyTree
