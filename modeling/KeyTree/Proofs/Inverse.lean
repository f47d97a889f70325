import KeyTree.Proofs.Joining

/-!
Joining and cutting undo each other. However a directory is written, a name that is joined to it
is put behind the stem of the directory, so cutting the stem off gives the name back, and the path
that is cut off before a single name is again that of the directory (`join_cuts`).
-/
namespace KeyTree

open KeyTree.Path (separator)

namespace Root
variable {root : Root} {path name : Path} {key : Key}

/-- How a directory may be written, with its key: behind a lead nothing or the root alone, which
have the empty key, or the names of the key, which one separator may end. -/
inductive Writes (root : Root) : Path → Key → Prop where
  | lead {lead : Path} (led : root.Lead lead) : Writes root lead []
  | bare {lead : Path} (led : root.Lead lead) : Writes root (lead ++ root.key) []
  | names {lead : Path} {key : Key} (led : root.Lead lead) (named : Path.Named key) :
    Writes root (lead ++ key) key
  | ended {lead : Path} {key : Key} (led : root.Lead lead) (named : Path.Named key) :
    Writes root (lead ++ (key ++ [separator])) key

namespace Writes

theorem place (writes : root.Writes path key) : key = [] ∨ Path.Named key := by
  cases writes with
  | lead | bare => exact .inl rfl
  | names _ named | ended _ named => exact .inr named

theorem getLast?_ne (writes : root.Writes path key) : key.getLast? ≠ some separator := by
  obtain rfl | named := writes.place
  · simp
  · exact named.getLast?_ne

variable (clean : root.Clean) (double : [separator, separator] <:+: root.start)
include clean double

/-- The key is that of the path, but for a separator at the end. -/
theorem relative_eq (writes : root.Writes path key) : root.relative path = key ∨
    Path.Named key ∧ root.relative path = key ++ [separator] := by
  cases writes with
  | lead led =>
    have led := led.relative clean.first []
    rw [List.append_nil, root.relative_nil] at led
    exact .inl led
  | bare led =>
    rw [led.relative clean.first, relative.eq_def]
    exact .inl (if_pos rfl)
  | names led named =>
    rw [led.relative clean.first]
    exact .inl (relative_named double named)
  | ended led named =>
    rw [led.relative clean.first]
    exact .inr ⟨named, relative_ended double named⟩

theorem trimEnd_relative (writes : root.Writes path key) :
    Path.trimEnd (root.relative path) = key := by
  have kept := Path.trimEnd_of_getLast?_ne writes.getLast?_ne
  obtain same | ⟨_, ended⟩ := writes.relative_eq clean double
  · rw [same, kept]
  · have shorter := Path.trimEnd_separators key 1
    rw [List.replicate_one] at shorter
    rw [ended, shorter, kept]

theorem dropSeparator_relative (writes : root.Writes path key) :
    Path.dropSeparator (root.relative path) = key := by
  obtain same | ⟨_, ended⟩ := writes.relative_eq clean double
  · rw [same]
    exact if_neg writes.getLast?_ne
  · rw [ended, Path.dropSeparator, List.getLast?_concat, if_pos rfl, List.dropLast_concat]

theorem isRoot_iff (writes : root.Writes path key) : root.isRoot path = true ↔ key = [] := by
  rw [isRoot, decide_eq_true_eq]
  obtain same | ⟨named, ended⟩ := writes.relative_eq clean double
  · rw [same]
  · simp [ended, named.ne_nil]

/-- The stem is empty at the root, and the key with one separator elsewhere. -/
theorem stem_eq (writes : root.Writes path key) :
    root.stem path = if key = [] then [] else key ++ [separator] := by
  split
  · rename_i top
    exact stem_root (decide_eq_true_eq.mp ((writes.isRoot_iff clean double).mpr top))
  · rename_i below
    have named := writes.place.resolve_left below
    obtain same | ⟨_, ended⟩ := writes.relative_eq clean double
    · rw [Root.stem_eq (by rwa [same]), same, named.withSeparator_eq]
    · rw [Root.stem_eq (by simp [ended]), ended, Path.withSeparator, List.getLast?_concat,
        if_pos rfl]

/-- What is left without the separators at the end is written with the same key. -/
theorem relative_trimEnd (writes : root.Writes path key) :
    root.relative (Path.trimEnd path) = key := by
  rw [Root.relative_trimEnd clean, writes.trimEnd_relative clean double]

/-- A name that is joined to the directory stands behind its stem. -/
theorem relative_join (writes : root.Writes path key) (named : name.Named) :
    root.relative (Path.join path name) = root.stem path ++ name := by
  have kept : Path.trim name = name := Path.trim_eq_self named.head?_ne named.getLast?_ne
  rw [relative_join_trim clean, kept, if_neg named.ne_nil, writes.trimEnd_relative clean double,
    writes.stem_eq clean double]
  obtain rfl | above := writes.place
  · rw [if_pos rfl, List.nil_append, List.nil_append, relative_separator clean.first,
      relative_named double named]
  · rw [if_neg above.ne_nil, List.append_assoc, List.singleton_append,
      relative_named double (Path.Named.append_iff.mpr ⟨above, named⟩)]

/-- Above a single name that is joined to the directory stands the directory without the separators
at its end; nothing is above it if nothing is left. -/
theorem parent?_join (writes : root.Writes path key) (given : name ≠ [])
    (single : separator ∉ name) : root.parent? (Path.join path name) =
      if Path.trimEnd path = [] then none else some (Path.trimEnd path) := by
  have named : name.Named := (Path.Named.iff_of_not_mem single).mpr given
  have below : ¬ root.isRoot (Path.join path name) = true := by
    rw [isRoot, decide_eq_true_eq, writes.relative_join clean double named]
    simp [given]
  rw [parent?, if_neg below, Path.join_name given single]
  split
  · exact Path.beforeLast?_of_not_mem single
  · exact Path.beforeLast?_append single

end Writes
end Root

namespace FileSystem
variable {fs : FileSystem} {path name scheme label : Path} {key : Key}

/-- A relative name that is joined to a directory, however that is written, stands behind the stem
of the directory, and is what the stem is cut off from. Above a single name is the directory again,
with the same stem and the same marker; nothing is above it only if the directory is the root. -/
theorem join_cuts (root : fs.root.key = scheme ++ [':', separator, separator] ++ label)
    (first : scheme.head? ≠ some separator) (labelled : label ≠ [])
    (last : label.getLast? ≠ some separator) (writes : fs.root.Writes path key)
    (named : name.Named) :
    let joined := Path.join path name
    fs.root.relative joined = fs.root.stem path ++ name ∧
    Path.childName (fs.root.relative joined) (fs.root.stem path) = .ok name ∧
    (separator ∉ name →
      (fs.root.parent? joined = none → fs.root.isRoot path = true) ∧
      ∀ parent, fs.root.parent? joined = some parent →
        fs.root.stem parent = fs.root.stem path ∧ fs.markerKey parent = fs.markerKey path) := by
  intro joined
  have clean : fs.root.Clean := .of_scheme root first labelled last
  have double := Root.double_start root
  have behind := writes.relative_join clean double named
  have bare := writes.relative_trimEnd clean double
  refine ⟨behind, ?_, fun single => ?_⟩
  · rw [behind, Path.childName, if_pos (List.prefix_append _ _), List.drop_left]
  rw [writes.parent?_join clean double named.ne_nil single]
  split
  · rename_i hollow
    rw [hollow, fs.root.relative_nil] at bare
    exact ⟨fun _ => (writes.isRoot_iff clean double).mpr bare.symm, nofun⟩
  · refine ⟨nofun, ?_⟩
    rintro _ ⟨⟩
    constructor
    · rw [writes.stem_eq clean double]
      split
      · rename_i top
        exact Root.stem_root (bare.trans top)
      · rename_i below
        have above := writes.place.resolve_left below
        rw [Root.stem_eq (by rwa [bare]), bare, above.withSeparator_eq]
    · rw [markerKey, markerKey, markerOf, markerOf, writes.dropSeparator_relative clean double,
        bare, Path.dropSeparator, if_neg writes.getLast?_ne]

/-- A directory behind two roots, with a separator at its end, and the root itself without one. -/
theorem join_cuts_led :
    let path := "/mem://bucket/mem://bucket/a/b/".toList
    let above := "/mem://bucket/mem://bucket/a/b".toList
    let top := "mem://bucket".toList
    usual.root.relative (Path.join path "x/y".toList) = "a/b/x/y".toList ∧
    Path.childName "a/b/x/y".toList (usual.root.stem path) = .ok "x/y".toList ∧
    usual.root.parent? (Path.join path "x".toList) = some above ∧
    usual.root.stem above = "a/b/".toList ∧ usual.markerKey above = usual.markerKey path ∧
    usual.root.parent? (Path.join top "x".toList) = some top ∧ usual.root.isRoot top = true := by
  intro path above top
  have key : usual.root.key = "mem".toList ++ [':', separator, separator] ++ "bucket".toList := rfl
  have double := Root.double_start key
  have led : usual.root.Lead (separator :: (usual.root.start ++ (usual.root.start ++ []))) :=
    .separator (.start (.start .nil))
  have named : Path.Named "a/b".toList := by decide
  have writes : usual.root.Writes path "a/b".toList := .ended led named
  have bare : usual.root.Writes top [] := .bare .nil
  have stem : usual.root.stem path = "a/b/".toList := writes.stem_eq usual_clean double
  have deep : Path.Named "x/y".toList := by decide
  have single : Path.Named "x".toList := by decide
  obtain ⟨behind, cut, _⟩ := join_cuts key (by decide) (by decide) (by decide) writes deep
  obtain ⟨_, _, same⟩ := join_cuts key (by decide) (by decide) (by decide) writes single
  have joined : usual.root.relative (Path.join path "x/y".toList) = "a/b/x/y".toList := by
    rw [behind, stem]
    decide
  rw [joined] at cut
  have up : usual.root.parent? (Path.join path "x".toList) = some above :=
    (writes.parent?_join usual_clean double (by decide) (by decide)).trans (by decide)
  have outer : usual.root.parent? (Path.join top "x".toList) = some top :=
    (bare.parent?_join usual_clean double (by decide) (by decide)).trans (by decide)
  obtain ⟨stems, markers⟩ := (same (by decide)).2 above up
  exact ⟨joined, cut, up, stems.trans stem, markers, outer,
    (bare.isRoot_iff usual_clean double).mpr rfl⟩

end FileSystem
end KeyTree
