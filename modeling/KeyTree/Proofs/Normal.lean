import KeyTree.Proofs.Joining

/-!
The key as a normal form of the path. The front of a path is cut in passes, each of which takes
away the root or one separator, until neither stands there; no path needs more passes than it has
characters and one. What is left is the key. It has nothing more to cut, so it is its own key, and
whatever separators and roots are put in front of a path, its key stays the same
(`relative_normalizes`).
-/
namespace KeyTree.Root

open KeyTree.Path (separator)

variable {root : Root} {path rest : Path} {key : Key} {count : Nat}

/-- One pass over the front of a path: what the next pass begins with, or the key. -/
def pass (root : Root) (path : Path) : Path ⊕ Key :=
  if Path.withSeparator path = root.start then .inr []
  else if root.start <+: path then .inl (path.drop root.start.length)
  else match path with
    | [] => .inr []
    | c :: rest => if c = separator then .inl rest else .inr (c :: rest)

/-- So many passes, one after the other, come from the path to the key. -/
inductive Passes (root : Root) : (count : Nat) → Path → Key → Prop where
  | last {path : Path} {key : Key} (ends : root.pass path = .inr key) : Passes root 1 path key
  | next {path rest : Path} {key : Key} {count : Nat} (cuts : root.pass path = .inl rest)
    (later : Passes root count rest key) : Passes root (count + 1) path key

theorem relative_eq_of_pass (ends : root.pass path = .inr key) : root.relative path = key := by
  rw [relative.eq_def]
  unfold pass at ends
  grind

theorem relative_eq_relative_of_pass (cuts : root.pass path = .inl rest) :
    root.relative path = root.relative rest := by
  rw [relative.eq_def]
  unfold pass at cuts
  grind

/-- The passes over a path come to no other key. -/
theorem Passes.relative_eq (passes : root.Passes count path key) : root.relative path = key := by
  induction passes with
  | last ends => exact relative_eq_of_pass ends
  | next cuts _ ih => rw [relative_eq_relative_of_pass cuts, ih]

/-- Each pass but the last makes the path shorter. -/
theorem length_lt_of_pass (cuts : root.pass path = .inl rest) : rest.length < path.length := by
  have some_start := List.length_pos_iff.mpr root.start_ne_nil
  unfold pass at cuts
  split at cuts
  · cases cuts
  split at cuts
  · rename_i within
    have longer := within.length_le
    cases cuts
    rw [List.length_drop]
    omega
  · split at cuts
    · cases cuts
    · split at cuts
      · cases cuts
        exact Nat.lt_succ_self _
      · cases cuts

theorem exists_passes (root : Root) (path : Path) :
    ∃ count ≤ path.length + 1, root.Passes count path (root.relative path) := by
  cases passed : root.pass path with
  | inr key =>
    rw [relative_eq_of_pass passed]
    exact ⟨1, by omega, .last passed⟩
  | inl rest =>
    have shorter := length_lt_of_pass passed
    obtain ⟨count, few, later⟩ := exists_passes root rest
    rw [relative_eq_relative_of_pass passed]
    exact ⟨count + 1, by omega, .next passed later⟩
termination_by path.length

/-- What the passes cut off is a lead, and behind it stands the key, or the root alone. -/
theorem exists_lead (root : Root) (path : Path) :
    ∃ lead rest, root.Lead lead ∧ path = lead ++ rest ∧
      (root.relative path = rest ∨
        Path.withSeparator rest = root.start ∧ root.relative path = []) := by
  fun_induction Root.relative root path with
  | case1 path bare => exact ⟨[], path, .nil, rfl, .inr ⟨bare, rfl⟩⟩
  | case2 path _ within ih =>
    obtain ⟨behind, rfl⟩ := within
    rw [List.drop_left] at ih ⊢
    obtain ⟨lead, rest, led, rfl, ends⟩ := ih
    exact ⟨root.start ++ lead, rest, led.start, by rw [List.append_assoc], ends⟩
  | case3 => exact ⟨[], [], .nil, rfl, .inl rfl⟩
  | case4 behind _ _ ih =>
    obtain ⟨lead, rest, led, rfl, ends⟩ := ih
    exact ⟨separator :: lead, rest, led.separator, rfl, ends⟩
  | case5 c behind _ _ _ => exact ⟨[], c :: behind, .nil, rfl, .inl rfl⟩

/-- A key that is left has nothing in front that names nothing. -/
theorem relative_relative (root : Root) (path : Path) :
    root.relative (root.relative path) = root.relative path := by
  obtain top | ⟨apart, outside, front⟩ := root.relative_normal path
  · rw [top, relative_nil]
  · exact relative_eq_self_of apart outside front

/-- A root that is written without a separator in front begins with none. -/
theorem head?_start_ne (first : root.key.head? ≠ some separator) :
    root.start.head? ≠ some separator := by
  unfold start Path.withSeparator
  split
  · exact first
  · rw [List.head?_append]
    cases key : root.key with
    | nil => exact absurd key root.key_ne_nil
    | cons c rest => rwa [key] at first

/-- A path names the root if it is a lead, or a lead with the root alone behind it. -/
theorem isRoot_iff (first : root.start.head? ≠ some separator) : root.isRoot path = true ↔
    ∃ lead rest, root.Lead lead ∧ path = lead ++ rest ∧
      (rest = [] ∨ Path.withSeparator rest = root.start) := by
  rw [isRoot, decide_eq_true_eq]
  constructor
  · intro top
    obtain ⟨lead, rest, led, rfl, same | ⟨bare, _⟩⟩ := root.exists_lead path
    · exact ⟨lead, rest, led, rfl, .inl (by rw [← same, top])⟩
    · exact ⟨lead, rest, led, rfl, .inr bare⟩
  · rintro ⟨lead, rest, led, rfl, rfl | bare⟩
    · rw [led.relative first, relative_nil]
    · rw [led.relative first, relative.eq_def, if_pos bare]

/-- Cutting the front of a path ends, at a key that is the end of the path and has neither a
separator nor the root in front, nor is the root. It is its own key, and the key of the path with
separators and roots in front, in any number and mixture. It is empty where the path names the
root. -/
theorem relative_normalizes (root : Root) (first : root.key.head? ≠ some separator) (path : Path) :
    let key := root.relative path
    (∃ count ≤ path.length + 1, root.Passes count path key) ∧
    (∀ count other, root.Passes count path other → other = key) ∧
    key <:+ path ∧
    (key = [] ∨ key.head? ≠ some separator ∧ ¬ root.start <+: key ∧
      Path.withSeparator key ≠ root.start) ∧
    root.relative key = key ∧
    root.relative (separator :: path) = key ∧
    root.relative (root.start ++ path) = key ∧
    (root.isRoot path = true ↔ key = []) ∧
    (root.isRoot path = true ↔ ∃ lead rest, root.Lead lead ∧ path = lead ++ rest ∧
      (rest = [] ∨ Path.withSeparator rest = root.start)) ∧
    ∀ lead other, root.Lead lead → root.Lead other →
      root.relative (lead ++ path) = root.relative (other ++ path) := by
  intro key
  have front := head?_start_ne first
  have normal : key = [] ∨ key.head? ≠ some separator ∧ ¬ root.start <+: key ∧
      Path.withSeparator key ≠ root.start :=
    (root.relative_normal path).imp_right fun ⟨apart, outside, head⟩ => ⟨head, outside, apart⟩
  refine ⟨root.exists_passes path, fun count other passes => passes.relative_eq.symm,
    root.relative_suffix path, normal, root.relative_relative path, relative_separator front path,
    relative_start path, decide_eq_true_iff, isRoot_iff front, fun lead other led fronted => ?_⟩
  rw [led.relative front, fronted.relative front]

/-- A root whose own text has separators, and a path in which it overlaps itself. -/
theorem relative_normalizes_overlap :
    let root : Root := ⟨"a/a".toList, by decide⟩
    let path := "/a/a/a/a/a/x".toList
    root.key.head? ≠ some separator ∧ root.relative path = "a/x".toList ∧
    root.relative (root.start ++ separator :: path) = "a/x".toList ∧
    root.isRoot path = false ∧ root.isRoot "/a/a/a/a".toList = true := by
  intro root path
  have first : root.key.head? ≠ some separator := by decide
  obtain ⟨_, unique, _, _, _, _, _, top, _, led⟩ := relative_normalizes root first path
  obtain ⟨_, _, _, _, _, _, _, _, spelled, _⟩ :=
    relative_normalizes root first "/a/a/a/a".toList
  have first_cut : root.pass path = .inl "a/a/a/a/a/x".toList := by decide
  have second_cut : root.pass "a/a/a/a/a/x".toList = .inl "a/a/a/x".toList := by decide
  have third_cut : root.pass "a/a/a/x".toList = .inl "a/x".toList := by decide
  have ends : root.pass "a/x".toList = .inr "a/x".toList := by decide
  have passes : root.Passes 4 path "a/x".toList :=
    .next first_cut (.next second_cut (.next third_cut (.last ends)))
  have cut : root.relative path = "a/x".toList := (unique 4 _ passes).symm
  have fronted := led (root.start ++ [separator]) [] (.start (.separator .nil)) .nil
  rw [List.append_assoc, List.singleton_append, List.nil_append, cut] at fronted
  have below : ¬ root.relative path = [] := by rw [cut]; decide
  refine ⟨first, cut, fronted, Bool.eq_false_iff.mpr (top.not.mpr below), spelled.mpr ?_⟩
  exact ⟨separator :: (root.start ++ []), "a/a".toList, .separator (.start .nil), by decide,
    .inr (by decide)⟩

end KeyTree.Root
