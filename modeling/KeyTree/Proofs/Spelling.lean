import KeyTree.Proofs.Making
import Mathlib.Data.List.TakeWhile

/-!
How the start of a path is spelled. Separators and the root with its separator may stand in
front of a path in any order and number, and name nothing. Such a lead stays where it is when
the path behind it is trimmed, joined or cut down to the directory above it, until the root is
reached.
-/
namespace KeyTree

open KeyTree.Path (separator)

namespace Path
variable {path : Path}

/-- Something besides separators is in the path. -/
def Solid (path : Path) : Prop := ∃ c ∈ path, c ≠ separator

/-- A plain path is solid, whatever suffix its names are to end without. -/
theorem Plain.solid {suffix : Key} (plain : Plain suffix path) : Solid path := by
  cases path with
  | nil => exact absurd rfl plain.ne_nil
  | cons c rest => exact ⟨c, List.mem_cons_self, fun same => plain.head?_ne (by simp [same])⟩

/-- Trimming takes nothing but separators away. -/
theorem mem_trimEnd {c : Char} (member : c ∈ path) (other : c ≠ separator) :
    c ∈ trimEnd path := by
  rw [trimEnd, List.mem_reverse]
  have within := List.mem_reverse.mpr member
  rw [← List.takeWhile_append_dropWhile (p := (· = separator)) (l := path.reverse),
    List.mem_append] at within
  apply within.resolve_left
  intro taken
  exact other (by simpa using List.mem_takeWhile_imp taken)

theorem Solid.trimEnd (solid : Solid path) : Solid (trimEnd path) := by
  obtain ⟨c, member, other⟩ := solid
  exact ⟨c, mem_trimEnd member other, other⟩

theorem Solid.ne_nil (solid : Solid path) : path ≠ [] := by
  obtain ⟨c, member, _⟩ := solid
  exact List.ne_nil_of_mem member

theorem trimEnd_append (solid : Solid path) (lead : Path) :
    trimEnd (lead ++ path) = lead ++ trimEnd path := by
  have kept := solid.trimEnd.ne_nil
  rw [trimEnd, ne_eq, List.reverse_eq_nil_iff] at kept
  simp [trimEnd, List.reverse_append, List.dropWhile_append, kept]

theorem join_append (solid : Solid path) (lead name : Path) :
    join (lead ++ path) name = lead ++ join path name := by
  have kept := solid.trimEnd.ne_nil
  have led : lead ++ Path.trimEnd path ≠ [] := by simp [kept]
  simp only [join, trimEnd_append solid, if_neg kept, if_neg led]
  split
  · rfl
  · rw [List.append_assoc]

theorem Solid.join (solid : Solid path) (name : Path) : Solid (join path name) := by
  obtain ⟨c, member, other⟩ := solid.trimEnd
  simp only [Path.join, if_neg solid.trimEnd.ne_nil]
  split
  · exact ⟨c, member, other⟩
  · exact ⟨c, List.mem_append_left _ member, other⟩

end Path

namespace Root
variable {root : Root} {lead path parent : Path}

/-- Both paths name the same key, and so do all paths that are joined to them. -/
def Synonyms (root : Root) (one other : Path) : Prop :=
  ∀ names : List Path,
    root.relative (names.foldl Path.join one) = root.relative (names.foldl Path.join other)

namespace Synonyms
variable {one other : Path} (same : root.Synonyms one other)
include same

theorem here : root.relative one = root.relative other := same []

theorem child (name : Path) : root.Synonyms (Path.join one name) (Path.join other name) :=
  fun names => same (name :: names)

end Synonyms

/-- Separators and the root with its separator, one behind the other. -/
inductive Lead (root : Root) : Path → Prop where
  | nil : Lead root []
  | separator {lead : Path} (rest : Lead root lead) : Lead root (Path.separator :: lead)
  | start {lead : Path} (rest : Lead root lead) : Lead root (root.start ++ lead)

/-- The root does not begin with a separator, and with its own separator behind it does not
end with two. -/
structure Clean (root : Root) : Prop where
  first : root.start.head? ≠ some Path.separator
  last : ¬ [Path.separator, Path.separator] <:+ root.start

/-- A scheme with a name behind it is a clean root. -/
theorem Clean.of_scheme {scheme name : Path}
    (key : root.key = scheme ++ [':', Path.separator, Path.separator] ++ name)
    (first : scheme.head? ≠ some Path.separator) (named : name ≠ [])
    (last : name.getLast? ≠ some Path.separator) : root.Clean := by
  have ends : root.key.getLast? ≠ some Path.separator := by
    rw [key, List.getLast?_append, List.getLast?_eq_some_getLast named]
    rwa [List.getLast?_eq_some_getLast named] at last
  have start : root.start = root.key ++ [Path.separator] := if_neg ends
  constructor
  · rw [start, key]
    cases scheme with
    | nil => simp [Path.separator]
    | cons c rest => simpa using first
  · rw [start]
    intro double
    obtain ⟨before, same⟩ := double
    rw [List.append_cons before Path.separator [Path.separator]] at same
    have ended := (List.append_inj' same rfl).1
    exact ends (by rw [← ended, List.getLast?_concat])

theorem getLast?_start (root : Root) : root.start.getLast? = some Path.separator :=
  Path.getLast?_withSeparator root.key

theorem relative_nil (root : Root) : root.relative [] = [] := by
  rw [relative.eq_def]
  split
  · rfl
  · split
    · rename_i within
      exact absurd (List.prefix_nil.mp within) root.start_ne_nil
    · rfl

theorem relative_start (path : Path) :
    root.relative (root.start ++ path) = root.relative path := by
  rw [relative.eq_def]
  split
  · rename_i same
    have bare : path = [] := by
      unfold Path.withSeparator at same
      split at same
      · exact List.append_right_eq_self.mp same
      · have longer := congrArg List.length same
        simp at longer
    rw [bare, root.relative_nil]
  · rw [if_pos (List.prefix_append _ _), List.drop_left]

section first
variable (first : root.start.head? ≠ some Path.separator)
include first

theorem start_ne_cons (rest : Path) : root.start ≠ Path.separator :: rest := by
  intro same
  exact first (by rw [same, List.head?_cons])

theorem relative_separator (path : Path) :
    root.relative (Path.separator :: path) = root.relative path := by
  have apart : Path.withSeparator (Path.separator :: path) ≠ root.start := by
    unfold Path.withSeparator
    split
    · exact (start_ne_cons first _).symm
    · exact (start_ne_cons first _).symm
  have outside : ¬ root.start <+: Path.separator :: path := by
    intro within
    cases start : root.start with
    | nil => exact root.start_ne_nil start
    | cons c rest =>
      rw [start, List.cons_prefix_cons] at within
      exact start_ne_cons first rest (by rw [start, within.1])
  rw [relative.eq_def, if_neg apart, if_neg outside]
  exact if_pos rfl

/-- What stands in front names nothing. -/
theorem Lead.relative (led : root.Lead lead) (path : Path) :
    root.relative (lead ++ path) = root.relative path := by
  induction led with
  | nil => rfl
  | separator _ ih => rw [List.cons_append, relative_separator first, ih]
  | start _ ih => rw [List.append_assoc, relative_start, ih]

end first

section clean
variable (clean : root.Clean)
include clean

theorem Clean.start_front :
    ∃ front, root.start = front ++ [Path.separator] ∧ root.relative front = [] := by
  obtain ⟨front, same⟩ := List.getLast?_eq_some_iff.mp root.getLast?_start
  have bare : front.getLast? ≠ some Path.separator := by
    intro double
    obtain ⟨before, rfl⟩ := List.getLast?_eq_some_iff.mp double
    exact clean.last ⟨before, by rw [same, List.append_assoc]; rfl⟩
  refine ⟨front, same, ?_⟩
  rw [relative.eq_def, if_pos (by rw [Path.withSeparator, if_neg bare, same])]

theorem Lead.synonyms (led : root.Lead lead) (solid : path.Solid) :
    root.Synonyms (lead ++ path) path := by
  intro names
  induction names generalizing path with
  | nil => exact led.relative clean.first path
  | cons name later ih =>
    rw [List.foldl_cons, List.foldl_cons, Path.join_append solid]
    exact ih (solid.join name)

/-- A lead that is not empty ends with a separator, and the root is in front of that. -/
theorem Lead.front (led : root.Lead lead) :
    lead = [] ∨ ∃ front, lead = front ++ [Path.separator] ∧ root.relative front = [] := by
  induction led with
  | nil => exact .inl rfl
  | @separator lead _ ih =>
    refine .inr ?_
    obtain rfl | ⟨front, rfl, top⟩ := ih
    · exact ⟨[], rfl, root.relative_nil⟩
    · exact ⟨Path.separator :: front, rfl, by rw [relative_separator clean.first, top]⟩
  | @start lead _ ih =>
    refine .inr ?_
    obtain rfl | ⟨front, rfl, top⟩ := ih
    · simpa using clean.start_front
    · exact ⟨root.start ++ front, by rw [List.append_assoc], by rw [relative_start, top]⟩

theorem relative_of_not_solid (hollow : ¬ path.Solid) : root.relative path = [] := by
  induction path with
  | nil => exact root.relative_nil
  | cons c rest ih =>
    simp only [Path.Solid, List.mem_cons, not_exists, not_and, ne_eq, not_not, forall_eq_or_imp]
      at hollow ih
    rw [hollow.1, relative_separator clean.first]
    exact ih hollow.2

end clean

theorem ancestors_of_parent (up : root.parent? path = some parent) :
    root.ancestors path = parent :: root.ancestors parent := by
  rw [ancestors, up]

/-- Nothing but the root is above the path. -/
def AtTop (root : Root) (path : Path) : Prop :=
  ∀ parent, root.parent? path = some parent → root.isRoot parent = true

/-- The directory above a path stays the same one with a lead in front, up to the root. -/
theorem parent?_lead (clean : root.Clean) (led : root.Lead lead) (solid : path.Solid) :
    root.AtTop path ∧ root.AtTop (lead ++ path) ∨
    ∃ parent, parent.Solid ∧ root.parent? path = some parent ∧
      root.parent? (lead ++ path) = some (lead ++ parent) := by
  have same : root.isRoot (lead ++ path) = root.isRoot path := by
    simp only [isRoot, led.relative clean.first]
  by_cases top : root.isRoot path = true
  · exact .inl ⟨by simp [AtTop, parent?, top], by simp [AtTop, parent?, same, top]⟩
  · obtain single | ⟨parent, name, first, rfl⟩ := path.cut_last
    · obtain rfl | ⟨front, rfl, above⟩ := led.front clean
      · simp [AtTop, parent?, Path.beforeLast?_of_not_mem single]
      · simp [AtTop, parent?, Path.beforeLast?_of_not_mem single,
          Path.beforeLast?_append single, isRoot, above]
    · have below : root.parent? (parent ++ Path.separator :: name) = some parent := by
        rw [parent?, if_neg top, Path.beforeLast?_append first]
      have led_below : root.parent? (lead ++ (parent ++ Path.separator :: name)) =
          some (lead ++ parent) := by
        rw [parent?, same, if_neg top, ← List.append_assoc, Path.beforeLast?_append first]
      by_cases hollow : parent.Solid
      · exact .inr ⟨parent, hollow, below, led_below⟩
      · have bare := relative_of_not_solid clean hollow
        simp [AtTop, below, led_below, isRoot, led.relative clean.first, bare]

end Root

theorem FileSystem.usual_clean : usual.root.Clean := by
  have key : usual.root.key = "mem".toList ++ [':', separator, separator] ++ "bucket".toList := rfl
  exact .of_scheme key (by decide) (by decide) (by decide)

end KeyTree
