import KeyTree.S3.Dictionary
import Mathlib.Data.Nat.Digits.Defs

/-!
The token of an offset. An offset that counts from the start is written in decimal digits, and
reading these gives the offset back, so a page that ends with a token is continued where it
ended.
-/
namespace KeyTree

namespace Text

theorem digit?_of_isDigit {c : Char} (digit : c.isDigit = true) :
    digit? c = some (c.toNat - 48) := by
  obtain ⟨low, high⟩ : 48 ≤ c.toNat ∧ c.toNat ≤ 57 := Char.isDigit_iff_toNat.mp digit
  have below : c.toNat < 58 := Nat.lt_succ_of_le high
  have found : zeros.find? (fun first => first ≤ c.toNat && c.toNat < first + 10) = some 48 := by
    simp [zeros, low, below]
  rw [digit?, found]
  rfl

theorem isBlank_of_isDigit {c : Char} (digit : c.isDigit = true) : isBlank c = false := by
  obtain ⟨low, high⟩ : 48 ≤ c.toNat ∧ c.toNat ≤ 57 := Char.isDigit_iff_toNat.mp digit
  have space : c ≠ ' ' := by
    rintro rfl
    cases digit
  have beyond : c.toNat ∉ blanksBeyondAscii := by
    intro member
    have far : ∀ blank ∈ blanksBeyondAscii, 58 ≤ blank := by decide
    have bound := far _ member
    omega
  have printed : 13 < c.toNat := by omega
  simp [isBlank, space, beyond, printed]

end Text

namespace Numeral

/-- Plain digits are read to their end. -/
theorem scanDigits_digits {text : List Char} (found : List Nat)
    (digits : ∀ c ∈ text, c.isDigit = true) :
    scanDigits found text = some (found.reverse ++ text.map fun c => c.toNat - 48, []) := by
  induction text generalizing found with
  | nil => rw [scanDigits, List.map_nil, List.append_nil]
  | cons c rest ih =>
    have digit := digits c List.mem_cons_self
    have plain : c ≠ '_' := by
      rintro rfl
      cases digit
    rw [scanDigits]
    · rw [Text.digit?_of_isDigit digit]
      dsimp only
      rw [ih _ fun c member => digits c (List.mem_cons_of_mem _ member)]
      simp
    · exact fun same => absurd same plain
    · exact fun _ _ same => absurd same plain

/-- A text of digits is one numeral without a sign. -/
theorem scan_digits {text : List Char} (given : text ≠ [])
    (digits : ∀ c ∈ text, c.isDigit = true) :
    scan text = some (⟨false, text.map fun c => c.toNat - 48⟩, []) := by
  cases text with
  | nil => exact absurd rfl given
  | cons c rest =>
    have digit := digits c List.mem_cons_self
    have visible := Text.isBlank_of_isDigit digit
    have unsigned : scanUnsigned false (c :: rest) =
        some (⟨false, (c :: rest).map fun c => c.toNat - 48⟩, []) := by
      rw [scanUnsigned, Text.digit?_of_isDigit digit]
      simp only [Option.bind_eq_bind, Option.bind_some]
      rw [scanDigits_digits _ fun d member => digits d (List.mem_cons_of_mem _ member)]
      rfl
    rw [scan, List.dropWhile_cons_of_neg (by simp [visible])]
    split
    · rename_i same
      cases List.head_eq_of_cons_eq same
      cases digit
    · rename_i same
      cases List.head_eq_of_cons_eq same
      cases digit
    · exact unsigned

theorem magnitude_digits (negative : Bool) (text : List Char) :
    magnitude ⟨negative, text.map fun c => c.toNat - 48⟩ = Nat.ofDigitChars 10 text 0 := by
  have zero : '0'.toNat = 48 := rfl
  simp only [magnitude, Nat.ofDigitChars, List.foldl_map, Nat.mul_comm 10, zero]

theorem scan_toDigits (value : Nat) : scan (Nat.toDigits 10 value) =
    some (⟨false, (Nat.toDigits 10 value).map fun c => c.toNat - 48⟩, []) := by
  have digits : ∀ c ∈ Nat.toDigits 10 value, c.isDigit = true :=
    fun c => Nat.isDigit_of_mem_toDigits (by decide) (by decide)
  exact scan_digits Nat.toDigits_ne_nil digits

theorem integer?_toDigits (value : Nat) :
    integer? (Nat.toDigits 10 value) = some (value : Int) := by
  rw [integer?, scan_toDigits]
  simp only [Option.bind_eq_bind, Option.bind_some, List.all_nil, if_true, toInt,
    Bool.false_eq_true, if_false, magnitude_digits, Nat.ofDigitChars_ten_toDigits]

end Numeral

namespace S3.Dictionary

theorem offset_tokenAt (value : Nat) : offset (some (tokenAt value)) = .ok (value : Int) := by
  have read : Numeral.integer? (tokenAt value) = some (value : Int) :=
    Numeral.integer?_toDigits value
  simp only [offset, read]

theorem tokenAt_ne_nil (value : Nat) : tokenAt value ≠ [] :=
  Nat.toDigits_ne_nil

end S3.Dictionary
end KeyTree
