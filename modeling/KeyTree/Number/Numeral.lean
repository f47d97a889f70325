import KeyTree.Error
import KeyTree.Number.Binary64
import KeyTree.Text.Blank
import KeyTree.Text.Digit

/-!
Integers read from scalars. A written integer has an optional sign and decimal
digits of any script, with single underscores between them and blanks around it, and
no more digits than `Numeral.longest`. A fraction is taken at binary64 precision and
cut toward zero.
-/
namespace KeyTree

/-- A numeral as it is written: its sign, and the values of its digits in order. -/
structure Numeral where
  negative : Bool
  digits : List Nat
  deriving DecidableEq, Repr

namespace Numeral

/-- A numeral with more digits is neither read, however many of them are zeros, nor
written. -/
def longest : Nat := 4300

def magnitude (numeral : Numeral) : Nat :=
  numeral.digits.foldl (fun value digit => value * 10 + digit) 0

def toInt (numeral : Numeral) : Int :=
  if numeral.negative then -(numeral.magnitude : Int) else numeral.magnitude

/-- Goes on from the digits found, the last one first, to the first character that is
neither a digit nor an underscore. An underscore needs a digit behind it. -/
def scanDigits (found : List Nat) : List Char → Option (List Nat × List Char)
  | [] => some (found.reverse, [])
  | ['_'] => none
  | '_' :: c :: rest =>
    match Text.digit? c with
    | some digit => scanDigits (digit :: found) rest
    | none => none
  | c :: rest =>
    match Text.digit? c with
    | some digit => scanDigits (digit :: found) rest
    | none => some (found.reverse, c :: rest)

/-- Reads digits, the first character being one. -/
def scanUnsigned (negative : Bool) : List Char → Option (Numeral × List Char)
  | [] => none
  | c :: rest => do
    let first ← Text.digit? c
    let (digits, behind) ← scanDigits [first] rest
    pure (⟨negative, digits⟩, behind)

/-- The numeral behind the blanks at the start of a text, and what follows it. -/
def scan (text : List Char) : Option (Numeral × List Char) :=
  match text.dropWhile Text.isBlank with
  | '-' :: rest => scanUnsigned true rest
  | '+' :: rest => scanUnsigned false rest
  | rest => scanUnsigned false rest

/-- The integer that a text holds, of whatever length. -/
def integer? (text : List Char) : Option Int := do
  let (numeral, behind) ← scan text
  if behind.all Text.isBlank then some numeral.toInt else none

end Numeral

/-- A value from which an integer can be read. -/
inductive Scalar where
  | integer (value : Int)
  | fraction (value : Rat)
  | truth (value : Bool)
  | text (value : List Char)
  deriving DecidableEq, Repr

namespace Scalar

/-- Reads the integer in a text. A numeral that is too long is refused before what
stands behind it is looked at. -/
def ofText (text : List Char) : Except Defect Int :=
  match Numeral.scan text with
  | none => .error (.notAnInteger text)
  | some (numeral, behind) =>
    if Numeral.longest < numeral.digits.length then
      .error (.numeralTooLong Numeral.longest numeral.digits.length)
    else if behind.all Text.isBlank then .ok numeral.toInt
    else .error (.notAnInteger text)

def toInt : Scalar → Except Defect Int
  | integer value => .ok value
  | fraction value => .ok (Binary64.truncate (Binary64.nearest value))
  | truth value => .ok (if value then 1 else 0)
  | text value => ofText value

/-- Zero, falsehood and the empty text stand for "not given". -/
def isEmpty : Scalar → Bool
  | integer value => value = 0
  | fraction value => Binary64.nearest value = 0
  | truth value => !value
  | text value => value = []

end Scalar
end KeyTree
