import KeyTree.Text.Printable

/-!
Quoted text. The quote is `'`, or `"` where the text holds `'` and no `"`. The
quote in use, the backslash, line ends and tabs are written with a backslash, and
what has no printed form as its code point in two, four or eight hexadecimal
digits.
-/
namespace KeyTree.Text

/-- The last `width` hexadecimal digits of a number. -/
def hexadecimal : (width : Nat) → Nat → List Char
  | 0, _ => []
  | width + 1, value => hexadecimal width (value / 16) ++ [Nat.digitChar (value % 16)]

def escape (quote c : Char) : List Char :=
  if c = quote || c = '\\' then ['\\', c]
  else if c = '\n' then ['\\', 'n']
  else if c = '\r' then ['\\', 'r']
  else if c = '\t' then ['\\', 't']
  else if isPrintable c then [c]
  else if c.toNat < 0x100 then '\\' :: 'x' :: hexadecimal 2 c.toNat
  else if c.toNat < 0x10000 then '\\' :: 'u' :: hexadecimal 4 c.toNat
  else '\\' :: 'U' :: hexadecimal 8 c.toNat

def quoted (text : List Char) : List Char :=
  let quote := if '\'' ∈ text && '"' ∉ text then '"' else '\''
  quote :: text.flatMap (escape quote) ++ [quote]

end KeyTree.Text
