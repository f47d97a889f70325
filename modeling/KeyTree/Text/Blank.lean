/-!
The blanks that may stand around a numeral: the five control characters from tab
to carriage return, the space, and the spaces and line ends beyond ASCII.
-/
namespace KeyTree.Text

def blanksBeyondAscii : List Nat :=
  [0x85, 0xa0, 0x1680, 0x2000, 0x2001, 0x2002, 0x2003, 0x2004, 0x2005, 0x2006, 0x2007, 0x2008,
   0x2009, 0x200a, 0x2028, 0x2029, 0x202f, 0x205f, 0x3000]

def isBlank (c : Char) : Bool :=
  c = ' ' || (9 ≤ c.toNat && c.toNat ≤ 13) || c.toNat ∈ blanksBeyondAscii

end KeyTree.Text
