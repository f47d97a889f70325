/-!
Rounding of exact rationals to the binary64 grid: 53 significant bits, no
exponent below -1074, a tie to the even neighbour. Values beyond the largest
finite one are kept on the same grid.
-/
namespace KeyTree.Binary64

/-- The integer nearest to a quotient; a half goes to the even neighbour. -/
def roundHalfEven (num den : Nat) : Nat :=
  let quotient := num / den
  let rest := num % den
  if 2 * rest < den then quotient
  else if den < 2 * rest then quotient + 1
  else if quotient % 2 = 0 then quotient
  else quotient + 1

/-- The quotient divided by a power of two, again as a quotient. -/
def scale (num den : Nat) (exponent : Int) : Nat × Nat :=
  (num <<< (-exponent).toNat, den <<< exponent.toNat)

/-- The exponent of the last place of a positive quotient. -/
def lastPlace (num den : Nat) : Int :=
  let guess : Int := (num.log2 : Int) - den.log2 - 52
  let scaled := scale num den guess
  max (if scaled.1 < scaled.2 <<< 52 then guess - 1 else guess) (-1074)

/-- The binary64 value nearest to an exact one. -/
def nearest (value : Rat) : Rat :=
  if value.num = 0 then 0
  else
    let exponent := lastPlace value.num.natAbs value.den
    let scaled := scale value.num.natAbs value.den exponent
    let significand := roundHalfEven scaled.1 scaled.2
    mkRat (value.num.sign * (significand <<< exponent.toNat : Nat)) (1 <<< (-exponent).toNat)

/-- Cuts a value toward zero. -/
def truncate (value : Rat) : Int := value.num.tdiv value.den

end KeyTree.Binary64
