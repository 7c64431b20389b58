/-
Binary floating-point numbers as bit patterns: a sign, an exponent field and a fraction field. A finite number is
`mantissa * 2 ^ (exponent - shift)` in exact natural-number arithmetic, so nothing here rounds.
-/
namespace ByteAtlas.Decimal

/-- widths of the two fields of a format -/
structure Binary where
  exponentBits : Nat
  fractionBits : Nat
  deriving DecidableEq, Repr

namespace Binary

def single : Binary := ⟨8, 23⟩

def double : Binary := ⟨11, 52⟩

/-- the exponent field of infinities and of what is no number -/
def topExponent (f : Binary) : Nat := Nat.pow 2 f.exponentBits - 1

/-- the place of the binary point: a number with exponent field `e` (at least one) counts units of `2 ^ (e - shift)` -/
def shift (f : Binary) : Nat := Nat.pow 2 (f.exponentBits - 1) - 1 + f.fractionBits

def width (f : Binary) : Nat := (1 + f.exponentBits + f.fractionBits) / 8

end Binary

/-- what a bit pattern stands for; a finite magnitude is `mantissa * 2 ^ (exponent - shift)` and keeps whether the
numbers below it lie half as far apart -/
inductive Magnitude where
  | finite (mantissa exponent : Nat) (closerBelow : Bool)
  | infinite
  | notANumber
  deriving DecidableEq, Repr

/-- sign (set for negative) and magnitude of a bit pattern -/
def Binary.read (f : Binary) (bits : Nat) : Bool × Magnitude :=
  let fraction := bits % Nat.pow 2 f.fractionBits
  let exponent := bits / Nat.pow 2 f.fractionBits % Nat.pow 2 f.exponentBits
  let negative := bits / Nat.pow 2 (f.fractionBits + f.exponentBits) % 2 == 1
  (negative,
    if exponent = f.topExponent then (if fraction = 0 then .infinite else .notANumber)
    else if exponent = 0 then .finite fraction 1 false
    else .finite (Nat.pow 2 f.fractionBits + fraction) exponent (fraction == 0 && 1 < exponent))

/-- the bit pattern with a sign above a magnitude's bits -/
def Binary.withSign (f : Binary) (negative : Bool) (magnitude : Nat) : Nat :=
  (if negative then Nat.pow 2 (f.fractionBits + f.exponentBits) else 0) + magnitude

def Binary.infinity (f : Binary) : Nat := f.topExponent * Nat.pow 2 f.fractionBits

/-- the magnitude bits of what is no number: the first fraction bit alone is set -/
def Binary.notANumber (f : Binary) : Nat := f.infinity + Nat.pow 2 (f.fractionBits - 1)

/-- the quotient rounded to the nearest natural number, a half going to the even one -/
def roundHalfEven (num den : Nat) : Nat :=
  let q := num / den
  let r := num % den
  if den < 2 * r || (2 * r == den && q % 2 == 1) then q + 1 else q

/-- the magnitude bits nearest to `num / den` (a half goes to the even pattern, past the largest lies infinity) -/
def Binary.nearest (f : Binary) (num den : Nat) : Nat :=
  if num = 0 ∨ den = 0 then 0 else
  -- the exponent of the leading bit is `log2 num - log2 den` or one less
  let guess : Int := (Nat.log2 num : Int) - Nat.log2 den
  let below := if guess ≥ 0 then den * Nat.pow 2 guess.toNat ≤ num else den ≤ num * Nat.pow 2 (-guess).toNat
  let leading := if below then guess else guess - 1
  -- units of `2 ^ unit` give the mantissa its full width, or the smallest exponent's units if that is coarser
  let unit : Int := max (leading - f.fractionBits) (1 - (f.shift : Int))
  let mantissa := if unit ≥ 0 then roundHalfEven num (den * Nat.pow 2 unit.toNat)
    else roundHalfEven (num * Nat.pow 2 (-unit).toNat) den
  -- a mantissa without its leading bit belongs to exponent field zero; one that rounding made too wide carries over
  let exponent := (unit + f.shift - 1).toNat
  min (exponent * Nat.pow 2 f.fractionBits + mantissa) f.infinity

end ByteAtlas.Decimal
