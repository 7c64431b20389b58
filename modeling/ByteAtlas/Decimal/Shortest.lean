/-
The shortest decimal text of a binary floating-point number: the fewest digits that lie closer to the number than to
any other of its format, and of two such the nearer one, written without an exponent.
-/
import ByteAtlas.Decimal.Binary

namespace ByteAtlas.Decimal

/-- the reals that round to a number, in units of `1 / den`: the number itself and the two ends -/
structure Interval where
  low : Nat
  value : Nat
  high : Nat
  den : Nat
  /-- whether the ends belong to it -/
  closed : Bool

/-- the interval of a finite magnitude; an even mantissa wins both ends -/
def interval (f : Binary) (mantissa exponent : Nat) (closerBelow : Bool) : Interval :=
  let scale (n : Nat) : Nat := n * Nat.pow 2 exponent
  ⟨scale (4 * mantissa - if closerBelow then 1 else 2), scale (4 * mantissa), scale (4 * mantissa + 2),
    4 * Nat.pow 2 f.shift, mantissa % 2 == 0⟩

/-- a positive decimal `digits * 10 ^ exponent` -/
structure Scientific where
  digits : Nat
  exponent : Int
  deriving DecidableEq, Repr

/-- whether `digits * num / den` lies in an interval -/
def Interval.contains (i : Interval) (digits num den : Nat) : Bool :=
  let x := digits * num * i.den
  if i.closed then i.low * den ≤ x && x ≤ i.high * den else i.low * den < x && x < i.high * den

/-- the nearer of a value's two neighbours among the multiples of `10 ^ exponent` that lie in its interval; of two
equally near ones the greater -/
def Interval.onGrid (i : Interval) (exponent : Int) : Option Scientific :=
  let num := Nat.pow 10 exponent.toNat
  let den := Nat.pow 10 (-exponent).toNat
  let d := i.value * den / (i.den * num)
  let r := i.value * den % (i.den * num)
  let below := i.contains d num den && 0 < d
  let above := i.contains (d + 1) num den
  if above && (!below || i.den * num ≤ 2 * r) then some ⟨d + 1, exponent⟩
  else if below then some ⟨d, exponent⟩
  else none

/-- the first grid with a point in the interval, from the coarse ones to the fine ones -/
def Interval.search (i : Interval) : Nat → Int → Option Scientific
  | 0, _ => none
  | n + 1, exponent =>
    match i.onGrid exponent with
    | some s => some s
    | none => i.search n (exponent - 1)

/-- an exponent of ten above a positive fraction -/
def exponentAbove (num den : Nat) : Int :=
  -- a number below `2 ^ b` lies below `10 ^ (b * 1233 / 4096 + 1)` for the `b` that formats reach
  let b : Int := (Nat.log2 num : Int) - Nat.log2 den + 1
  b * 1233 / 4096 + 1

/-- a decimal written out, with a point only where digits follow it -/
def positional (s : Scientific) : List Char :=
  let ds := Nat.toDigits 10 s.digits
  if 0 ≤ s.exponent then ds ++ List.replicate s.exponent.toNat '0'
  else
    let places := (-s.exponent).toNat
    if places < ds.length then ds.take (ds.length - places) ++ '.' :: ds.drop (ds.length - places)
    else '0' :: '.' :: List.replicate (places - ds.length) '0' ++ ds

def shortestMagnitude (f : Binary) : Magnitude → List Char
  | .infinite => "inf".toList
  | .notANumber => "NaN".toList
  | .finite 0 _ _ => ['0']
  | .finite m e closerBelow =>
    let i := interval f m e closerBelow
    match i.search 40 (exponentAbove i.value i.den) with
    | some s => positional s
    | none => []

/-- the shortest text of a bit pattern; only what is no number goes without its sign -/
def shortest (f : Binary) (bits : Nat) : List Char :=
  match f.read bits with
  | (_, .notANumber) => "NaN".toList
  | (negative, m) => (if negative then ['-'] else []) ++ shortestMagnitude f m

end ByteAtlas.Decimal
