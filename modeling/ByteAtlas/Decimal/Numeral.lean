/-
Decimal numerals and the binary floating-point number nearest to one.
-/
import ByteAtlas.Decimal.Binary
import ByteAtlas.Text.Digits

namespace ByteAtlas.Decimal

/-- a magnitude as written: the digits before and after the point in one, how many stand after it, the exponent -/
structure Numeral where
  digits : List Char
  places : Nat
  exponent : Int
  deriving DecidableEq, Repr

/-- an exponent: an optional sign and decimal digits -/
def readExponent (cs : List Char) : Option Int :=
  match cs with
  | '-' :: rest => (Text.ofDigits 10 rest).map fun n => -(n : Int)
  | '+' :: rest => (Text.ofDigits 10 rest).map fun n => (n : Int)
  | _ => (Text.ofDigits 10 cs).map fun n => (n : Int)

/-- decimal digits around an optional point, at least one of them, then an optional exponent after `e` or `E` -/
def Numeral.read (cs : List Char) : Option Numeral :=
  let whole := cs.takeWhile Char.isDigit
  let rest := cs.dropWhile Char.isDigit
  let fraction := match rest with
    | '.' :: r => r.takeWhile Char.isDigit
    | _ => []
  let tail := match rest with
    | '.' :: r => r.dropWhile Char.isDigit
    | _ => rest
  if whole.isEmpty && fraction.isEmpty then none
  else match tail with
    | [] => some ⟨whole ++ fraction, fraction.length, 0⟩
    | c :: r =>
      if c = 'e' ∨ c = 'E' then (readExponent r).map fun e => ⟨whole ++ fraction, fraction.length, e⟩ else none

/-- the magnitude bits nearest to a numeral; a numeral far outside the format's range is settled by its length -/
def Numeral.nearest (f : Binary) (n : Numeral) : Nat :=
  let m := Nat.ofDigitChars 10 n.digits 0
  let e := n.exponent - n.places
  let significant : Int := (n.digits.dropWhile (· == '0')).length
  if m = 0 then 0
  else if 400 < significant + e then f.infinity
  else if significant + e < -400 then 0
  else if 0 ≤ e then f.nearest (m * Nat.pow 10 e.toNat) 1
  else f.nearest m (Nat.pow 10 (-e).toNat)

/-- the magnitude bits that an unsigned text stands for: a numeral, or a word for infinity or for no number -/
def readMagnitude (f : Binary) (cs : List Char) : Option Nat :=
  let word := cs.map Char.toLower
  if word = "inf".toList ∨ word = "infinity".toList then some f.infinity
  else if word = "nan".toList then some f.notANumber
  else (Numeral.read cs).map (·.nearest f)

/-- the bit pattern that a text with an optional sign stands for -/
def readFloat (f : Binary) (cs : List Char) : Option Nat :=
  match cs with
  | '-' :: rest => (readMagnitude f rest).map (f.withSign true)
  | '+' :: rest => readMagnitude f rest
  | _ => readMagnitude f cs

end ByteAtlas.Decimal
