/-
Numbers as text: digits of a base, numerals with an optional sign, and hexadecimal text of a fixed width.
-/
import ByteAtlas.Word

namespace ByteAtlas.Text

/-- the value of a letter or decimal digit, `a` and `A` being ten -/
def digitValue (c : Char) : Option Nat :=
  if '0' ≤ c ∧ c ≤ '9' then some (c.toNat - 48)
  else if 'a' ≤ c ∧ c ≤ 'z' then some (c.toNat - 87)
  else if 'A' ≤ c ∧ c ≤ 'Z' then some (c.toNat - 55)
  else none

/-- the value of a digit of a base -/
def digitOf (base : Nat) (c : Char) : Option Nat := (digitValue c).filter (· < base)

/-- continues a number by the digits of a text; nothing if one of them is no digit -/
def foldDigits (base : Nat) : Nat → List Char → Option Nat
  | acc, [] => some acc
  | acc, c :: rest =>
    match digitOf base c with
    | some d => foldDigits base (acc * base + d) rest
    | none => none

/-- the number that a text of one or more digits writes -/
def ofDigits (base : Nat) : List Char → Option Nat
  | [] => none
  | cs => foldDigits base 0 cs

/-- the number that digits write after an optional plus sign, if it stays below the bound -/
def readUnsigned (base bound : Nat) (cs : List Char) : Option Nat :=
  let digits := match cs with
    | '+' :: rest => rest
    | _ => cs
  (ofDigits base digits).filter (· < bound)

/-- the integer that decimal digits write after an optional sign, if two's complement of `bits` bits can hold it -/
def readSigned (bits : Nat) (cs : List Char) : Option Int :=
  let half := Nat.pow 2 (bits - 1)
  match cs with
  | '-' :: rest => ((ofDigits 10 rest).filter (· ≤ half)).map fun n => -(n : Int)
  | _ => (readUnsigned 10 half cs).map fun n => (n : Int)

def upperDigit (d : Nat) : Char := if d < 10 then Char.ofNat (48 + d) else Char.ofNat (55 + d)

/-- the `n` last upper-case digits of base sixteen -/
def upperHexFixed : Nat → Nat → List Char
  | 0, _ => []
  | n + 1, v => upperHexFixed n (v / 16) ++ [upperDigit (v % 16)]

/-- all upper-case digits of base sixteen, at least `n` of them -/
def upperHex (n v : Nat) : List Char :=
  let ds := (Nat.toDigits 16 v).map Char.toUpper
  List.replicate (n - ds.length) '0' ++ ds

def decimal (n : Nat) : List Char := Nat.toDigits 10 n

def decimalInt (i : Int) : List Char :=
  match i with
  | .ofNat n => decimal n
  | .negSucc n => '-' :: decimal (n + 1)

/-- two lower-case digits of base sixteen a byte -/
def lowerHex (bs : Bytes) : String :=
  String.ofList (bs.flatMap fun b => [Nat.digitChar (b.toNat / 16), Nat.digitChar (b.toNat % 16)])

def bytesOfHex : List Char → Option Bytes
  | [] => some []
  | a :: b :: rest => do
    let hi ← digitOf 16 a
    let lo ← digitOf 16 b
    let tail ← bytesOfHex rest
    pure (UInt8.ofNat (16 * hi + lo) :: tail)
  | [_] => none

example : readUnsigned 16 256 "+F".toList = some 15 := by decide
example : readUnsigned 10 256 "+".toList = none := by decide
example : readSigned 8 "-128".toList = some (-128) := by decide
example : readSigned 8 "128".toList = none := by decide
example : String.ofList (upperHex 4 0xbeef0) = "BEEF0" := by decide

end ByteAtlas.Text
