/-
JSON values as they are written. A number keeps its digits, since `1`, `1.0` and `1e0` are different texts and only the
first writes a whole number; the members of an object keep their order and their repetitions; a string may be one that
spells no text (a surrogate without its partner, or bytes that are no UTF-8).
-/
import ByteAtlas.Word

namespace ByteAtlas

/-- a JSON value as written -/
inductive Json where
  | null
  | bool (value : Bool)
  | number (digits : List Char)
  | text (value : Option String)
  | array (items : List Json)
  | object (members : List (Option String × Json))

namespace Json

/-- a string that spells a text -/
def ofString (s : String) : Json := .text (some s)

def ofNat (n : Nat) : Json := .number (Nat.toDigits 10 n)

def ofWord (n : UInt64) : Json := ofNat n.toNat

def ofMembers (ms : List (String × Json)) : Json := .object (ms.map fun m => (some m.1, m.2))

/-- the text that a string spells -/
def text? : Json → Option String
  | .text s => s
  | _ => none

def bool? : Json → Option Bool
  | .bool b => some b
  | _ => none

/-- a whole number up to a limit, written in digits alone -/
def nat? (limit : Nat) : Json → Option Nat
  | .number ds =>
    if ds.all Char.isDigit && !ds.isEmpty then (some (Nat.ofDigitChars 10 ds 0)).filter (· ≤ limit) else none
  | _ => none

def word? (j : Json) : Option UInt64 := (j.nat? Word.top).map UInt64.ofNat

def items? : Json → Option (List Json)
  | .array items => some items
  | _ => none

end Json

end ByteAtlas
