/-
Text typed by a user, taken to the bytes of a kind. What `Kind.showValue` shows can be read back.
-/
import ByteAtlas.Value.Error
import ByteAtlas.Text.Blank
import ByteAtlas.Text.Digits
import ByteAtlas.Text.Utf8
import ByteAtlas.Text.Utf16
import ByteAtlas.Decimal.Numeral

namespace ByteAtlas.Value

open Text (trim)

/-- the digits after `0x` or `0X` -/
def afterHexMark : List Char → Option (List Char)
  | '0' :: 'x' :: rest => some rest
  | '0' :: 'X' :: rest => some rest
  | _ => none

/-- refuses a number that the bytes of a kind cannot hold -/
def fitWidth (k : Kind) (t : List Char) (v : Nat) : Except ValueError Nat :=
  if v < Bytes.capacity k.width then .ok v else .error (.outOfRange (String.ofList t) k)

/-- a number from zero up: decimal digits, or digits of base sixteen after `0x`. A minus sign is out of range. -/
def readUnsigned (k : Kind) (t : List Char) : Except ValueError Nat :=
  let v := match afterHexMark t with
    | some digits => Text.readUnsigned 16 UInt64.size digits
    | none => Text.readUnsigned 10 UInt64.size t
  match v with
  | some v => fitWidth k t v
  | none =>
    if t.head? = some '-' then .error (.outOfRange (String.ofList t) k) else .error (.badNumber (String.ofList t))

/-- an integer as the number its bytes make up; digits of base sixteen after `0x` are those bytes themselves -/
def readSigned (k : Kind) (t : List Char) : Except ValueError Nat :=
  if (afterHexMark t).isSome then readUnsigned k t
  else match Text.readSigned 64 t with
    | none => .error (.badNumber (String.ofList t))
    | some v =>
      let half : Int := Bytes.capacity k.width / 2
      if -half ≤ v ∧ v < half then .ok (v % Bytes.capacity k.width).toNat
      else .error (.outOfRange (String.ofList t) k)

/-- an address: digits of base sixteen, with or without `0x` -/
def readPointer (k : Kind) (t : List Char) : Except ValueError Nat :=
  match Text.readUnsigned 16 UInt64.size ((afterHexMark t).getD t) with
  | none => .error (.badNumber (String.ofList t))
  | some v => fitWidth k t v

/-- pairs of digits of base sixteen, a plus sign being let through in front of a single digit -/
def readPairs : List Char → Option Bytes
  | [] => some []
  | a :: b :: rest =>
    match Text.readUnsigned 16 256 [a, b], readPairs rest with
    | some v, some tail => some (UInt8.ofNat v :: tail)
    | _, _ => none
  | [_] => none

/-- bytes in memory order, two digits each, blanks anywhere -/
def readHex (n : Nat) (t : List Char) : Except ValueError Bytes :=
  let digits := t.filter fun c => !Text.isBlank c
  let refused := Except.error (ValueError.badHex (String.ofList t) n)
  if digits.length = 2 * n then
    match readPairs digits with
    | some bs => .ok bs
    | none => refused
  else refused

def readSingle (t : List Char) : Except ValueError Bytes :=
  match Decimal.readFloat .single t with
  | some bits => .ok (Bytes.ofNat 4 bits)
  | none => .error (.badNumber (String.ofList t))

/-- the parts of a text between commas and semicolons -/
def splitParts : List Char → List (List Char)
  | [] => [[]]
  | c :: rest =>
    if c = ',' ∨ c = ';' then [] :: splitParts rest
    else match splitParts rest with
      | [] => [[c]]
      | part :: parts => (c :: part) :: parts

def parts (t : List Char) : List (List Char) := ((splitParts t).map trim).filter (!·.isEmpty)

/-- a given number of four-byte floats -/
def readSingles (n : Nat) (t : List Char) : Except ValueError Bytes :=
  let parts := parts t
  if parts.length = n then (parts.mapM readSingle).map List.flatten
  else .error (.componentCount n parts.length)

def readBool (t : List Char) : Except ValueError Bytes :=
  let word := t.map Char.toLower
  if word = "true".toList ∨ word = ['1'] then .ok [1]
  else if word = "false".toList ∨ word = ['0'] then .ok [0]
  else .error (.badBool (String.ofList t))

/-- the bytes that a text stands for; `size` tells the length of text kinds, which are cut or filled up with zeros -/
def readChars (k : Kind) (text : List Char) (size : Nat) : Except ValueError Bytes :=
  let t := trim text
  if t.isEmpty && !k.isText then .error .empty
  else match k with
    | .hex8 | .hex16 | .hex32 | .hex64 =>
      if (afterHexMark t).isSome then (readUnsigned k t).map (Bytes.ofNat k.width) else readHex k.width t
    | .int8 | .int16 | .int32 | .int64 => (readSigned k t).map (Bytes.ofNat k.width)
    | .uint8 | .uint16 | .uint32 | .uint64 => (readUnsigned k t).map (Bytes.ofNat k.width)
    | .pointer32 | .pointer64 => (readPointer k t).map (Bytes.ofNat k.width)
    | .float => readSingle t
    | .double =>
      match Decimal.readFloat .double t with
      | some bits => .ok (Bytes.ofNat 8 bits)
      | none => .error (.badNumber (String.ofList t))
    | .bool => readBool t
    | .vec2 | .vec3 | .vec4 | .mat4x4 => readSingles (k.width / 4) t
    | .utf8 => .ok ((Text.Utf8.encode text).resize size)
    | .utf16 => .ok ((Text.Utf16.toBytes (Text.Utf16.encode text)).resize size)
    | .padding | .array | .struct => .error (.notAValue k)

end ByteAtlas.Value

/-- the bytes of a kind that a text stands for -/
def ByteAtlas.Kind.readValue (k : Kind) (text : String) (size : Nat) : Except ValueError Bytes :=
  Value.readChars k text.toList size
