/-
Strict reading of JSON text. The input is a list of characters in which `none` marks a place where the bytes are no
UTF-8: such a place is let through inside a string, which then spells no text, and refused elsewhere.
-/
import ByteAtlas.Json.Basic
import ByteAtlas.Text.Digits
import ByteAtlas.Text.Utf8
import ByteAtlas.Text.Utf16

namespace ByteAtlas.Json

/-- characters, and marks for the places between them that hold none -/
abbrev Input := List (Option Char)

/-- the four characters that may stand between the parts of a value -/
def isGap (c : Char) : Bool := c == ' ' || c == '\n' || c == '\r' || c == '\t'

/-- the input from its first part on -/
def skipGaps : Input → Input
  | some c :: rest => if isGap c then skipGaps rest else some c :: rest
  | s => s

/-! ## Strings -/

/-- what a string is made of: characters, UTF-16 units given by number, and places that hold no character -/
inductive Mark where
  | char (c : Char)
  | unit (u : Nat)
  | broken
  deriving DecidableEq, Repr

/-- the character that a one-letter escape stands for -/
def escaped (c : Char) : Option Char :=
  match c with
  | '"' => some '"'
  | '\\' => some '\\'
  | '/' => some '/'
  | 'b' => some '\x08'
  | 'f' => some '\x0c'
  | 'n' => some '\n'
  | 'r' => some '\r'
  | 't' => some '\t'
  | _ => none

/-- the inside of a string up to its closing quote, and the input after that -/
def scanText : Input → Option (List Mark × Input)
  | some '"' :: rest => some ([], rest)
  | some '\\' :: some 'u' :: some a :: some b :: some c :: some d :: rest =>
    match Text.foldDigits 16 0 [a, b, c, d], scanText rest with
    | some u, some (ms, after) => some (.unit u :: ms, after)
    | _, _ => none
  | some '\\' :: some e :: rest =>
    match escaped e, scanText rest with
    | some c, some (ms, after) => some (.char c :: ms, after)
    | _, _ => none
  | some c :: rest =>
    if c = '\\' ∨ c.toNat < 0x20 then none
    else match scanText rest with
      | some (ms, after) => some (.char c :: ms, after)
      | none => none
  | none :: rest =>
    match scanText rest with
    | some (ms, after) => some (.broken :: ms, after)
    | none => none
  | [] => none

/-- the text that the inside of a string spells; surrogates count only in pairs -/
def spell : List Mark → Option (List Char)
  | [] => some []
  | .broken :: _ => none
  | .char c :: rest => (spell rest).map (c :: ·)
  | .unit u :: .unit v :: rest =>
    if Text.Utf16.isHigh u then
      if Text.Utf16.isLow v then
        (spell rest).map (Char.ofNat (0x10000 + (u - 0xd800) * 1024 + (v - 0xdc00)) :: ·)
      else none
    else if Text.Utf16.isLow u then none
    else (spell (.unit v :: rest)).map (Char.ofNat u :: ·)
  | .unit u :: rest =>
    if Text.Utf16.isHigh u || Text.Utf16.isLow u then none else (spell rest).map (Char.ofNat u :: ·)

/-- a string after its opening quote -/
def readText (s : Input) : Option (Option String × Input) :=
  (scanText s).map fun (ms, after) => ((spell ms).map String.ofList, after)

/-! ## Numbers -/

/-- the digits at the start of an input, and the rest -/
def scanDigits : Input → List Char × Input
  | some c :: rest =>
    if c.isDigit then
      let (ds, after) := scanDigits rest
      (c :: ds, after)
    else ([], some c :: rest)
  | s => ([], s)

def someDigits (s : Input) : Option (List Char × Input) :=
  match scanDigits s with
  | ([], _) => none
  | r => some r

/-- digits without a needless zero in front -/
def scanWhole : Input → Option (List Char × Input)
  | some '0' :: some c :: rest => if c.isDigit then none else some (['0'], some c :: rest)
  | s => someDigits s

def scanFraction : Input → Option (List Char × Input)
  | some '.' :: rest => (someDigits rest).map fun (ds, after) => ('.' :: ds, after)
  | s => some ([], s)

def scanExponent : Input → Option (List Char × Input)
  | some c :: rest =>
    if c = 'e' ∨ c = 'E' then
      match rest with
      | some '+' :: rest => (someDigits rest).map fun (ds, after) => (c :: '+' :: ds, after)
      | some '-' :: rest => (someDigits rest).map fun (ds, after) => (c :: '-' :: ds, after)
      | _ => (someDigits rest).map fun (ds, after) => (c :: ds, after)
    else some ([], some c :: rest)
  | s => some ([], s)

def scanMagnitude (s : Input) : Option (List Char × Input) := do
  let (whole, s) ← scanWhole s
  let (fraction, s) ← scanFraction s
  let (exponent, s) ← scanExponent s
  pure (whole ++ fraction ++ exponent, s)

def scanNumber : Input → Option (List Char × Input)
  | some '-' :: rest => (scanMagnitude rest).map fun (ds, after) => ('-' :: ds, after)
  | s => scanMagnitude s

/-! ## Values -/

mutual

/-- a value at the start of an input, and the rest; nesting is followed as deep as the first argument -/
def readValue : Nat → Input → Option (Json × Input)
  | 0, _ => none
  | depth + 1, s =>
    match skipGaps s with
    | some '\x7b' :: rest =>
      match skipGaps rest with
      | some '\x7d' :: after => some (.object [], after)
      | rest => (readMembers depth rest).map fun (ms, after) => (.object ms, after)
    | some '[' :: rest =>
      match skipGaps rest with
      | some ']' :: after => some (.array [], after)
      | rest => (readItems depth rest).map fun (js, after) => (.array js, after)
    | some '"' :: rest => (readText rest).map fun (t, after) => (.text t, after)
    | some 'n' :: some 'u' :: some 'l' :: some 'l' :: after => some (.null, after)
    | some 't' :: some 'r' :: some 'u' :: some 'e' :: after => some (.bool true, after)
    | some 'f' :: some 'a' :: some 'l' :: some 's' :: some 'e' :: after => some (.bool false, after)
    | s => (scanNumber s).map fun (ds, after) => (.number ds, after)

/-- the items of an array up to its closing bracket -/
def readItems : Nat → Input → Option (List Json × Input)
  | 0, _ => none
  | depth + 1, s =>
    match readValue depth s with
    | none => none
    | some (j, after) =>
      match skipGaps after with
      | some ',' :: rest => (readItems depth rest).map fun (js, after) => (j :: js, after)
      | some ']' :: after => some ([j], after)
      | _ => none

/-- the members of an object up to its closing brace -/
def readMembers : Nat → Input → Option (List (Option String × Json) × Input)
  | 0, _ => none
  | depth + 1, s =>
    match skipGaps s with
    | some '"' :: rest =>
      match readText rest with
      | none => none
      | some (key, after) =>
        match skipGaps after with
        | some ':' :: rest =>
          match readValue depth rest with
          | none => none
          | some (j, after) =>
            match skipGaps after with
            | some ',' :: rest => (readMembers depth rest).map fun (ms, after) => ((key, j) :: ms, after)
            | some '\x7d' :: after => some ([(key, j)], after)
            | _ => none
        | _ => none
    | _ => none

end

/-- the value that a whole input writes; every level of nesting takes at least half a character -/
def read (s : Input) : Option Json :=
  match readValue (2 * s.length + 2) s with
  | some (j, after) => if (skipGaps after).isEmpty then some j else none
  | none => none

def ofText? (s : String) : Option Json := read (s.toList.map some)

def ofBytes? (bs : Bytes) : Option Json := read (Text.Utf8.pieces 0 bs)

end ByteAtlas.Json
