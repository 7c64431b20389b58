/-
Writing JSON: on one line, or spread out with two blanks a level.
-/
import ByteAtlas.Json.Basic

namespace ByteAtlas.Json

/-- a character inside a string: quotes, backslashes and controls are escaped, everything else stands as it is -/
def escapeChar (c : Char) : List Char :=
  if c = '"' then ['\\', '"']
  else if c = '\\' then ['\\', '\\']
  else if c = '\x08' then ['\\', 'b']
  else if c = '\t' then ['\\', 't']
  else if c = '\n' then ['\\', 'n']
  else if c = '\x0c' then ['\\', 'f']
  else if c = '\r' then ['\\', 'r']
  else if c.toNat < 0x20 then
    ['\\', 'u', '0', '0', Nat.digitChar (c.toNat / 16), Nat.digitChar (c.toNat % 16)]
  else [c]

/-- a string; one that spells no text is written empty -/
def writeText (s : Option String) : List Char := '"' :: (s.getD "").toList.flatMap escapeChar ++ ['"']

mutual

/-- a value on one line, without blanks -/
def compactChars : Json → List Char
  | .null => "null".toList
  | .bool true => "true".toList
  | .bool false => "false".toList
  | .number ds => ds
  | .text s => writeText s
  | .array [] => ['[', ']']
  | .array (j :: js) => '[' :: compactChars j ++ compactItems js
  | .object [] => ['\x7b', '\x7d']
  | .object ((k, j) :: ms) => '\x7b' :: writeText k ++ ':' :: compactChars j ++ compactMembers ms

/-- the items after the first, and the closing bracket -/
def compactItems : List Json → List Char
  | [] => [']']
  | j :: js => ',' :: compactChars j ++ compactItems js

/-- the members after the first, and the closing brace -/
def compactMembers : List (Option String × Json) → List Char
  | [] => ['\x7d']
  | (k, j) :: ms => ',' :: writeText k ++ ':' :: compactChars j ++ compactMembers ms

end

/-- the start of a line at a level -/
def newLine (level : Nat) : List Char := '\n' :: List.replicate (2 * level) ' '

mutual

/-- a value spread over lines; those of its parts start one level further in -/
def prettyChars (level : Nat) : Json → List Char
  | .array [] => ['[', ']']
  | .array (j :: js) => '[' :: newLine (level + 1) ++ prettyChars (level + 1) j ++ prettyItems level js
  | .object [] => ['\x7b', '\x7d']
  | .object ((k, j) :: ms) =>
    '\x7b' :: newLine (level + 1) ++ writeText k ++ ':' :: ' ' :: prettyChars (level + 1) j ++ prettyMembers level ms
  | j => compactChars j

def prettyItems (level : Nat) : List Json → List Char
  | [] => newLine level ++ [']']
  | j :: js => ',' :: newLine (level + 1) ++ prettyChars (level + 1) j ++ prettyItems level js

def prettyMembers (level : Nat) : List (Option String × Json) → List Char
  | [] => newLine level ++ ['\x7d']
  | (k, j) :: ms =>
    ',' :: newLine (level + 1) ++ writeText k ++ ':' :: ' ' :: prettyChars (level + 1) j ++ prettyMembers level ms

end

def compact (j : Json) : String := String.ofList (compactChars j)

def pretty (j : Json) : String := String.ofList (prettyChars 0 j)

end ByteAtlas.Json
