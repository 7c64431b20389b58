/-
A small file system: directories and files under one top directory. A text names a place by the steps that lead to it
from the top, and every step but the last must lead to a directory that is there. Steps that leave the top are refused.
Directories have numbers, so that a step is one look at the table of directories however deep it is taken.
-/
import ByteAtlas.Word
import ByteAtlas.Text.Utf8

namespace ByteAtlas

/-- why a file cannot be read or written -/
inductive FileError where
  | notFound
  | refused
  deriving DecidableEq, Repr

namespace Path

inductive Step where
  | stay
  | up
  | into (name : String)
  deriving DecidableEq, Repr

def splitSlashes : List Char → List (List Char)
  | [] => [[]]
  | c :: rest =>
    if c = '/' then [] :: splitSlashes rest
    else match splitSlashes rest with
      | [] => [[c]]
      | part :: parts => (c :: part) :: parts

/-- the step that a part of a text stands for; an empty part stands for none -/
def Step.ofPart (part : String) : Option Step :=
  if part = "" then none
  else if part = "." then some .stay
  else if part = ".." then some .up
  else some (.into part)

def spelled (s : String) : List Step := (splitSlashes s.toList).filterMap fun part => Step.ofPart (String.ofList part)

def width (s : String) : Nat := (Text.Utf8.encode s.toList).length

/-- a place can be named by at most so many bytes -/
def maxText : Nat := 4095

/-- a file or directory has a name of at most so many bytes -/
def maxName : Nat := 255

/-- whether a file or directory can have a name -/
def fits (name : String) : Bool := width name ≤ maxName

/-- the steps of a text that can name a place under the top: one that is not empty, does not start at a slash, holds no
zero and is not too long -/
def steps (s : String) : Except FileError (List Step) :=
  if s = "" then .error .notFound
  else if s.toList.contains '\x00' || s.toList.head? == some '/' || maxText < width s then .error .refused
  else .ok (spelled s)

/-- whether a text ends in a slash, so that only a directory can be meant -/
def endsInSlash (s : String) : Bool := s.toList.getLast? == some '/'

/-- the name of the file that a text leads to, if its last step is into one -/
def fileName (s : String) : String :=
  match (spelled s).getLast? with
  | some (.into name) => name
  | _ => ""

end Path

/-- a name in a directory, which is given by its number -/
structure Place where
  directory : Nat
  name : String
  deriving DecidableEq, Repr

/-- the places of the directories below the top, which are numbered from one in this order, and of the files with their
contents; the top itself has the number zero -/
structure Files where
  directories : List Place
  contents : List (Place × Bytes)
  deriving DecidableEq, Repr

namespace Files

def empty : Files := ⟨[], []⟩

def directoryAt? (fs : Files) (p : Place) : Option Nat := (fs.directories.idxOf? p).map (· + 1)

def isFile (fs : Files) (p : Place) : Bool := fs.contents.any fun f => f.1 == p

/-- the number of the directory that holds another; nothing holds the top -/
def holder? (fs : Files) : Nat → Option Nat
  | 0 => none
  | d + 1 => (fs.directories[d]?).map (·.directory)

/-- the directory that a step from a directory leads to -/
def step (fs : Files) (d : Nat) : Path.Step → Except FileError Nat
  | .stay => .ok d
  | .up =>
    match fs.holder? d with
    | some h => .ok h
    | none => .error .refused
  | .into name =>
    match fs.directoryAt? ⟨d, name⟩ with
    | some n => .ok n
    | none => if fs.isFile ⟨d, name⟩ || !Path.fits name then .error .refused else .error .notFound

/-- the directory that steps from the top lead to -/
def walk (fs : Files) (steps : List Path.Step) : Except FileError Nat := steps.foldlM fs.step 0

/-- where the file is, or would be, that a text names: in a directory that is there, at the end of a step into it -/
def place (fs : Files) (s : String) : Except FileError Place := do
  let steps ← Path.steps s
  let d ← fs.walk steps.dropLast
  match steps.getLast? with
  | some (.into name) =>
    if Path.endsInSlash s || !Path.fits name || (fs.directoryAt? ⟨d, name⟩).isSome then throw .refused
    pure ⟨d, name⟩
  | _ => throw .refused

def read (fs : Files) (s : String) : Except FileError Bytes := do
  match fs.contents.lookup (← fs.place s) with
  | some bs => pure bs
  | none => throw .notFound

/-- the files with the contents of one replaced, or with a new one -/
def write (fs : Files) (s : String) (bs : Bytes) : Except FileError Files := do
  let p ← fs.place s
  pure { fs with contents := (p, bs) :: fs.contents.filter fun f => f.1 != p }

/-! ## Directories -/

/-- takes a step, and makes the directory that it leads to if there is nothing -/
def makeStep : Files × Nat → Path.Step → Except FileError (Files × Nat)
  | (fs, d), s =>
    match s, fs.step d s with
    | .into name, .error .notFound =>
      .ok ({ fs with directories := fs.directories ++ [⟨d, name⟩] }, fs.directories.length + 1)
    | _, .ok n => .ok (fs, n)
    | _, .error e => .error e

def make (fs : Files) (steps : List Path.Step) : Except FileError Files := (steps.foldlM makeStep (fs, 0)).map (·.1)

/-- the files with the directory that a text names and those on the way to it. A dot at the end of the text stands in
that directory, so only those on the way are made, and the directory itself must be there. -/
def makeDirectories (fs : Files) (s : String) : Except FileError Files := do
  if s = "" then return fs
  let steps ← Path.steps s
  if steps.getLast? == some .stay then
    let fs ← fs.make ((steps.reverse.dropWhile (· == .stay)).drop 1).reverse
    let _ ← fs.walk steps
    return fs
  fs.make steps

def list (fs : Files) (s : String) : Except FileError (List String) := do
  let d ← fs.walk (← Path.steps s)
  pure (((fs.directories ++ fs.contents.map (·.1)).filter fun p => p.directory == d).map (·.name))

end Files

end ByteAtlas
