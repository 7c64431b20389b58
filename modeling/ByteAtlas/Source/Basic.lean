/-
Sources of bytes: nothing, a block held in memory, or memory behind a transport. Every access gives the source back,
since a transport may change or die on it. A read or write that fails leaves the bytes as they were.
-/
import ByteAtlas.Source.Buffer
import ByteAtlas.Source.Remote
import ByteAtlas.Text.Quoted

namespace ByteAtlas

inductive Source (τ : Type) where
  | nothing
  | buffer (b : Buffer)
  | remote (r : Remote τ)
  deriving DecidableEq, Repr

inductive SourceError where
  /-- the file cannot be read -/
  | file
  | connect (reason : String)
  | gone
  deriving DecidableEq, Repr

/-- what a user is told; nothing fixed for files -/
def SourceError.message? : SourceError → Option String
  | file => none
  | connect reason => some ("connect failed: " ++ reason)
  | gone => some "source worker is gone"

namespace Source

variable {τ : Type}

/-- name of the file or process, empty if there is none -/
def name : Source τ → String
  | nothing => ""
  | buffer b => b.name
  | remote r => r.connection.name

/-- name of the family of sources -/
def kind : Source τ → String
  | remote r => r.connection.kind
  | _ => "File"

/-- whether writes can succeed at all -/
def isWritable : Source τ → Bool
  | nothing => false
  | buffer _ => true
  | remote r => r.connection.writable

/-- whether bytes change by themselves -/
def isLive : Source τ → Bool
  | remote r => r.connection.live
  | _ => false

def base : Source τ → UInt64
  | nothing => 0
  | buffer b => b.base
  | remote r => r.base

/-- maps the source at an address; the addresses of memory behind a transport stay what they are -/
def rebase (s : Source τ) (base : UInt64) : Source τ :=
  match s with
  | nothing => nothing
  | buffer b => buffer { b with base }
  | remote r => remote { r with base }

/-- what a user chooses the source by -/
def label (s : Source τ) : String := if s.name = "" then "<Select Source>" else s.kind ++ " '" ++ s.name ++ "'"

variable [Transport τ]

def size : Source τ → UInt64 × Source τ
  | nothing => (0, nothing)
  | buffer b => (b.size, buffer b)
  | remote r => let (n, r) := r.size; (n, remote r)

/-- `n` bytes at an address, if all of them can be read -/
def read (s : Source τ) (address : UInt64) (n : Nat) : Option Bytes × Source τ :=
  match s with
  | nothing => (if n = 0 then some [] else none, nothing)
  | buffer b => (b.read address n, buffer b)
  | remote r => let (answer, r) := r.read address n; (answer, remote r)

/-- reads into memory of the caller as many bytes as it has room for: whether they could be read, and the memory afterwards -/
def readInto (s : Source τ) (address : UInt64) (memory : Bytes) : (Bool × Bytes) × Source τ :=
  match s.read address memory.length with
  | (some bs, s) => ((true, memory.patch 0 bs), s)
  | (none, s) => ((false, memory), s)

/-- writes bytes at an address, all or none, and tells whether they are written -/
def write (s : Source τ) (address : UInt64) (new : Bytes) : Bool × Source τ :=
  match s with
  | nothing => (false, nothing)
  | buffer b =>
    match b.write address new with
    | some b => (true, buffer b)
    | none => (false, buffer b)
  | remote r => let (answer, r) := r.write address new; (answer, remote r)

def symbol (s : Source τ) (address : UInt64) : Option String × Source τ :=
  match s with
  | remote r => let (answer, r) := r.symbol address; (answer, remote r)
  | s => (none, s)

def covers (s : Source τ) (address length : UInt64) : Bool × Source τ :=
  match s with
  | buffer b => (b.covers address length, buffer b)
  | s =>
    if length = 0 then (true, s)
    else if UInt64.size ≤ address.toNat + length.toNat then (false, s)
    else
      let (n, s) := s.size
      (address.toNat + length.toNat ≤ n.toNat, s)

def hasBytes (s : Source τ) : Bool × Source τ :=
  let (n, s) := s.size
  (n != 0, s)

/-- `n` bytes at an address, zeros if they cannot be read -/
def readOrZeros (s : Source τ) (address : UInt64) (n : Nat) : Bytes × Source τ :=
  let (r, s) := s.read address n
  (r.getD (List.replicate n 0), s)

end Source

end ByteAtlas
