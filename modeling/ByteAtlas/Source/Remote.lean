/-
Memory that is reached through a transport. The transport is a state machine that answers one request after the other,
and may die on any of them; from then on nothing that needs it succeeds.
-/
import ByteAtlas.Text.Quoted
import ByteAtlas.Word

namespace ByteAtlas

/-- what a transport tells about itself once it is connected -/
structure Connection where
  name : String
  kind : String
  /-- whether bytes change by themselves -/
  live : Bool
  writable : Bool
  base : UInt64
  deriving DecidableEq, Repr

def Connection.summary (c : Connection) : String :=
  "TransportInfo \x7b name: " ++ Text.quote c.name ++ ", kind: " ++ Text.quote c.kind ++ ", live: " ++
    toString c.live ++ ", writable: " ++ toString c.writable ++ ", base: " ++ c.base.toNat.repr ++ " \x7d"

/-- a memory that answers requests; no answer means that it died on the request -/
class Transport (τ : Type) where
  size : τ → Option (UInt64 × τ)
  read : τ → UInt64 → Nat → Option (Option Bytes × τ)
  write : τ → UInt64 → Bytes → Option (Bool × τ)
  symbol : τ → UInt64 → Option (Option String × τ)

/-- memory elsewhere, with its transport if that is still alive -/
structure Remote (τ : Type) where
  connection : Connection
  base : UInt64
  transport : Option τ
  deriving DecidableEq, Repr

namespace Remote

variable {τ : Type}

/-- the memory behind a transport that has just been connected -/
def start (connection : Connection) (transport : τ) : Remote τ := ⟨connection, connection.base, some transport⟩

def summary (r : Remote τ) : String :=
  "WorkerSource \x7b info: " ++ r.connection.summary ++ ", base: " ++ r.base.toNat.repr ++ ", .. \x7d"

def call {α : Type} (r : Remote τ) (request : τ → Option (α × τ)) : Option α × Remote τ :=
  match r.transport.bind request with
  | some (a, t) => (some a, { r with transport := some t })
  | none => (none, { r with transport := none })

variable [Transport τ]

/-- addressable bytes, zero if the transport is gone -/
def size (r : Remote τ) : UInt64 × Remote τ :=
  let (n, r) := r.call Transport.size
  (n.getD 0, r)

/-- `n` bytes at an address; no request is needed for none -/
def read (r : Remote τ) (address : UInt64) (n : Nat) : Option Bytes × Remote τ :=
  if n = 0 then (some [], r)
  else
    let (answer, r) := r.call fun t => Transport.read t address n
    ((answer.bind id).filter fun bs => bs.length == n, r)

/-- writes bytes at an address; the transport is asked only if it takes writes and there is something to write -/
def write (r : Remote τ) (address : UInt64) (new : Bytes) : Bool × Remote τ :=
  if !r.connection.writable then (false, r)
  else if new.isEmpty then (true, r)
  else
    let (answer, r) := r.call fun t => Transport.write t address new
    (answer.getD false, r)

def symbol (r : Remote τ) (address : UInt64) : Option String × Remote τ :=
  let (answer, r) := r.call fun t => Transport.symbol t address
  (answer.bind id, r)

end Remote

end ByteAtlas
