/-
The values of a listing, read from a source row after row.
-/
import ByteAtlas.Listing.Basic
import ByteAtlas.Source.Basic
import ByteAtlas.Value.Show

namespace ByteAtlas

/-- the most bytes of a value that are read for a listing -/
def shownBytes : Nat := 256

/-- the most bytes of padding that are read for a listing -/
def shownPadding : Nat := 16

/-- whether a text ends within a block -/
def endsWithin (k : Kind) (bs : Bytes) : Bool :=
  if k = .utf16 then (Text.Utf16.ofBytes bs).contains 0 else bs.contains 0

namespace Listing.Row

variable {τ : Type} [Transport τ]

/-- the value of a field or element. Text that is cut before its end is marked, a pointer to a symbol names it. -/
def fieldValue (r : Listing.Row) (s : Source τ) : String × Source τ :=
  let shown := min r.size.toNat shownBytes
  let (bs, s) := s.readOrZeros r.address shown
  let text := r.kind.showValue bs ++ if shown < r.size.toNat && !endsWithin r.kind bs then ".." else ""
  if r.kind.isPointer then
    let (target, s) := s.readOrZeros r.address r.kind.width
    let (symbol, s) := s.symbol (UInt64.ofNat target.toNat)
    ((symbol.map fun name => text ++ " <" ++ name ++ ">").getD text, s)
  else (text, s)

def paddingValue (r : Listing.Row) (s : Source τ) : String × Source τ :=
  let shown := min r.size.toNat shownPadding
  let (bs, s) := s.readOrZeros r.address shown
  (String.ofList (Value.hexText bs) ++ if shown < r.size.toNat then " .." else "", s)

def fill (r : Listing.Row) (s : Source τ) : Listing.Row × Source τ :=
  let (value, s) :=
    match r.role with
    | .field | .arrayElement => if r.kind.hasValue then r.fieldValue s else ("", s)
    | .padding => r.paddingValue s
    | _ => ("", s)
  ({ r with value }, s)

def fillAll (s : Source τ) : List Listing.Row → List Listing.Row × Source τ
  | [] => ([], s)
  | r :: rest =>
    let (r, s) := r.fill s
    let (rest, s) := fillAll s rest
    (r :: rest, s)

end Listing.Row

end ByteAtlas
