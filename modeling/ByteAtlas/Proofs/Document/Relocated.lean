/-
Documents over bytes in memory, moved to another base. The tree and the bytes are moved together, so the same bytes lie under
the same nodes; and what cannot be read at one base cannot be read at another, also where addresses wrap around.

- `Buffer.read_mapped`: reading depends only on how far an address lies from the start of the block.
- `fillAll_moved`: rows that are moved together with the bytes under them have the same values.
- `view_relocate`: moving the base moves the rows, and changes nothing else of them.
-/
import ByteAtlas.Proofs.Document.Mapping
import ByteAtlas.Proofs.Listing.Blocks

namespace ByteAtlas

variable {τ : Type} [Transport τ]

/-! ## Rows filled from memory -/

theorem Source.readOrZeros_buffer (b : Buffer) (address : UInt64) (n : Nat) :
    (Source.buffer b : Source τ).readOrZeros address n = ((b.read address n).getD (List.replicate n 0), .buffer b) := rfl

theorem Source.symbol_buffer (b : Buffer) (address : UInt64) :
    (Source.buffer b : Source τ).symbol address = (none, .buffer b) := rfl

namespace Listing.Row

variable {b b' : Buffer} {by' : UInt64} {down : Nat}

/-- a value does not depend on where its row is if the same bytes are read there -/
theorem fieldValue_moved (r : Row) (hread : ∀ n, b'.read (r.address + by') n = b.read r.address n) :
    (r.moved by' down).fieldValue (.buffer b' : Source τ) = ((r.fieldValue (.buffer b : Source τ)).1, .buffer b') := by
  unfold fieldValue moved
  simp only [Source.readOrZeros_buffer, Source.symbol_buffer, hread]
  by_cases hpointer : r.kind.isPointer <;> simp only [hpointer, if_true, Bool.false_eq_true, if_false] <;> rfl

theorem paddingValue_moved (r : Row) (hread : ∀ n, b'.read (r.address + by') n = b.read r.address n) :
    (r.moved by' down).paddingValue (.buffer b' : Source τ) =
      ((r.paddingValue (.buffer b : Source τ)).1, .buffer b') := by
  unfold paddingValue moved
  simp only [Source.readOrZeros_buffer, hread]

theorem fill_moved (r : Row) (hread : ∀ n, b'.read (r.address + by') n = b.read r.address n) :
    (r.moved by' down).fill (.buffer b' : Source τ) = ((r.fill (.buffer b : Source τ)).1.moved by' down, .buffer b') := by
  unfold fill
  rw [fieldValue_moved r hread, paddingValue_moved r hread]
  simp only [moved]
  by_cases hvalue : r.kind.hasValue <;> cases r.role <;> simp only [hvalue, if_true, Bool.false_eq_true, if_false]

theorem fill_buffer (r : Row) (b : Buffer) : (r.fill (.buffer b : Source τ)).2 = .buffer b := by
  have hstill : r.moved 0 0 = r := by simp [moved]
  have hfill : (r.moved 0 0).fill (.buffer b : Source τ) = ((r.fill (.buffer b : Source τ)).1.moved 0 0, .buffer b) :=
    fill_moved r fun n => by rw [UInt64.add_zero]
  rw [hstill] at hfill
  rw [hfill]

/-- rows that are moved together with the bytes under them have the same values -/
theorem fillAll_moved (rows : List Row) (hread : ∀ address n, b'.read (address + by') n = b.read address n) :
    (fillAll (.buffer b' : Source τ) (rows.map (Row.moved by' down))).1 =
      (fillAll (.buffer b : Source τ) rows).1.map (Row.moved by' down) := by
  induction rows with
  | nil => rfl
  | cons r rows ih =>
    have hstays := fill_buffer (τ := τ) r b
    rw [List.map_cons, fillAll, fillAll, fill_moved r (hread r.address)]
    simp only [hstays, ih, List.map_cons]

end Listing.Row

/-! ## Reading at another base -/

/-- Bytes that lie inside a block are those a number of bytes behind its start, as words. This needs that the block does not
reach around the end of memory. -/
theorem Bytes.start?_eq_some_iff_add {bs : Bytes} {base address : UInt64} {n i : Nat}
    (hbase : base.toNat + bs.length ≤ UInt64.size) (hn : n ≠ 0) :
    bs.start? base address n = some i ↔ i + n ≤ bs.length ∧ address = base + UInt64.ofNat i := by
  rw [start?_eq_some_iff, UInt64.le_iff_toNat_le, ← UInt64.toNat_inj, UInt64.toNat_add, UInt64.toNat_ofNat']
  have haddress := address.toNat_lt
  unfold UInt64.size at hbase
  constructor
  · rintro ⟨hle, hin, rfl⟩
    exact ⟨hin, by omega⟩
  · rintro ⟨hin, hat⟩
    rw [Nat.mod_eq_of_lt (a := i) (by omega), Nat.mod_eq_of_lt (by omega)] at hat
    exact ⟨by omega, hin, by omega⟩

/-- **Reading depends only on how far an address lies from the start of the block**, as words, wherever the block is mapped
below the end of memory. -/
theorem Buffer.read_mapped {b : Buffer} {base : UInt64} (hbase : b.base.toNat + b.data.length ≤ UInt64.size)
    (hbase' : base.toNat + b.data.length ≤ UInt64.size) (address : UInt64) (n : Nat) :
    { b with base }.read (address + (base - b.base)) n = b.read address n := by
  unfold Buffer.read Bytes.readAt
  by_cases hn : n = 0
  · rw [if_pos hn, if_pos hn]
  · rw [if_neg hn, if_neg hn]
    congr 1
    refine Option.ext fun i => ?_
    have hplace : base + UInt64.ofNat i = b.base + UInt64.ofNat i + (base - b.base) := by
      rw [Word.add_right_comm, UInt64.add_comm b.base, UInt64.sub_add_cancel]
    rw [Bytes.start?_eq_some_iff_add hbase' hn, Bytes.start?_eq_some_iff_add hbase hn, hplace, UInt64.add_left_inj]

namespace Document

open Listing Listing.Row

variable {d : Document τ} {b : Buffer} {base : UInt64}

/-- **Moving the base moves the listing.** Let a document be viewed against bytes in memory that do not reach around the end
of memory, neither at the old base nor at the new one. Then its rows with their values are the same after the move, each as
far behind its earlier place, as words, as the new base is behind the old one. -/
theorem view_relocate (h : d.Opened) (hb : d.source = .buffer b) (hold : d.tree.base.toNat + b.data.length ≤ UInt64.size)
    (hnew : base.toNat + b.data.length ≤ UInt64.size) :
    (d.relocate base).view.1 = d.view.1.map (Row.moved (base - d.tree.base) 0) := by
  have hbase : b.base = d.tree.base := h.aligned b.base (by rw [hb]; rfl)
  have hrelocated : d.relocate base = (d.withTree (d.tree.mapped base)).withSource (.buffer { b with base }) := by
    have hkept : (d.withTree (d.tree.mapped base)).source = .buffer b := hb
    change (d.withTree (d.tree.mapped base)).alignSource = _
    rw [alignSource, hkept]
    rfl
  have hrows : d.view.1 = (fillAll (.buffer b : Source τ) d.listing).1 := by
    rw [← hb]
    rfl
  calc (d.relocate base).view.1 = (fillAll (.buffer { b with base } : Source τ) ((d.tree.mapped base).listing d.options)).1 := by
        rw [hrelocated]
        rfl
    _ = (fillAll (.buffer { b with base } : Source τ) (d.listing.map (Row.moved (base - b.base) 0))).1 := by
        rw [Tree.listing_mapped, hbase]
        rfl
    _ = d.view.1.map (Row.moved (base - d.tree.base) 0) := by
        rw [fillAll_moved d.listing (Buffer.read_mapped (hbase ▸ hold) hnew), hrows, hbase]

/-- numbers in four bytes and around them: one of them reaches past the bytes, one lies behind and one in front of them -/
def edgeNodes : List Node :=
  [{ Node.field 0 0 .uint8 "first" with id := 1 }, { Node.field 0 1 .uint16 "inside" with id := 2 },
    { Node.field 0 3 .uint16 "across" with id := 3 }, { Node.field 0 4 .uint8 "behind" with id := 4 },
    { Node.field 0 0xfffffffffffffff8 .uint8 "before" with id := 5 }]

def edgeTree : Tree := edgeNodes.foldl Tree.push (Tree.empty 0xfffffffffffffffc)

def edgeDocument : Document Image := (ofTree edgeTree).turn (.attach (.buffer ⟨[1, 2, 3, 4], "", 0⟩) none)

/-- Moved from the end of memory to its start, the numbers show the same, and what cannot be read shows zero. The number
behind the bytes is at address zero before, and the one in front of them is near the end of memory afterwards. -/
theorem view_relocate_edge :
    (edgeDocument.relocate 0).view.1 = edgeDocument.view.1.map (Row.moved (0 - 0xfffffffffffffffc) 0) ∧
    edgeDocument.view.1.map (fun r => (r.name, r.address, r.value)) =
      [("first", 0xfffffffffffffffc, "0x01"), ("inside", 0xfffffffffffffffd, "770"), ("across", 0xffffffffffffffff, "0"),
        ("behind", 0, "0x00"), ("before", 0xfffffffffffffff4, "0x00")] := by
  have hopened : edgeDocument.Opened := .turn (.start edgeTree) _
  have hsource : edgeDocument.source = .buffer ⟨[1, 2, 3, 4], "", 0xfffffffffffffffc⟩ := rfl
  exact ⟨view_relocate hopened hsource (by decide) (by decide), by decide⟩

end Document

end ByteAtlas
