/-
A block in memory after any run of calls. Each of its bytes is the one last written to its position, whatever the block was
mapped at then, or the one that stood there at first. Positions are numbers, counted from the first byte, so nothing wraps:
a range below the base, or past the end of memory, lies outside.

- `Past`: what a run of calls tells of a block without a look at it: its base, and the writes that landed.
- `Buffer.Records`: a block with the base and the bytes that the past tells. `Buffer.Records.tell` is the step for one call,
  `Buffer.records_after` the run.
- `Source.accesses_after`: reads and writes after any run.
-/
import ByteAtlas.Proofs.Source.Calls

namespace ByteAtlas

variable {τ : Type} [Transport τ]

namespace Bytes

variable {bs new : Bytes} {start : ℕ}

/-- so many bytes at an address lie inside a block of a size whose first byte lies at `origin` -/
def Inside (origin address : UInt64) (n size : ℕ) : Prop :=
  origin.toNat ≤ address.toNat ∧ address.toNat - origin.toNat + n ≤ size

instance (origin address : UInt64) (n size : ℕ) : Decidable (Inside origin address n size) :=
  inferInstanceAs (Decidable (_ ∧ _))

/-- the byte that a write from position `start` on puts at a position, if it gets that far -/
def overlay (start : ℕ) (new : Bytes) (p : ℕ) : Option UInt8 := if start ≤ p then new[p - start]? else none

theorem start?_eq (bs : Bytes) (origin address : UInt64) (n : Nat) :
    bs.start? origin address n =
      if Inside origin address n bs.length then some (address.toNat - origin.toNat) else none :=
  if_congr (and_congr_left' UInt64.le_iff_toNat_le) rfl rfl

theorem overlay_or (start : ℕ) (new : Bytes) (p : ℕ) (before : Option UInt8) :
    (overlay start new p).or before = if start ≤ p ∧ p < start + new.length then new[p - start]? else before := by
  unfold overlay
  by_cases hbefore : p < start
  · rw [if_neg (by omega), if_neg (by omega), Option.none_or]
  · by_cases hwithin : p - start < new.length
    · rw [if_pos (by omega), if_pos (by omega), List.getElem?_eq_getElem hwithin, Option.some_or]
    · rw [if_pos (by omega), if_neg (by omega), List.getElem?_eq_none (by omega), Option.none_or]

/-- **What is written stands where it was written, and all else stays.** -/
theorem getElem?_patch (hin : start + new.length ≤ bs.length) (p : ℕ) :
    (bs.patch start new)[p]? = (overlay start new p).or bs[p]? := by
  have htake : (bs.take start).length = start := by
    rw [List.length_take]
    omega
  rw [overlay_or, patch, List.append_assoc]
  by_cases hbefore : p < start
  · rw [List.getElem?_append_left (by omega), if_neg (by omega), List.getElem?_take_of_lt hbefore]
  · rw [List.getElem?_append_right (by omega), htake]
    by_cases hwithin : p - start < new.length
    · rw [List.getElem?_append_left hwithin, if_pos (by omega)]
    · rw [List.getElem?_append_right (by omega), if_neg (by omega), List.getElem?_drop]
      congr 1
      omega

end Bytes

open Bytes

/-! ## What is known without a look -/

/-- what a run of calls tells of a block: where it is mapped, and the writes that landed, the newest first, each with the
position of its first byte -/
structure Past where
  base : UInt64
  writes : List (ℕ × Bytes)
  deriving DecidableEq, Repr

namespace Past

def last? (past : Past) (p : ℕ) : Option UInt8 := past.writes.findSome? fun w => overlay w.1 w.2 p

def note (past : Past) (start : ℕ) (new : Bytes) : Past := { past with writes := (start, new) :: past.writes }

theorem last?_note (past : Past) (start : ℕ) (new : Bytes) (p : ℕ) :
    (past.note start new).last? p = (overlay start new p).or (past.last? p) := by
  unfold last? note
  rw [List.findSome?_cons]
  cases overlay start new p <;> rfl

/-- the past of a block of a size with one call more; a write lands if it lies inside -/
def add (size : ℕ) (past : Past) : Source.Call → Past
  | .write address new =>
    if Inside past.base address new.length size then past.note (address.toNat - past.base.toNat) new else past
  | .rebase base => { past with base }
  | _ => past

def of (b : Buffer) (calls : List Source.Call) : Past := calls.foldl (add b.data.length) ⟨b.base, []⟩

/-- four bytes are written, one of them again at another base; the last write would end behind the block -/
example : let past := of ⟨[0, 0, 0, 0], "", 0⟩ [.write 0 [1, 2, 3], .rebase 16, .write 18 [9], .write 19 [7, 7]]
    past = ⟨16, [(2, [9]), (0, [1, 2, 3])]⟩ ∧ past.last? 1 = some 2 ∧ past.last? 2 = some 9 ∧ past.last? 3 = none := by
  decide

end Past

namespace Buffer

variable {origin b : Buffer} {past : Past}

/-- the block is mapped where its past says, is as large as it was, and has the bytes last written or those it had -/
structure Records (origin : Buffer) (past : Past) (b : Buffer) : Prop where
  base : b.base = past.base
  length : b.data.length = origin.data.length
  bytes : ∀ p, b.data[p]? = (past.last? p).or origin.data[p]?

/-- bytes are read exactly inside the block, or if none are asked for -/
theorem Records.read_eq (h : origin.Records past b) (address : UInt64) (n : ℕ) :
    b.read address n =
      if n = 0 then some []
      else if Inside past.base address n origin.data.length then
        some ((b.data.drop (address.toNat - past.base.toNat)).take n)
      else none := by
  unfold Buffer.read readAt
  rw [start?_eq, h.base, h.length]
  split_ifs <;> rfl

/-- a write lands exactly inside the block, or if it is of nothing -/
theorem Records.write_eq (h : origin.Records past b) (address : UInt64) (new : Bytes) :
    b.write address new =
      if new = [] then some b
      else if Inside past.base address new.length origin.data.length then
        some { b with data := b.data.patch (address.toNat - past.base.toNat) new }
      else none := by
  unfold Buffer.write writeAt
  rw [start?_eq, h.base, h.length]
  simp only [List.isEmpty_iff]
  split_ifs <;> rfl

/-- a write that lands adds to the past; one of nothing may be added, and changes no byte -/
theorem Records.add_write (h : origin.Records past b) (address : UInt64) (new : Bytes) :
    origin.Records (past.add origin.data.length (.write address new)) ((b.write address new).getD b) := by
  rw [h.write_eq, Past.add]
  by_cases hempty : new = []
  · subst hempty
    rw [if_pos rfl, Option.getD_some]
    split_ifs with hin
    · refine ⟨h.base, h.length, fun p => ?_⟩
      have hnone : overlay (address.toNat - past.base.toNat) [] p = none := by simp [overlay]
      rw [Past.last?_note, hnone, Option.none_or, h.bytes p]
    · exact h
  · rw [if_neg hempty]
    split_ifs with hin
    · have hfits : address.toNat - past.base.toNat + new.length ≤ b.data.length := h.length ▸ hin.2
      refine ⟨h.base, (length_patch hfits).trans h.length, fun p => ?_⟩
      rw [Option.getD_some, Past.last?_note, getElem?_patch hfits, h.bytes p, Option.or_assoc]
    · exact h

/-- **One call.** Whatever is asked of the block, it goes on as its past says. -/
theorem Records.tell (h : origin.Records past b) (call : Source.Call) :
    ∃ b', ((Source.buffer b : Source τ).tell call).2 = .buffer b' ∧
      origin.Records (past.add origin.data.length call) b' := by
  cases call with
  | size => exact ⟨b, rfl, h⟩
  | read address memory =>
    refine ⟨b, ?_, h⟩
    simp only [Source.tell, Source.readInto_eq]
    rfl
  | symbol address => exact ⟨b, rfl, h⟩
  | rebase base => exact ⟨{ b with base }, rfl, rfl, h.length, h.bytes⟩
  | write address new =>
    refine ⟨(b.write address new).getD b, ?_, h.add_write address new⟩
    simp only [Source.tell, Source.write]
    cases b.write address new <;> rfl

/-- **A run of calls.** -/
theorem records_after (origin : Buffer) (calls : List Source.Call) :
    ∃ b, (Source.buffer origin : Source τ).after calls = .buffer b ∧ origin.Records (Past.of origin calls) b := by
  have hrun : ∀ (calls : List Source.Call) (past : Past) (b : Buffer), origin.Records past b →
      ∃ b', (Source.buffer b : Source τ).after calls = .buffer b' ∧
        origin.Records (calls.foldl (Past.add origin.data.length) past) b' := by
    intro calls
    induction calls with
    | nil => exact fun past b h => ⟨b, rfl, h⟩
    | cons call calls ih =>
      intro past b h
      obtain ⟨b', hb', h'⟩ := h.tell (τ := τ) call
      rw [Source.after_cons, hb']
      exact ih _ b' h'
  exact hrun calls ⟨origin.base, []⟩ origin ⟨rfl, rfl, fun _ => rfl⟩

end Buffer

namespace Source

variable {origin b : Buffer} {past : Past}

/-- **A read after any past.** -/
theorem readInto_of_records (h : origin.Records past b) (address : UInt64) (memory : Bytes) :
    ∃ done filled, (buffer b : Source τ).readInto address memory = ((done, filled), buffer b) ∧
      (done = true ↔ memory = [] ∨ Inside past.base address memory.length origin.data.length) ∧
      (done = true → filled.length = memory.length ∧ ∀ k < memory.length,
        filled[k]? = (past.last? (address.toNat - past.base.toNat + k)).or
          origin.data[address.toNat - past.base.toNat + k]?) ∧
      (done = false → filled = memory) := by
  have hread := h.read_eq address memory.length
  refine ⟨_, _, readInto_eq _ address memory, ?_⟩
  rw [Source.read, hread]
  by_cases hempty : memory = []
  · subst hempty
    simp
  · rw [if_neg (by simpa using hempty)]
    by_cases hin : Inside past.base address memory.length origin.data.length
    · rw [if_pos hin]
      have hfits : address.toNat - past.base.toNat + memory.length ≤ b.data.length := h.length ▸ hin.2
      refine ⟨by simp [hin], fun _ => ⟨?_, fun k hk => ?_⟩, by simp⟩
      · rw [Option.getD_some, List.length_take, List.length_drop]
        omega
      · rw [Option.getD_some, List.getElem?_take_of_lt hk, List.getElem?_drop, h.bytes]
    · rw [if_neg hin]
      simp [hempty, hin]

/-- **A write after any past.** -/
theorem write_of_records (h : origin.Records past b) (address : UInt64) (new : Bytes) :
    ∃ done b', (buffer b : Source τ).write address new = (done, buffer b') ∧
      (done = true ↔ new = [] ∨ Inside past.base address new.length origin.data.length) ∧
      b'.base = b.base ∧ b'.size = origin.size ∧
      (done = true → ∀ p, b'.data[p]? =
        if address.toNat - past.base.toNat ≤ p ∧ p < address.toNat - past.base.toNat + new.length then
          new[p - (address.toNat - past.base.toNat)]?
        else b.data[p]?) ∧
      (done = false → b' = b) := by
  have hsize : b.size = origin.size := congrArg UInt64.ofNat h.length
  rw [Source.write, h.write_eq]
  by_cases hempty : new = []
  · subst hempty
    refine ⟨true, b, rfl, by simp, rfl, hsize, fun _ p => ?_, fun _ => rfl⟩
    rw [if_neg (by rw [List.length_nil]; omega)]
  · rw [if_neg hempty]
    by_cases hin : Inside past.base address new.length origin.data.length
    · rw [if_pos hin]
      have hfits : address.toNat - past.base.toNat + new.length ≤ b.data.length := h.length ▸ hin.2
      refine ⟨true, _, rfl, by simp [hin], rfl, ?_, fun _ p => ?_, nofun⟩
      · exact congrArg UInt64.ofNat ((length_patch hfits).trans h.length)
      · rw [getElem?_patch hfits, overlay_or]
    · rw [if_neg hin]
      exact ⟨false, b, rfl, by simp [hempty, hin], rfl, hsize, nofun, fun _ => rfl⟩

/-- **Reads and writes after any run of calls.** Let a block in memory be read, written and mapped elsewhere, in any number and
order. It is as large as it was, and each byte is the one last written to its position, or the one that it had. A read of
nothing succeeds, and any other exactly if it lies inside; then it fills the memory of the caller with these bytes, and if not
it leaves the memory as it was; the block stays the same either way. A write of nothing succeeds, and any other exactly if it
lies inside; then just the bytes in this range are the new ones, and if not the block stays the same. -/
theorem accesses_after (origin : Buffer) (earlier : List Call) :
    let past := Past.of origin earlier
    let size := origin.data.length
    ∃ b : Buffer, (buffer origin : Source τ).after earlier = buffer b ∧ b.base = past.base ∧ b.data.length = size ∧
      b.size = origin.size ∧ (∀ p, b.data[p]? = (past.last? p).or origin.data[p]?) ∧
      (∀ address memory, ∃ done filled,
        (buffer b : Source τ).readInto address memory = ((done, filled), buffer b) ∧
        (done = true ↔ memory = [] ∨ Inside past.base address memory.length size) ∧
        (done = true → filled.length = memory.length ∧ ∀ k < memory.length,
          filled[k]? = (past.last? (address.toNat - past.base.toNat + k)).or
            origin.data[address.toNat - past.base.toNat + k]?) ∧
        (done = false → filled = memory)) ∧
      ∀ address new, ∃ done b', (buffer b : Source τ).write address new = (done, buffer b') ∧
        (done = true ↔ new = [] ∨ Inside past.base address new.length size) ∧
        b'.base = b.base ∧ b'.size = origin.size ∧
        (done = true → ∀ p, b'.data[p]? =
          if address.toNat - past.base.toNat ≤ p ∧ p < address.toNat - past.base.toNat + new.length then
            new[p - (address.toNat - past.base.toNat)]?
          else b.data[p]?) ∧
        (done = false → b' = b) := by
  intro past size
  obtain ⟨b, hb, h⟩ := Buffer.records_after (τ := τ) origin earlier
  exact ⟨b, hb, h.base, h.length, congrArg UInt64.ofNat h.length, h.bytes, readInto_of_records h, write_of_records h⟩

end Source

end ByteAtlas
