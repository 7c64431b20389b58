/-
Writes to a block of memory, and how they are undone: bytes written over others of the same number are undone by writing
the others back (`Buffer.write_write`). Addresses may be anything; a write that does not fit is refused as a whole.
-/
import Mathlib
import ByteAtlas.Source.Basic

namespace ByteAtlas

namespace Bytes

/-- writing the bytes back that stood at a place -/
theorem patch_patch {bs old new : Bytes} {start : Nat} (hlen : old.length = new.length)
    (hin : start + new.length ≤ bs.length) (hold : (bs.drop start).take old.length = old) :
    (bs.patch start new).patch start old = bs := by
  have htake : (bs.take start).length = start := by rw [List.length_take]; omega
  have hhead : (bs.patch start new).take start = bs.take start := by
    rw [patch, List.append_assoc, List.take_left' htake]
  have htail : (bs.patch start new).drop (start + old.length) = bs.drop (start + new.length) := by
    rw [patch, List.drop_left']
    rw [List.length_append, htake, hlen]
  rw [patch, hhead, htail, ← hlen, ← List.drop_drop]
  conv_lhs => rw [← hold]
  rw [List.length_take, List.length_drop, Nat.min_eq_left (by omega), List.append_assoc, List.take_append_drop,
    List.take_append_drop]

theorem length_patch {bs new : Bytes} {start : Nat} (hin : start + new.length ≤ bs.length) :
    (bs.patch start new).length = bs.length := by
  simp only [patch, List.length_append, List.length_take, List.length_drop]
  omega

theorem start?_eq_some_iff {bs : Bytes} {origin address : UInt64} {n i : Nat} :
    bs.start? origin address n = some i ↔
      origin ≤ address ∧ i + n ≤ bs.length ∧ i = address.toNat - origin.toNat := by
  unfold start?
  constructor
  · intro h
    split at h
    · next hc =>
      obtain rfl := Option.some.inj h
      exact ⟨hc.1, hc.2, rfl⟩
    · simp at h
  · rintro ⟨ho, hi, rfl⟩
    rw [if_pos ⟨ho, hi⟩]

theorem length_readAt {bs x : Bytes} {origin address : UInt64} {n : Nat} (h : bs.readAt origin address n = some x) :
    x.length = n := by
  obtain ⟨i, hi, rfl⟩ := Option.map_eq_some_iff.1 h
  obtain ⟨-, hin, -⟩ := start?_eq_some_iff.1 hi
  rw [List.length_take, List.length_drop]
  omega

/-- bytes that are read are never dropped for their number -/
theorem filter_readAt (bs : Bytes) (origin address : UInt64) (n : Nat) :
    ((bs.readAt origin address n).filter fun x => x.length == n) = bs.readAt origin address n := by
  cases hx : bs.readAt origin address n with
  | none => rfl
  | some x => simp [Option.filter, length_readAt hx]

theorem writeAt_writeAt {bs bs' old new : Bytes} {origin address : UInt64} (hlen : old.length = new.length)
    (hold : bs.readAt origin address old.length = some old) (hnew : bs.writeAt origin address new = some bs') :
    bs'.writeAt origin address old = some bs := by
  obtain ⟨i, hi, rfl⟩ := Option.map_eq_some_iff.1 hnew
  obtain ⟨j, hj, hold⟩ := Option.map_eq_some_iff.1 hold
  rw [start?_eq_some_iff] at hi hj
  obtain ⟨ho, hin, rfl⟩ := hi
  obtain ⟨-, -, rfl⟩ := hj
  refine Option.map_eq_some_iff.2 ⟨_, start?_eq_some_iff.2 ⟨ho, ?_, rfl⟩, patch_patch hlen hin hold⟩
  rw [length_patch hin, hlen]
  exact hin

end Bytes

/-- reading gives as many bytes as are asked for -/
theorem Buffer.length_read {b : Buffer} {address : UInt64} {n : Nat} {bs : Bytes} (h : b.read address n = some bs) :
    bs.length = n := by
  unfold Buffer.read at h
  split at h
  · next h0 =>
    obtain rfl := Option.some.inj h
    exact h0.symm
  · exact Bytes.length_readAt h

/-- **A write is undone by writing the earlier bytes back.** -/
theorem Buffer.write_write {b b' : Buffer} {address : UInt64} {old new : Bytes} (hlen : old.length = new.length)
    (hold : b.read address old.length = some old) (hnew : b.write address new = some b') :
    b'.write address old = some b := by
  unfold Buffer.write at hnew ⊢
  by_cases he : new = []
  · have he' : old = [] := List.length_eq_zero_iff.1 (hlen.trans (by rw [he]; rfl))
    rw [if_pos (by rw [he]; rfl)] at hnew
    rw [if_pos (by rw [he']; rfl), hnew]
  · have he' : old ≠ [] := fun e => he (List.length_eq_zero_iff.1 (hlen.symm.trans (by rw [e]; rfl)))
    rw [if_neg (by simpa using he)] at hnew
    rw [if_neg (by simpa using he')]
    obtain ⟨data, hdata, rfl⟩ := Option.map_eq_some_iff.1 hnew
    have hread : b.data.readAt b.base address old.length = some old := by
      rwa [Buffer.read, if_neg (by simpa using he')] at hold
    rw [Bytes.writeAt_writeAt hlen hread hdata, Option.map_some]

end ByteAtlas
