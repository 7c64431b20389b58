/-
What bytes behind a block do to the text of the block. As a rule their own text comes behind it. A block may end inside a
sequence that makes up one character, though, and then the bytes behind it may belong to this character.

- `Utf8.decodeLossy_append_of_starts`: bytes that do not go on with a sequence add their own text.
- `Utf8.decodeLossy_append_eq_self_iff`: bytes add nothing if there are none, or if they go on with a sequence that is read
  as one U+FFFD with them and without them.
- `Utf16.decodeLossy_append_eq_self_iff`: every unit adds something.
-/
import Mathlib.Tactic
import ByteAtlas.Proofs.Text.Utf8
import ByteAtlas.Proofs.Text.Utf16

namespace ByteAtlas.Text

/-! ## Texts with an end -/

section

variable {α : Type} [DecidableEq α] {z : α} {s : List α}

theorem takeWhile_append_of_mem (hz : z ∈ s) (s' : List α) : (s ++ s').takeWhile (· != z) = s.takeWhile (· != z) := by
  induction s with
  | nil => cases hz
  | cons a s ih =>
    by_cases ha : a = z
    · simp [ha]
    · have hrest : z ∈ s := (List.mem_cons.1 hz).resolve_left (Ne.symm ha)
      simp [ha, ih hrest]

theorem takeWhile_append_of_not_mem (hz : z ∉ s) (s' : List α) :
    (s ++ s').takeWhile (· != z) = s ++ s'.takeWhile (· != z) :=
  List.takeWhile_append_of_pos fun _ hmem => bne_iff_ne.2 fun e => hz (e ▸ hmem)

/-- **What comes behind a block changes nothing if the text ends in the block**, or its part before the end changes nothing. -/
theorem decode_takeWhile_append_iff {β : Type} (decode : List α → β) (z : α) (s s' : List α) :
    decode ((s ++ s').takeWhile (· != z)) = decode (s.takeWhile (· != z)) ↔
      z ∈ s ∨ z ∉ s ∧ decode (s ++ s'.takeWhile (· != z)) = decode s := by
  by_cases hz : z ∈ s
  · simp [takeWhile_append_of_mem hz, hz]
  · have hs : s.takeWhile (· != z) = s := by simpa using takeWhile_append_of_not_mem hz []
    simp [takeWhile_append_of_not_mem hz, hs, hz]

end

/-! ## UTF-8 -/

namespace Utf8

variable {b : UInt8} {s s' : Bytes} {skip : Nat}

/-- a byte that does not go on with a sequence -/
def Starts (b : UInt8) : Prop := b.toNat < 0x80 ∨ 0xbf < b.toNat

/-- Bytes that leave the text of a block as it is: none, or bytes that go on with a sequence that the end of the block cuts,
if the sequence is read as one U+FFFD with them and without them. -/
def Completes (s s' : Bytes) : Prop :=
  s' = [] ∨ ∃ front b more, s = front ++ b :: more ∧ Starts b ∧ decodeLossy (b :: more) = ['\ufffd'] ∧
    decodeLossy (b :: more ++ s') = ['\ufffd']

/-! ### One sequence -/

/-- what comes behind the bytes of a sequence is not looked at, unless they run out -/
theorem follow_append (more low high acc : Nat) (s : Bytes) :
    (∀ s', follow more low high acc (s ++ s') = follow more low high acc s) ∨
      follow more low high acc s = (none, s.length) := by
  induction more generalizing low high acc s with
  | zero => exact .inl fun s' => rfl
  | succ more ih =>
    cases s with
    | nil => exact .inr rfl
    | cons b s =>
      simp only [List.cons_append, follow]
      split_ifs with hrange
      · rcases ih 0x80 0xbf (acc * 64 + b.toNat % 64) s with hdecided | hout
        · exact .inl fun s' => by rw [hdecided]
        · exact .inr (by rw [hout, List.length_cons])
      · exact .inl fun s' => rfl

/-- a byte that starts something else ends a sequence as the end of the block does -/
theorem follow_append_starts {low high : Nat} (more acc : Nat) (s : Bytes) (hb : Starts b) (hlow : 0x80 ≤ low)
    (hhigh : high ≤ 0xbf) (rest : Bytes) :
    follow more low high acc (s ++ b :: rest) = follow more low high acc s := by
  induction more generalizing low high acc s with
  | zero => rfl
  | succ more ih =>
    cases s with
    | nil =>
      have hout : ¬ (low ≤ b.toNat ∧ b.toNat ≤ high) := by
        unfold Starts at hb
        omega
      simp only [List.nil_append, follow, if_neg hout]
    | cons c s =>
      simp only [List.cons_append, follow]
      rw [ih _ s le_rfl le_rfl]

theorem follow_used (more low high acc : Nat) (s : Bytes) : (follow more low high acc s).2 ≤ s.length := by
  induction more generalizing low high acc s with
  | zero => exact Nat.zero_le _
  | succ more ih =>
    cases s with
    | nil => exact le_rfl
    | cons b s =>
      simp only [follow]
      split_ifs with hrange
      · exact Nat.succ_le_succ (ih 0x80 0xbf (acc * 64 + b.toNat % 64) s)
      · exact Nat.zero_le _

/-- a byte that promises something does not go on with a sequence -/
theorem starts_of_lead {l : Lead} (h : lead b.toNat = some l) : Starts b := by
  unfold lead at h
  unfold Starts
  split_ifs at h <;> omega

/-- the bytes that a first byte allows behind it go on with a sequence -/
theorem lead_low {l : Lead} (h : lead b.toNat = some l) : l.more = 0 ∨ 0x80 ≤ l.low ∧ l.high ≤ 0xbf := by
  by_cases hzero : b.toNat = 0
  · rw [hzero] at h
    cases h
    exact .inl rfl
  · rcases lead_range hzero h with ⟨hmore, -⟩ | ⟨-, -, hlow, hhigh, -⟩
    · exact .inl hmore
    · exact .inr ⟨hlow, hhigh⟩

theorem step_append (b : UInt8) (s : Bytes) :
    (∀ s', step b (s ++ s') = step b s) ∨ Starts b ∧ step b s = (none, s.length) := by
  unfold step
  cases hlead : lead b.toNat with
  | none => exact .inl fun s' => rfl
  | some l =>
    dsimp only
    rcases follow_append l.more l.low l.high l.bits s with hdecided | hout
    · exact .inl fun s' => by rw [hdecided]
    · exact .inr ⟨starts_of_lead hlead, by rw [hout]; rfl⟩

theorem step_append_starts (c : UInt8) (s : Bytes) (hb : Starts b) (rest : Bytes) :
    step c (s ++ b :: rest) = step c s := by
  unfold step
  cases hlead : lead c.toNat with
  | none => rfl
  | some l =>
    dsimp only
    rcases lead_low hlead with hmore | ⟨hlow, hhigh⟩
    · rw [hmore, follow, follow]
    · rw [follow_append_starts l.more l.bits s hb hlow hhigh]

theorem step_used (b : UInt8) (s : Bytes) : (step b s).2 ≤ s.length := by
  unfold step
  cases hlead : lead b.toNat with
  | none => exact Nat.zero_le _
  | some l => exact follow_used l.more l.low l.high l.bits s

/-! ### Blocks -/

theorem pieces_append_starts (hskip : skip ≤ s.length) (hb : Starts b) (rest : Bytes) :
    pieces skip (s ++ b :: rest) = pieces skip s ++ pieces 0 (b :: rest) := by
  induction s generalizing skip with
  | nil =>
    obtain rfl : skip = 0 := Nat.le_zero.1 hskip
    rfl
  | cons c s ih =>
    cases skip with
    | succ skip => exact ih (Nat.le_of_succ_le_succ hskip)
    | zero =>
      have hrest := ih (step_used c s)
      simpa only [List.cons_append, pieces, step_append_starts c s hb rest, List.cons.injEq, true_and] using hrest

/-- **Bytes that do not go on with a sequence add their own text.** -/
theorem decodeLossy_append_of_starts (s : Bytes) (hb : Starts b) (rest : Bytes) :
    decodeLossy (s ++ b :: rest) = decodeLossy s ++ decodeLossy (b :: rest) := by
  simp only [decodeLossy, pieces_append_starts (Nat.zero_le _) hb, List.map_append]

/-- what comes behind a block adds its own pieces, unless the block ends inside a sequence -/
theorem pieces_append (hskip : skip ≤ s.length) :
    (∀ s', pieces skip (s ++ s') = pieces skip s ++ pieces 0 s') ∨
      ∃ front b more, s = front ++ b :: more ∧ Starts b ∧ step b more = (none, more.length) := by
  induction s generalizing skip with
  | nil =>
    obtain rfl : skip = 0 := Nat.le_zero.1 hskip
    exact .inl fun s' => rfl
  | cons c s ih =>
    cases skip with
    | succ skip =>
      rcases ih (Nat.le_of_succ_le_succ hskip) with hwhole | ⟨front, b, more, rfl, hcut⟩
      · exact .inl hwhole
      · exact .inr ⟨c :: front, b, more, rfl, hcut⟩
    | zero =>
      rcases step_append c s with hdecided | hcut
      · rcases ih (step_used c s) with hwhole | ⟨front, b, more, rfl, hcut⟩
        · refine .inl fun s' => ?_
          rw [List.cons_append, pieces, hdecided, hwhole, pieces, List.cons_append]
        · exact .inr ⟨c :: front, b, more, rfl, hcut⟩
      · exact .inr ⟨[], c, s, rfl, hcut⟩

/-- a sequence that is cut is read as one U+FFFD -/
theorem decodeLossy_of_step {more : Bytes} (h : step b more = (none, more.length)) :
    decodeLossy (b :: more) = ['\ufffd'] := by
  have hrest : pieces more.length more = [] := by simpa [pieces] using pieces_skip more []
  rw [decodeLossy, pieces, h, hrest]
  rfl

theorem decodeLossy_eq_nil_iff : decodeLossy s = [] ↔ s = [] := by
  cases s with
  | nil => simp [decodeLossy, pieces]
  | cons b s => simp [decodeLossy, pieces]

/-- **The text stays what it is only if no bytes come, or they go on with a sequence that cannot be told from a cut one.** -/
theorem decodeLossy_append_eq_self_iff : decodeLossy (s ++ s') = decodeLossy s ↔ Completes s s' := by
  refine ⟨fun h => ?_, fun h => ?_⟩
  · rcases pieces_append (s := s) (Nat.zero_le _) with hwhole | ⟨front, b, more, rfl, hb, hcut⟩
    · -- the text behind is empty
      have htexts : decodeLossy (s ++ s') = decodeLossy s ++ decodeLossy s' := by
        simp only [decodeLossy, hwhole, List.map_append]
      exact .inl (decodeLossy_eq_nil_iff.1 (List.append_right_eq_self.1 (htexts.symm.trans h)))
    · have hmark := decodeLossy_of_step hcut
      rw [List.append_assoc, List.cons_append, decodeLossy_append_of_starts front hb,
        decodeLossy_append_of_starts front hb, List.append_cancel_left_eq, hmark] at h
      exact .inr ⟨front, b, more, rfl, hb, hmark, h⟩
  · obtain rfl | ⟨front, b, more, rfl, hb, hmark, hlonger⟩ := h
    · rw [List.append_nil]
    · calc decodeLossy (front ++ b :: more ++ s')
          = decodeLossy front ++ decodeLossy (b :: more ++ s') := by
            rw [List.append_assoc, List.cons_append, decodeLossy_append_of_starts front hb]
        _ = decodeLossy front ++ decodeLossy (b :: more) := by rw [hlonger, hmark]
        _ = decodeLossy (front ++ b :: more) := (decodeLossy_append_of_starts front hb more).symm

example : decodeLossy ([0x61, 0xe2] ++ [0x82]) = decodeLossy [0x61, 0xe2] := by decide

end Utf8

/-! ## UTF-16 -/

namespace Utf16

variable {us vs : List Nat}

theorem decodeLossy_eq_nil_iff : decodeLossy us = [] ↔ us = [] := by
  fun_cases decodeLossy us <;> simp

/-- the character of a pair of surrogates is not the mark of a surrogate alone -/
theorem pair_ne_mark {u v : Nat} (hu : isHigh u = true) (hv : isLow v = true) :
    Char.ofNat (0x10000 + (u - 0xd800) * 1024 + (v - 0xdc00)) ≠ '\ufffd' := by
  intro h
  obtain ⟨hlarge, hvalid⟩ := pair_isValid hu hv
  have hnumber := congrArg Char.toNat h
  rw [toNat_ofNat hvalid] at hnumber
  have hmark : '\ufffd'.toNat = 0xfffd := rfl
  omega

/-- **Every unit behind a sequence of units adds something to its text**, also one that makes up a pair with the last of them. -/
theorem decodeLossy_append_eq_self_iff : decodeLossy (us ++ vs) = decodeLossy us ↔ vs = [] := by
  fun_induction decodeLossy us with
  | case1 => exact decodeLossy_eq_nil_iff
  | case2 u =>
    cases vs with
    | nil => simp [decodeLossy]
    | cons v vs =>
      simp only [List.singleton_append, decodeLossy, reduceCtorEq, iff_false]
      split_ifs <;> simp_all [decodeLossy_eq_nil_iff, pair_ne_mark]
  | case3 u v rest hu hv ih => simp [decodeLossy, hu, hv, ih]
  | case4 u v rest hu hv ih => simpa [decodeLossy, hu, hv] using ih
  | case5 u v rest hu hv ih => simpa [decodeLossy, hu, hv] using ih
  | case6 u v rest hu hv ih => simpa [decodeLossy, hu, hv] using ih

/-- the units of a block of whole units come before the units behind it -/
theorem ofBytes_append {front : Bytes} (heven : front.length % 2 = 0) (rest : Bytes) :
    ofBytes (front ++ rest) = ofBytes front ++ ofBytes rest := by
  fun_induction ofBytes front with
  | case1 a b front ih =>
    have hrest : front.length % 2 = 0 := by
      simp only [List.length_cons] at heven
      omega
    rw [List.cons_append, List.cons_append, ofBytes, ih hrest, List.cons_append]
  | case2 front hshort =>
    rcases front with _ | ⟨a, _ | ⟨b, front⟩⟩
    · rfl
    · exact absurd heven Nat.one_ne_zero
    · exact absurd rfl (hshort a b front)

end Utf16

end ByteAtlas.Text
