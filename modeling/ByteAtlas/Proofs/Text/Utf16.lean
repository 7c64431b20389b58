/-
What is written in UTF-16 is read back, and what is read can be written again.

A character takes one unit or two surrogates. A surrogate without its partner is read as U+FFFD, which is one unit as well,
so that no text takes more units than those it was read from (`length_encode_decodeLossy`).

A block of bytes holds units of two bytes. A block that is cut to an odd length has a last byte that belongs to no unit
(`ofBytes_resize`).
-/
import Mathlib.Tactic
import ByteAtlas.Proofs.Text.Coding
import ByteAtlas.Text.Utf16

namespace ByteAtlas.Text.Utf16

variable {u v : Nat} {s : List Nat}

/-! ## Surrogates -/

theorem isHigh_iff : isHigh u = true ↔ 0xd800 ≤ u ∧ u < 0xdc00 := by simp [isHigh]

theorem isLow_iff : isLow u = true ↔ 0xdc00 ≤ u ∧ u < 0xe000 := by simp [isLow]

theorem isHigh_eq_false (h : u < 0xd800 ∨ 0xdfff < u) : isHigh u = false := by
  refine Bool.eq_false_iff.2 fun hu => ?_
  have := isHigh_iff.1 hu
  omega

theorem isLow_eq_false (h : u < 0xd800 ∨ 0xdfff < u) : isLow u = false := by
  refine Bool.eq_false_iff.2 fun hu => ?_
  have := isLow_iff.1 hu
  omega

/-- a pair of surrogates makes up a character past the units -/
theorem pair_isValid (hu : isHigh u = true) (hv : isLow v = true) :
    0x10000 ≤ 0x10000 + (u - 0xd800) * 1024 + (v - 0xdc00) ∧
      (0x10000 + (u - 0xd800) * 1024 + (v - 0xdc00)).isValidChar := by
  have hhigh := isHigh_iff.1 hu
  have hlow := isLow_iff.1 hv
  exact ⟨by omega, .inr ⟨by omega, by omega⟩⟩

/-- a unit that is no surrogate is a character -/
theorem unit_isValid (hu : u < 0x10000) (hhigh : ¬ isHigh u = true) (hlow : ¬ isLow u = true) : u.isValidChar := by
  rw [isHigh_iff] at hhigh
  rw [isLow_iff] at hlow
  omega

/-! ## Texts -/

theorem decodeLossy_plain (h : u < 0xd800 ∨ 0xdfff < u) (s : List Nat) :
    decodeLossy (u :: s) = Char.ofNat u :: decodeLossy s := by
  cases s <;> simp [decodeLossy, isHigh_eq_false h, isLow_eq_false h]

theorem decodeLossy_encodeChar (c : Char) (s : List Nat) : decodeLossy (encodeChar c ++ s) = c :: decodeLossy s := by
  have hvalid := toNat_isValid c
  have hc : Char.ofNat c.toNat = c := Char.ofNat_toNat c
  generalize hn : c.toNat = n at hvalid hc
  by_cases h : n < 0x10000
  · have hunits : encodeChar c = [n] := by simp [encodeChar, hn, h]
    rw [hunits, List.singleton_append, decodeLossy_plain (by omega), hc]
  · have hunits : encodeChar c = [0xd800 + (n - 0x10000) / 1024, 0xdc00 + (n - 0x10000) % 1024] := by
      simp [encodeChar, hn, h]
    have hhigh : isHigh (0xd800 + (n - 0x10000) / 1024) = true := isHigh_iff.2 ⟨by omega, by omega⟩
    have hlow : isLow (0xdc00 + (n - 0x10000) % 1024) = true := isLow_iff.2 ⟨by omega, by omega⟩
    have hnumber : 0x10000 + (0xd800 + (n - 0x10000) / 1024 - 0xd800) * 1024 +
        (0xdc00 + (n - 0x10000) % 1024 - 0xdc00) = n := by omega
    rw [hunits, List.cons_append, List.cons_append, List.nil_append, decodeLossy, if_pos hhigh, if_pos hlow, hnumber, hc]

/-- **Of a character that is cut between its surrogates, a single U+FFFD is read.** -/
theorem decodeLossy_take_encodeChar (c : Char) (k : Nat) (h0 : 0 < k) (hk : k < (encodeChar c).length) :
    decodeLossy ((encodeChar c).take k) = ['\ufffd'] := by
  have hvalid := toNat_isValid c
  unfold encodeChar at hk ⊢
  dsimp only at hk ⊢
  split_ifs at hk ⊢ with h
  · rw [List.length_singleton] at hk
    omega
  · obtain rfl : k = 1 := by
      simp only [List.length_cons, List.length_nil] at hk
      omega
    have hhigh : isHigh (0xd800 + (c.toNat - 0x10000) / 1024) = true := isHigh_iff.2 ⟨by omega, by omega⟩
    simp [decodeLossy, hhigh]

theorem zero_not_mem_encodeChar (c : Char) (hc : c ≠ '\x00') : 0 ∉ encodeChar c := by
  have hpos : c.toNat ≠ 0 := fun e => hc (Char.toNat_inj.1 e)
  simp only [encodeChar]
  split_ifs <;> simp only [List.mem_cons, List.not_mem_nil, or_false] <;> omega

/-! ## Units -/

/-- a unit other than zero is not read as NUL -/
theorem unit_ne_nul (hu : u < 0x10000) (h0 : u ≠ 0) (hhigh : ¬ isHigh u = true) (hlow : ¬ isLow u = true) :
    '\x00' ≠ Char.ofNat u :=
  (ofNat_ne_nul (Nat.pos_of_ne_zero h0) (unit_isValid hu hhigh hlow)).symm

theorem nul_not_mem_decodeLossy (s : List Nat) (hs : ∀ u ∈ s, u < 0x10000) (h0 : 0 ∉ s) : '\x00' ∉ decodeLossy s := by
  have hmark : '\x00' ≠ '\ufffd' := by decide
  fun_induction decodeLossy s with
  | case1 => exact List.not_mem_nil
  | case2 u =>
    rw [List.mem_singleton] at h0 ⊢
    split_ifs with hsurrogate
    · exact hmark
    · rw [Bool.or_eq_true, not_or] at hsurrogate
      exact unit_ne_nul (hs u List.mem_cons_self) (Ne.symm h0) hsurrogate.1 hsurrogate.2
  | case3 u v rest hu hv ih =>
    obtain ⟨hnumber, hvalid⟩ := pair_isValid hu hv
    refine List.not_mem_cons_of_ne_of_not_mem (ofNat_ne_nul (by omega) hvalid).symm (ih ?_ ?_)
    · exact fun w hw => hs w (List.mem_cons_of_mem u (List.mem_cons_of_mem v hw))
    · exact fun hmem => h0 (List.mem_cons_of_mem u (List.mem_cons_of_mem v hmem))
  | case4 u v rest hu hv ih | case5 u v rest hu hv ih =>
    exact List.not_mem_cons_of_ne_of_not_mem hmark
      (ih (fun w hw => hs w (List.mem_cons_of_mem u hw)) fun hmem => h0 (List.mem_cons_of_mem u hmem))
  | case6 u v rest hu hv ih =>
    have hne : u ≠ 0 := fun e => h0 (e ▸ List.mem_cons_self)
    exact List.not_mem_cons_of_ne_of_not_mem (unit_ne_nul (hs u List.mem_cons_self) hne hu hv)
      (ih (fun w hw => hs w (List.mem_cons_of_mem u hw)) fun hmem => h0 (List.mem_cons_of_mem u hmem))

def coding : Coding Nat where
  encodeChar := encodeChar
  decode := decodeLossy
  zero := 0
  decode_nil := rfl
  decode_cons := decodeLossy_encodeChar
  decode_cut := decodeLossy_take_encodeChar
  encodeChar_nul := rfl
  zero_not_mem := zero_not_mem_encodeChar

theorem length_encodeChar (c : Char) : (encodeChar c).length = if c.toNat < 0x10000 then 1 else 2 := by
  simp only [encodeChar]
  split_ifs <;> rfl

theorem length_encodeChar_unit (hu : u < 0x10000) (hhigh : ¬ isHigh u = true) (hlow : ¬ isLow u = true) :
    (encodeChar (Char.ofNat u)).length = 1 := by
  rw [length_encodeChar, toNat_ofNat (unit_isValid hu hhigh hlow), if_pos hu]

/-- **What is read takes no more units than it was read from.** -/
theorem length_encode_decodeLossy (s : List Nat) (hs : ∀ u ∈ s, u < 0x10000) :
    (encode (decodeLossy s)).length ≤ s.length := by
  have hmark : (encodeChar '\ufffd').length = 1 := rfl
  unfold encode
  fun_induction decodeLossy s with
  | case1 => exact le_refl 0
  | case2 u =>
    rw [List.flatMap_singleton, List.length_singleton]
    split_ifs with hsurrogate
    · exact hmark.le
    · rw [Bool.or_eq_true, not_or] at hsurrogate
      exact (length_encodeChar_unit (hs u List.mem_cons_self) hsurrogate.1 hsurrogate.2).le
  | case3 u v rest hu hv ih =>
    have hrest := ih fun w hw => hs w (List.mem_cons_of_mem u (List.mem_cons_of_mem v hw))
    obtain ⟨hnumber, hvalid⟩ := pair_isValid hu hv
    rw [List.flatMap_cons, List.length_append, length_encodeChar, toNat_ofNat hvalid, if_neg (by omega)]
    simp only [List.length_cons]
    omega
  | case4 u v rest hu hv ih | case5 u v rest hu hv ih =>
    have hrest := ih fun w hw => hs w (List.mem_cons_of_mem u hw)
    rw [List.flatMap_cons, List.length_append, hmark, List.length_cons]
    omega
  | case6 u v rest hu hv ih =>
    have hrest := ih fun w hw => hs w (List.mem_cons_of_mem u hw)
    rw [List.flatMap_cons, List.length_append, length_encodeChar_unit (hs u List.mem_cons_self) hu hv, List.length_cons]
    omega

/-! ## Units in bytes -/

theorem encodeChar_lt (c : Char) : ∀ u ∈ encodeChar c, u < 0x10000 := by
  have hvalid := toNat_isValid c
  intro u hu
  simp only [encodeChar] at hu
  split_ifs at hu <;> simp only [List.mem_cons, List.not_mem_nil, or_false] at hu <;> omega

theorem encode_lt (cs : List Char) : ∀ u ∈ encode cs, u < 0x10000 := fun u hu =>
  let ⟨c, _, hc⟩ := List.mem_flatMap.1 hu
  encodeChar_lt c u hc

theorem ofBytes_lt (bs : Bytes) : ∀ u ∈ ofBytes bs, u < 0x10000 := by
  fun_induction ofBytes bs with
  | case1 a b rest ih =>
    intro u hu
    have ha := a.toNat_lt
    have hb := b.toNat_lt
    rcases List.mem_cons.1 hu with rfl | hu
    · omega
    · exact ih u hu
  | case2 => simp

theorem length_ofBytes (bs : Bytes) : (ofBytes bs).length = bs.length / 2 := by
  fun_induction ofBytes bs with
  | case1 a b rest ih =>
    simp only [List.length_cons, ih]
    omega
  | case2 bs hshort =>
    match bs with
    | [] => rfl
    | [_] => simp
    | a :: b :: rest => exact absurd rfl (hshort a b rest)

theorem length_toBytes (us : List Nat) : (toBytes us).length = 2 * us.length := by
  simp [toBytes, List.length_flatMap, Bytes.length_ofNat, Nat.mul_comm]

theorem ofBytes_replicate (n : Nat) : ofBytes (List.replicate n 0) = List.replicate (n / 2) 0 := by
  induction n using Nat.twoStepInduction with
  | zero => rfl
  | one => rfl
  | more n ih _ =>
    rw [Nat.add_div_right n Nat.two_pos, List.replicate_succ, List.replicate_succ, List.replicate_succ, ofBytes, ih]
    rfl

/-- a unit comes back from its two bytes -/
theorem ofBytes_cons (hu : u < 0x10000) (bs : Bytes) :
    ofBytes (UInt8.ofNat u :: UInt8.ofNat (u / 256) :: bs) = u :: ofBytes bs := by
  have hnumber : (UInt8.ofNat u).toNat + 256 * (UInt8.ofNat (u / 256)).toNat = u := by
    rw [UInt8.toNat_ofNat', UInt8.toNat_ofNat']
    omega
  rw [ofBytes, hnumber]

/-- **A block of bytes that is cut or filled up holds the units that fit into it**, and zeros behind them. -/
theorem ofBytes_resize (us : List Nat) (hus : ∀ u ∈ us, u < 0x10000) (n : Nat) :
    ofBytes (Bytes.resize n (toBytes us)) = us.take (n / 2) ++ List.replicate (n / 2 - us.length) 0 := by
  induction us generalizing n with
  | nil => simpa [toBytes, Bytes.resize] using ofBytes_replicate n
  | cons u us ih =>
    have hbytes : toBytes (u :: us) = UInt8.ofNat u :: UInt8.ofNat (u / 256) :: toBytes us := rfl
    -- no unit is read from less than two bytes
    rcases n with _ | _ | n
    · simp [Bytes.resize, ofBytes]
    · simp [Bytes.resize, hbytes, ofBytes]
    · have hrest := ih (fun v hv => hus v (List.mem_cons_of_mem u hv)) n
      have hresize : Bytes.resize (n + 2) (toBytes (u :: us)) =
          UInt8.ofNat u :: UInt8.ofNat (u / 256) :: Bytes.resize n (toBytes us) := by
        simp [Bytes.resize, hbytes]
      rw [hresize, ofBytes_cons (hus u List.mem_cons_self), hrest, Nat.add_div_right n Nat.two_pos, List.take_succ_cons,
        List.length_cons, Nat.succ_sub_succ, List.cons_append]

end ByteAtlas.Text.Utf16
