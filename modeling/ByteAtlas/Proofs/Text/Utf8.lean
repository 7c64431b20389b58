/-
What is written in UTF-8 is read back.

A character takes one to four bytes, and its first byte says how many. `step_encodeChar` reads one character off the front
of a longer block; the ranges that a first byte sets for the next one keep out overlong forms, surrogates and numbers past
the last character, and no character is written as one of these.

- `decode_encode`: the characters of a text come back from its bytes.
- `encode_injective`: two texts with the same bytes are the same.
- `coding`: a block that is cut or broken is read as far as it can be, and what is read of it are characters.
-/
import Mathlib.Tactic
import ByteAtlas.Proofs.Text.Coding
import ByteAtlas.Text.Utf8

namespace ByteAtlas.Text.Utf8

/-- the first byte of two for one character -/
theorem lead_two {n : Nat} (h0 : 0x80 ≤ n) (h1 : n < 0x800) :
    lead (0xc0 + n / 64) = some ⟨n / 64, 1, 0x80, 0xbf⟩ := by
  have hsmall : ¬ 0xc0 + n / 64 < 0x80 := by omega
  have hrange : 0xc2 ≤ 0xc0 + n / 64 ∧ 0xc0 + n / 64 ≤ 0xdf := by omega
  have hbits : (0xc0 + n / 64) % 32 = n / 64 := by omega
  rw [lead, if_neg hsmall, if_pos hrange, hbits]

/-- the first byte of three for one character; the second byte lies in the range that the first one sets -/
theorem lead_three {n : Nat} (h0 : 0x800 ≤ n) (h1 : n < 0xd800 ∨ 0xdfff < n) (h2 : n < 0x10000) :
    ∃ low high, lead (0xe0 + n / 4096) = some ⟨n / 4096, 2, low, high⟩ ∧ low ≤ 0x80 + n / 64 % 64 ∧
      0x80 + n / 64 % 64 ≤ high := by
  have hsmall : ¬ 0xe0 + n / 4096 < 0x80 := by omega
  have htwo : ¬ (0xc2 ≤ 0xe0 + n / 4096 ∧ 0xe0 + n / 4096 ≤ 0xdf) := by omega
  rw [lead, if_neg hsmall, if_neg htwo]
  by_cases hfirst : n / 4096 = 0
  · rw [hfirst]
    exact ⟨0xa0, 0xbf, rfl, by omega, by omega⟩
  by_cases hsurrogate : n / 4096 = 13
  · rw [hsurrogate]
    exact ⟨0x80, 0x9f, rfl, by omega, by omega⟩
  · have hne : ¬ 0xe0 + n / 4096 = 0xe0 := by omega
    have hne' : ¬ 0xe0 + n / 4096 = 0xed := by omega
    have hrange : 0xe1 ≤ 0xe0 + n / 4096 ∧ 0xe0 + n / 4096 ≤ 0xef := by omega
    have hbits : (0xe0 + n / 4096) % 16 = n / 4096 := by omega
    rw [if_neg hne, if_neg hne', if_pos hrange, hbits]
    exact ⟨0x80, 0xbf, rfl, by omega, by omega⟩

/-- the first byte of four for one character; the second byte lies in the range that the first one sets -/
theorem lead_four {n : Nat} (h0 : 0x10000 ≤ n) (h1 : n < 0x110000) :
    ∃ low high, lead (0xf0 + n / 262144) = some ⟨n / 262144, 3, low, high⟩ ∧ low ≤ 0x80 + n / 4096 % 64 ∧
      0x80 + n / 4096 % 64 ≤ high := by
  have hcases : n / 262144 = 0 ∨ n / 262144 = 1 ∨ n / 262144 = 2 ∨ n / 262144 = 3 ∨ n / 262144 = 4 := by omega
  rcases hcases with h | h | h | h | h
  · rw [h]
    exact ⟨0x90, 0xbf, rfl, by omega, by omega⟩
  · rw [h]
    exact ⟨0x80, 0xbf, rfl, by omega, by omega⟩
  · rw [h]
    exact ⟨0x80, 0xbf, rfl, by omega, by omega⟩
  · rw [h]
    exact ⟨0x80, 0xbf, rfl, by omega, by omega⟩
  · rw [h]
    exact ⟨0x80, 0x8f, rfl, by omega, by omega⟩

/-- a byte that belongs to the character before it adds six bits -/
theorem follow_cons {more low high acc v : Nat} {s : Bytes} (hlow : low ≤ 0x80 + v) (hhigh : 0x80 + v ≤ high)
    (hv : v < 64) :
    follow (more + 1) low high acc (UInt8.ofNat (0x80 + v) :: s) =
      ((follow more 0x80 0xbf (acc * 64 + v) s).1, (follow more 0x80 0xbf (acc * 64 + v) s).2 + 1) := by
  have hbyte : (UInt8.ofNat (0x80 + v)).toNat = 0x80 + v := by
    rw [UInt8.toNat_ofNat']
    omega
  have hbits : (0x80 + v) % 64 = v := by omega
  rw [follow, hbyte, if_pos ⟨hlow, hhigh⟩, hbits]

/-- the bytes of a character: the first one, and how many come after it -/
theorem step_encodeChar (c : Char) (s : Bytes) :
    ∃ b more, encodeChar c = b :: more ∧ step b (more ++ s) = (some c, more.length) := by
  have hvalid := toNat_isValid c
  have hc : Char.ofNat c.toNat = c := Char.ofNat_toNat c
  have hbyte : ∀ v < 256, (UInt8.ofNat v).toNat = v := fun v hv => by
    rw [UInt8.toNat_ofNat']
    omega
  generalize hn : c.toNat = n at hvalid hc
  by_cases h1 : n < 0x80
  · refine ⟨UInt8.ofNat n, [], by simp [encodeChar, hn, h1], ?_⟩
    have hlead : lead n = some ⟨n, 0, 0, 0⟩ := by rw [lead, if_pos h1]
    rw [step, hbyte n (by omega), hlead]
    simp [follow, hc]
  by_cases h2 : n < 0x800
  · refine ⟨UInt8.ofNat (0xc0 + n / 64), [UInt8.ofNat (0x80 + n % 64)], by simp [encodeChar, hn, h1, h2], ?_⟩
    have hnumber : n / 64 * 64 + n % 64 = n := by omega
    rw [step, hbyte _ (by omega), lead_two (by omega) h2]
    simp only [List.cons_append, List.nil_append]
    rw [follow_cons (by omega) (by omega) (by omega), hnumber]
    simp [follow, hc]
  by_cases h3 : n < 0x10000
  · obtain ⟨low, high, hlead, hlow, hhigh⟩ := lead_three (n := n) (by omega) (by omega) h3
    refine ⟨UInt8.ofNat (0xe0 + n / 4096), [UInt8.ofNat (0x80 + n / 64 % 64), UInt8.ofNat (0x80 + n % 64)],
      by simp [encodeChar, hn, h1, h2, h3], ?_⟩
    have hnumber : (n / 4096 * 64 + n / 64 % 64) * 64 + n % 64 = n := by omega
    rw [step, hbyte _ (by omega), hlead]
    simp only [List.cons_append, List.nil_append]
    rw [follow_cons hlow hhigh (by omega), follow_cons (by omega) (by omega) (by omega), hnumber]
    simp [follow, hc]
  · obtain ⟨low, high, hlead, hlow, hhigh⟩ := lead_four (n := n) (by omega) (by omega)
    refine ⟨UInt8.ofNat (0xf0 + n / 262144), [UInt8.ofNat (0x80 + n / 4096 % 64), UInt8.ofNat (0x80 + n / 64 % 64),
      UInt8.ofNat (0x80 + n % 64)], by simp [encodeChar, hn, h1, h2, h3], ?_⟩
    have hnumber : ((n / 262144 * 64 + n / 4096 % 64) * 64 + n / 64 % 64) * 64 + n % 64 = n := by omega
    rw [step, hbyte _ (by omega), hlead]
    simp only [List.cons_append, List.nil_append]
    rw [follow_cons hlow hhigh (by omega), follow_cons (by omega) (by omega) (by omega),
      follow_cons (by omega) (by omega) (by omega), hnumber]
    simp [follow, hc]

/-- bytes that belong to a character that has been read are passed over -/
theorem pieces_skip (more s : Bytes) : pieces more.length (more ++ s) = pieces 0 s := by
  induction more with
  | nil => rfl
  | cons b more ih => exact ih

theorem pieces_encodeChar (c : Char) (s : Bytes) : pieces 0 (encodeChar c ++ s) = some c :: pieces 0 s := by
  obtain ⟨b, more, hbytes, hstep⟩ := step_encodeChar c s
  rw [hbytes, List.cons_append, pieces, hstep, pieces_skip]

theorem pieces_encode (cs : List Char) : pieces 0 (encode cs) = cs.map some := by
  induction cs with
  | nil => rfl
  | cons c rest ih => rw [encode, List.flatMap_cons, pieces_encodeChar, ← encode, ih, List.map_cons]

/-- **The characters of a text come back from its bytes.** -/
theorem decode_encode (cs : List Char) : decode (encode cs) = some cs := by
  rw [decode, pieces_encode]
  induction cs with
  | nil => rfl
  | cons c rest ih => simp [ih]

theorem encode_injective : Function.Injective encode := by
  intro cs ds h
  have hdecoded : decode (encode cs) = decode (encode ds) := by rw [h]
  rw [decode_encode, decode_encode] at hdecoded
  exact Option.some.inj hdecoded

/-! ## Cut blocks -/

/-- a number is made up of a byte and of what comes after it -/
theorem exists_follow {more low high acc v used : Nat} {s : Bytes}
    (h : follow (more + 1) low high acc s = (some v, used)) : ∃ b rest used', s = b :: rest ∧
      (low ≤ b.toNat ∧ b.toNat ≤ high) ∧ used = used' + 1 ∧
      follow more 0x80 0xbf (acc * 64 + b.toNat % 64) rest = (some v, used') := by
  cases s with
  | nil => cases h
  | cons b rest =>
    rw [follow] at h
    by_cases hrange : low ≤ b.toNat ∧ b.toNat ≤ high
    · rw [if_pos hrange] at h
      obtain ⟨hnumber, hused⟩ := Prod.mk.inj h
      exact ⟨b, rest, _, rfl, hrange, hused.symm, Prod.ext hnumber rfl⟩
    · rw [if_neg hrange] at h
      cases h

/-- bytes that make up a number are a broken piece if the last of them are missing -/
theorem follow_take {more low high acc v used k : Nat} {s : Bytes} (h : follow more low high acc s = (some v, used))
    (hk : k < used) : follow more low high acc (s.take k) = (none, k) := by
  induction more generalizing low high acc used k s with
  | zero =>
    cases h
    exact absurd hk (Nat.not_lt_zero k)
  | succ more ih =>
    obtain ⟨b, rest, used, rfl, hrange, rfl, hrest⟩ := exists_follow h
    cases k with
    | zero => rfl
    | succ k => rw [List.take_succ_cons, follow, if_pos hrange, ih hrest (Nat.lt_of_succ_lt_succ hk)]

theorem step_take {b : UInt8} {more : Bytes} {c : Char} {k : Nat} (h : step b more = (some c, more.length))
    (hk : k < more.length) : step b (more.take k) = (none, k) := by
  unfold step at h ⊢
  cases hlead : lead b.toNat with
  | none => simp [hlead] at h
  | some l =>
    simp only [hlead] at h ⊢
    obtain ⟨hchar, hused⟩ := Prod.mk.inj h
    obtain ⟨v, hv, -⟩ := Option.map_eq_some_iff.1 hchar
    rw [follow_take (Prod.ext hv hused) hk]
    rfl

/-- **Of a character that is cut off inside, a single U+FFFD is read.** -/
theorem decodeLossy_take_encodeChar (c : Char) (k : Nat) (h0 : 0 < k) (hk : k < (encodeChar c).length) :
    decodeLossy ((encodeChar c).take k) = ['\ufffd'] := by
  obtain ⟨b, more, hbytes, hstep⟩ := step_encodeChar c []
  obtain ⟨k, rfl⟩ := Nat.exists_eq_succ_of_ne_zero h0.ne'
  rw [List.append_nil] at hstep
  rw [hbytes, List.length_cons, Nat.succ_lt_succ_iff] at hk
  have hlen : (more.take k).length = k := List.length_take_of_le hk.le
  have hrest : pieces k (more.take k) = [] := by
    have hskip := pieces_skip (more.take k) []
    rwa [List.append_nil, hlen] at hskip
  rw [hbytes, List.take_succ_cons, decodeLossy, pieces, step_take hstep hk, hrest]
  rfl

/-! ## Zero bytes -/

/-- no byte of a character other than NUL is zero -/
theorem zero_not_mem_encodeChar (c : Char) (hc : c ≠ '\x00') : 0 ∉ encodeChar c := by
  have hvalid := toNat_isValid c
  have hpos : c.toNat ≠ 0 := fun e => hc (Char.toNat_inj.1 e)
  have hbyte : ∀ v, v % 256 ≠ 0 → (0 : UInt8) ≠ UInt8.ofNat v := fun v hv e => by
    have hnumber := congrArg UInt8.toNat e
    rw [UInt8.toNat_ofNat'] at hnumber
    exact hv hnumber.symm
  simp only [encodeChar]
  split_ifs with h1 h2 h3 <;> simp only [List.mem_cons, List.not_mem_nil, or_false, not_or]
  · exact hbyte _ (by omega)
  · exact ⟨hbyte _ (by omega), hbyte _ (by omega)⟩
  · exact ⟨hbyte _ (by omega), hbyte _ (by omega), hbyte _ (by omega)⟩
  · exact ⟨hbyte _ (by omega), hbyte _ (by omega), hbyte _ (by omega), hbyte _ (by omega)⟩

/-- the bits of a number lie in the range that its first two bytes set -/
theorem follow_bounds {more low high acc v used : Nat} {s : Bytes} (hlow : 0x80 ≤ low) (hhigh : high ≤ 0xbf)
    (h : follow (more + 1) low high acc s = (some v, used)) :
    (acc * 64 + (low - 0x80)) * 64 ^ more ≤ v ∧ v < (acc * 64 + (high - 0x80) + 1) * 64 ^ more := by
  induction more generalizing low high acc s used with
  | zero =>
    obtain ⟨b, rest, used, rfl, hrange, rfl, hrest⟩ := exists_follow h
    have hv : acc * 64 + b.toNat % 64 = v := Option.some.inj (Prod.mk.inj hrest).1
    omega
  | succ more ih =>
    obtain ⟨b, rest, used, rfl, hrange, rfl, hrest⟩ := exists_follow h
    obtain ⟨hleast, hgreatest⟩ := ih (le_refl 0x80) (le_refl 0xbf) hrest
    have hbits : b.toNat % 64 = b.toNat - 0x80 := by omega
    rw [hbits] at hleast hgreatest
    rw [pow_succ', ← Nat.mul_assoc, ← Nat.mul_assoc]
    exact ⟨le_trans (Nat.mul_le_mul_right _ (by omega)) hleast,
      lt_of_lt_of_le hgreatest (Nat.mul_le_mul_right _ (by omega))⟩

/-- what a first byte promises is a character other than NUL -/
theorem lead_range {b : Nat} {l : Lead} (hb : b ≠ 0) (h : lead b = some l) : l.more = 0 ∧ 0 < l.bits ∧ l.bits < 0x80 ∨
    ∃ more, l.more = more + 1 ∧ 0x80 ≤ l.low ∧ l.high ≤ 0xbf ∧ 0 < (l.bits * 64 + (l.low - 0x80)) * 64 ^ more ∧
      ((l.bits * 64 + (l.high - 0x80) + 1) * 64 ^ more ≤ 0xd800 ∨
        0xdfff < (l.bits * 64 + (l.low - 0x80)) * 64 ^ more ∧
        (l.bits * 64 + (l.high - 0x80) + 1) * 64 ^ more ≤ 0x110000) := by
  unfold lead at h
  split_ifs at h <;> cases h <;> dsimp only
  · exact .inl ⟨rfl, by omega, by omega⟩
  · exact .inr ⟨0, rfl, by omega⟩
  · exact .inr ⟨1, rfl, by omega⟩
  · exact .inr ⟨1, rfl, by omega⟩
  · exact .inr ⟨1, rfl, by omega⟩
  · exact .inr ⟨2, rfl, by omega⟩
  · exact .inr ⟨2, rfl, by omega⟩
  · exact .inr ⟨2, rfl, by omega⟩

theorem step_ne_nul {b : UInt8} (hb : b ≠ 0) (rest : Bytes) : (step b rest).1 ≠ some '\x00' := by
  intro h
  have hpos : b.toNat ≠ 0 := fun e => hb (UInt8.toNat_inj.1 e)
  unfold step at h
  cases hlead : lead b.toNat with
  | none => simp [hlead] at h
  | some l =>
    simp only [hlead] at h
    obtain ⟨v, hv, hchar⟩ := Option.map_eq_some_iff.1 h
    have hrange : 0 < v ∧ v.isValidChar := by
      rcases lead_range hpos hlead with ⟨hmore, hbits⟩ | ⟨more, hmore, hlow, hhigh, hbits⟩
      · rw [hmore] at hv
        have hown : l.bits = v := Option.some.inj hv
        omega
      · rw [hmore] at hv
        have hbounds := follow_bounds hlow hhigh (Prod.ext hv rfl)
        omega
    exact ofNat_ne_nul hrange.1 hrange.2 hchar

theorem nul_not_mem_pieces (skip : Nat) (s : Bytes) (h0 : 0 ∉ s) : some '\x00' ∉ pieces skip s := by
  induction s generalizing skip with
  | nil => exact List.not_mem_nil
  | cons b rest ih =>
    obtain ⟨hb, hrest⟩ := not_or.1 (mt List.mem_cons.2 h0)
    cases skip with
    | zero =>
      rw [pieces]
      exact List.not_mem_cons_of_ne_of_not_mem (step_ne_nul (Ne.symm hb) rest).symm (ih _ hrest)
    | succ skip => exact ih skip hrest

theorem nul_not_mem_decodeLossy (s : Bytes) (h0 : 0 ∉ s) : '\x00' ∉ decodeLossy s := by
  intro h
  obtain ⟨piece, hpiece, hchar⟩ := List.mem_map.1 h
  cases piece with
  | none => exact absurd hchar (by decide)
  | some c => exact nul_not_mem_pieces 0 s h0 (hchar ▸ hpiece)

def coding : Coding UInt8 where
  encodeChar := encodeChar
  decode := decodeLossy
  zero := 0
  decode_nil := rfl
  decode_cons c s := by rw [decodeLossy, pieces_encodeChar, List.map_cons]; rfl
  decode_cut := decodeLossy_take_encodeChar
  encodeChar_nul := rfl
  zero_not_mem := zero_not_mem_encodeChar

end ByteAtlas.Text.Utf8
