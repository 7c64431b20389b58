/-
What is shown of a whole number can be read back as it stands: the bytes of a kind that is shown as raw bytes, as an integer
or as an address come back from the text of their value (`Kind.readValue_showValue`).

There are four forms of text: pairs of digits in memory order, digits of base sixteen after a mark, decimal digits, and
these with a sign. Each form is read back by the way that its kinds are read; what the ways have in common is that the text
starts and ends with no blank, and that a number which the bytes of a kind make up fits the kind.
-/
import Mathlib.Tactic
import ByteAtlas.Proofs.Text.Digits
import ByteAtlas.Value.Read
import ByteAtlas.Value.Show

namespace ByteAtlas

namespace Kind

def isSigned : Kind → Bool
  | int8 | int16 | int32 | int64 => true
  | _ => false

def isUnsigned : Kind → Bool
  | uint8 | uint16 | uint32 | uint64 => true
  | _ => false

/-- kinds whose bytes make up one whole number -/
def isWhole (k : Kind) : Bool := k.isRaw || k.isSigned || k.isUnsigned || k.isPointer

theorem width_of_isWhole {k : Kind} (hk : k.isWhole) : 0 < k.width ∧ k.width ≤ 8 := by
  cases k <;> simp [isWhole, isRaw, isSigned, isUnsigned, isPointer] at hk <;> decide

end Kind

namespace Bytes

theorem toNat_lt (bs : Bytes) : toNat bs < capacity bs.length := by
  induction bs with
  | nil => exact Nat.one_pos
  | cons b rest ih =>
    have hb := b.toNat_lt
    rw [toNat, List.length_cons, capacity_succ]
    omega

theorem resize_of_length {n : Nat} {bs : Bytes} (h : bs.length = n) : resize n bs = bs := by
  simp [resize, ← h]

theorem capacity_eq (n : Nat) : capacity n = 16 ^ (2 * n) := by
  rw [pow_mul]
  rfl

/-- no number of eight bytes is larger than a word -/
theorem capacity_le {n : Nat} (h : n ≤ 8) : capacity n ≤ UInt64.size := Nat.pow_le_pow_right (by decide) h

end Bytes

namespace Value

open Text

variable {k : Kind} {bs : Bytes} {t : List Char} {v n : Nat}

/-! ## Ways of reading -/

section Read

variable {text : List Char} (hne : trim text ≠ []) (size : Nat)

include hne

theorem readChars_raw (hk : k.isRaw) : readChars k text size =
    if (afterHexMark (trim text)).isSome then (readUnsigned k (trim text)).map (Bytes.ofNat k.width)
    else readHex k.width (trim text) := by
  unfold readChars
  cases k <;> simp_all [Kind.isRaw]

theorem readChars_signed (hk : k.isSigned) :
    readChars k text size = (readSigned k (trim text)).map (Bytes.ofNat k.width) := by
  unfold readChars
  cases k <;> simp_all [Kind.isSigned]

theorem readChars_unsigned (hk : k.isUnsigned) :
    readChars k text size = (readUnsigned k (trim text)).map (Bytes.ofNat k.width) := by
  unfold readChars
  cases k <;> simp_all [Kind.isUnsigned]

theorem readChars_pointer (hk : k.isPointer) :
    readChars k text size = (readPointer k (trim text)).map (Bytes.ofNat k.width) := by
  unfold readChars
  cases k <;> simp_all [Kind.isPointer]

end Read

theorem fitWidth_of_lt (hv : v < Bytes.capacity k.width) : fitWidth k t v = .ok v := if_pos hv

theorem afterHexMark_eq_none (hlow : 'x' ∉ t) (hup : 'X' ∉ t) : afterHexMark t = none := by
  unfold afterHexMark
  split <;> simp_all

/-! ## Bytes in memory order -/

theorem hexText_cons_cons (a b : UInt8) (rest : Bytes) :
    hexText (a :: b :: rest) = upperHexFixed 2 a.toNat ++ ' ' :: hexText (b :: rest) := by
  simp [hexText, List.intercalate_cons_cons]

theorem hexText_singleton (b : UInt8) : hexText [b] = upperHexFixed 2 b.toNat := by simp [hexText]

theorem filter_upperHexFixed (n v : Nat) :
    (upperHexFixed n v).filter (fun c => !isBlank c) = upperHexFixed n v := by
  refine List.filter_eq_self.2 fun c hc => ?_
  obtain ⟨d, hd, rfl⟩ := exists_upperDigit hc
  simp [(upperDigit_spec d hd).2.1]

/-- without the blanks there are two digits for each byte -/
theorem filter_hexText (bs : Bytes) :
    (hexText bs).filter (fun c => !isBlank c) = bs.flatMap fun b => upperHexFixed 2 b.toNat := by
  induction bs with
  | nil => rfl
  | cons a rest ih =>
    cases rest with
    | nil => simp [hexText_singleton, filter_upperHexFixed]
    | cons b rest =>
      have hblank : isBlank ' ' = true := by decide
      simp [hexText_cons_cons, filter_upperHexFixed, hblank, ih]

theorem readPairs_flatMap (bs : Bytes) : readPairs (bs.flatMap fun b => upperHexFixed 2 b.toNat) = some bs := by
  induction bs with
  | nil => rfl
  | cons b rest ih =>
    have hb := b.toNat_lt
    have hpair : Text.readUnsigned 16 256 [upperDigit (b.toNat / 16 % 16), upperDigit (b.toNat % 16)] = some b.toNat :=
      readUnsigned_upperHexFixed (n := 2) (by decide) hb hb
    rw [List.flatMap_cons]
    simp only [upperHexFixed, List.nil_append, List.cons_append] at ih ⊢
    simp only [readPairs, hpair, ih, UInt8.ofNat_toNat]

theorem readHex_hexText (bs : Bytes) : readHex bs.length (hexText bs) = .ok bs := by
  have hlen : (bs.flatMap fun b => upperHexFixed 2 b.toNat).length = 2 * bs.length := by
    simp [List.length_flatMap, length_upperHexFixed, Nat.mul_comm]
  simp only [readHex, filter_hexText, hlen, if_true, readPairs_flatMap]

/-- the text of one byte or more starts and ends with a digit, and has digits and blanks between them -/
theorem hexText_cons (a : UInt8) (rest : Bytes) :
    (∀ c ∈ (hexText (a :: rest)).head?, ∃ d < 16, upperDigit d = c) ∧
    (∀ c ∈ (hexText (a :: rest)).getLast?, ∃ d < 16, upperDigit d = c) ∧
    (∀ c ∈ hexText (a :: rest), c = ' ' ∨ ∃ d < 16, upperDigit d = c) ∧ hexText (a :: rest) ≠ [] := by
  induction rest generalizing a with
  | nil =>
    rw [hexText_singleton]
    exact ⟨fun c hc => exists_upperDigit (List.mem_of_mem_head? hc), fun c hc => exists_upperDigit (List.mem_of_mem_getLast? hc),
      fun c hc => .inr (exists_upperDigit hc), by simp [upperHexFixed]⟩
  | cons b rest ih =>
    obtain ⟨-, hlast, hmem, hne⟩ := ih b
    rw [hexText_cons_cons]
    refine ⟨fun c hc => ?_, fun c hc => ?_, fun c hc => ?_, by simp [upperHexFixed]⟩
    · exact exists_upperDigit (n := 2) (v := a.toNat) (List.mem_of_mem_head? hc)
    · refine hlast c ?_
      rwa [List.getLast?_append, List.getLast?_cons_of_ne_nil hne, List.getLast?_eq_some_getLast hne, Option.some_or,
        ← List.getLast?_eq_some_getLast hne] at hc
    · rcases List.mem_append.1 hc with hc | hc
      · exact .inr (exists_upperDigit hc)
      · rcases List.mem_cons.1 hc with rfl | hc
        · exact .inl rfl
        · exact hmem c hc

theorem readChars_hexText (hk : k.isRaw) (hb : bs.length = k.width) (size : Nat) :
    readChars k (hexText bs) size = .ok bs := by
  have hwidth := Kind.width_of_isWhole (k := k) (by simp [Kind.isWhole, hk])
  cases bs with
  | nil => simp at hb; omega
  | cons a rest =>
    obtain ⟨hhead, hlast, hmem, hne⟩ := hexText_cons a rest
    have hdigit : ∀ c, (∃ d < 16, upperDigit d = c) → isBlank c = false ∧ c ≠ 'x' ∧ c ≠ 'X' := by
      rintro c ⟨d, hd, rfl⟩
      have hspec := upperDigit_spec d hd
      exact ⟨hspec.2.1, hspec.2.2.2⟩
    have htrim := trim_eq_self (fun c hc => (hdigit c (hhead c hc)).1) fun c hc => (hdigit c (hlast c hc)).1
    have hmark : ∀ c ∈ hexText (a :: rest), c ≠ 'x' ∧ c ≠ 'X' := fun c hc =>
      (hmem c hc).elim (fun e => e ▸ by decide) fun h => (hdigit c h).2
    have hnone := afterHexMark_eq_none (fun hc => (hmark _ hc).1 rfl) fun hc => (hmark _ hc).2 rfl
    rw [readChars_raw (by rwa [htrim]) size hk, htrim, hnone, ← hb]
    exact readHex_hexText _

/-! ## Digits after a mark -/

/-- the digits of base sixteen of a number, after a mark -/
def marked (n v : Nat) : List Char := '0' :: 'x' :: upperHexFixed n v

theorem trim_marked (n v : Nat) : trim (marked n v) = marked n v := by
  refine trim_of_forall fun c hc => ?_
  rcases List.mem_cons.1 hc with rfl | hc
  · decide
  rcases List.mem_cons.1 hc with rfl | hc
  · decide
  · obtain ⟨d, hd, rfl⟩ := exists_upperDigit hc
    exact (upperDigit_spec d hd).2.1

section Marked

variable (hk : k.width ≤ 8) (hv : v < Bytes.capacity k.width) (hn : n ≠ 0) (hvn : v < 16 ^ n)

include hk hv hn hvn

theorem readUnsigned_marked : readUnsigned k (marked n v) = .ok v := by
  have hread := readUnsigned_upperHexFixed hn hvn (Nat.lt_of_lt_of_le hv (Bytes.capacity_le hk))
  simp only [marked, readUnsigned, afterHexMark, hread, fitWidth_of_lt hv]

theorem readPointer_marked : readPointer k (marked n v) = .ok v := by
  have hread := readUnsigned_upperHexFixed hn hvn (Nat.lt_of_lt_of_le hv (Bytes.capacity_le hk))
  simp only [marked, readPointer, afterHexMark, Option.getD_some, hread, fitWidth_of_lt hv]

end Marked

/-! ## Decimal digits -/

theorem trim_decimal (n : Nat) : trim (decimal n) = decimal n :=
  trim_of_forall fun _ hc => isBlank_of_isDigit (isDigit_of_mem_decimal hc)

theorem afterHexMark_decimal (n : Nat) : afterHexMark (decimal n) = none :=
  afterHexMark_eq_none (fun hc => ne_of_isDigit (isDigit_of_mem_decimal hc) rfl rfl)
    fun hc => ne_of_isDigit (isDigit_of_mem_decimal hc) rfl rfl

theorem readUnsigned_plain (hk : k.width ≤ 8) (hv : v < Bytes.capacity k.width) :
    readUnsigned k (decimal v) = .ok v := by
  have hread := readUnsigned_decimal (Nat.lt_of_lt_of_le hv (Bytes.capacity_le hk))
  simp only [readUnsigned, afterHexMark_decimal, hread, fitWidth_of_lt hv]

theorem decimalInt_spec (i : Int) :
    trim (decimalInt i) = decimalInt i ∧ afterHexMark (decimalInt i) = none ∧ decimalInt i ≠ [] := by
  cases i with
  | ofNat n => exact ⟨trim_decimal n, afterHexMark_decimal n, Nat.toDigits_ne_nil⟩
  | negSucc n =>
    refine ⟨trim_of_forall fun c hc => ?_, rfl, List.cons_ne_nil _ _⟩
    rcases List.mem_cons.1 hc with rfl | hc
    · decide
    · exact isBlank_of_isDigit (isDigit_of_mem_decimal hc)

/-- **A number in two's complement comes back from its decimal digits and its sign**, as the number that its bytes make up. -/
theorem readSigned_signed (hk : 0 < k.width ∧ k.width ≤ 8) (hb : bs.length = k.width) :
    readSigned k (decimalInt (signed k.width bs)) = .ok bs.toNat := by
  have hlt : bs.toNat < Bytes.capacity k.width := hb ▸ bs.toNat_lt
  have hle : Bytes.capacity k.width ≤ 2 * 2 ^ 63 := Bytes.capacity_le hk.2
  -- half of the numbers are below zero
  obtain ⟨half, hhalf⟩ : ∃ half, Bytes.capacity k.width = 2 * half := by
    obtain ⟨w, hw⟩ := Nat.exists_eq_succ_of_ne_zero (Nat.ne_of_gt hk.1)
    exact ⟨128 * Bytes.capacity w, by rw [hw, Bytes.capacity_succ]; ring⟩
  generalize hi : signed k.width bs = i
  have hcases : i = bs.toNat ∧ bs.toNat < half ∨ i = bs.toNat - (2 * half : Nat) ∧ half ≤ bs.toNat := by
    rw [signed, unsigned, Bytes.resize_of_length hb, hhalf] at hi
    split_ifs at hi <;> omega
  have hrange : -(half : Int) ≤ i ∧ i < half := by omega
  have hmod : i % (2 * half : Nat) = bs.toNat := by
    rcases hcases with ⟨rfl, -⟩ | ⟨rfl, -⟩
    · exact Int.emod_eq_of_lt (by omega) (by omega)
    · rw [Int.sub_emod_right]
      exact Int.emod_eq_of_lt (by omega) (by omega)
  have hread : Text.readSigned 64 (decimalInt i) = some i :=
    readSigned_decimalInt (by norm_num; omega) (by norm_num; omega)
  have htwo : ((2 * half : Nat) : Int) / 2 = half := by omega
  simp only [readSigned, (decimalInt_spec i).2.1, hread, hhalf, htwo, hrange, hmod, Option.isSome_none, Bool.false_eq_true,
    if_false, and_self, if_true, Int.toNat_natCast]

/-! ## Shown and read back -/

theorem showChars_signed (hk : k.isSigned) (bs : Bytes) : showChars k bs = decimalInt (signed k.width bs) := by
  cases k <;> simp_all [Kind.isSigned, showChars]

theorem showChars_unsigned (hk : k.isUnsigned) (bs : Bytes) :
    showChars k bs = if k = .uint8 then marked 2 (unsigned k.width bs) else decimal (unsigned k.width bs) := by
  cases k <;> simp_all [Kind.isUnsigned, showChars]
  rfl

theorem showChars_pointer (hk : k.isPointer) (bs : Bytes) :
    showChars k bs = marked (2 * k.width) (unsigned k.width bs) := by
  cases k <;> simp_all [Kind.isPointer, showChars, marked]

end Value

open Text Value in
/-- **A whole number that is shown can be read back as it stands.** The text of a value of a raw, signed, unsigned or pointer
kind stands for the bytes that it shows, whatever length is told for kinds of text. -/
theorem Kind.readValue_showValue {k : Kind} {bs : Bytes} (hk : k.isWhole) (hb : bs.length = k.width) (size : Nat) :
    k.readValue (k.showValue bs) size = .ok bs := by
  have hwidth := width_of_isWhole hk
  have hlt : bs.toNat < Bytes.capacity k.width := hb ▸ bs.toNat_lt
  have hunsigned : unsigned k.width bs = bs.toNat := by rw [unsigned, Bytes.resize_of_length hb]
  have hback : Bytes.ofNat k.width bs.toNat = bs := hb ▸ Bytes.ofNat_toNat bs
  have hmarked : ∀ n v, trim (marked n v) ≠ [] := fun n v => by rw [trim_marked]; exact List.cons_ne_nil _ _
  have hdecimal : ∀ n, trim (decimal n) ≠ [] := fun n => by rw [trim_decimal]; exact Nat.toDigits_ne_nil
  rw [readValue, showValue, String.toList_ofList]
  simp only [isWhole, Bool.or_eq_true] at hk
  rcases hk with ((hraw | hsigned) | hunsign) | hpointer
  · have hshow : showChars k bs = hexText bs := by
      cases k <;> simp_all [isRaw, showChars, Bytes.resize_of_length]
    rw [hshow, readChars_hexText hraw hb]
  · obtain ⟨htrim, -, hne⟩ := decimalInt_spec (signed k.width bs)
    rw [showChars_signed hsigned, readChars_signed (by rwa [htrim]) size hsigned, htrim, readSigned_signed hwidth hb]
    exact congrArg _ hback
  · rw [showChars_unsigned hunsign, hunsigned]
    split_ifs with hsmall
    · have hbyte : bs.toNat < 16 ^ 2 := by
        rw [hsmall] at hlt
        exact hlt
      rw [readChars_unsigned (hmarked _ _) size hunsign, trim_marked, readUnsigned_marked hwidth.2 hlt (by decide) hbyte]
      exact congrArg _ hback
    · rw [readChars_unsigned (hdecimal _) size hunsign, trim_decimal, readUnsigned_plain hwidth.2 hlt]
      exact congrArg _ hback
  · have hall : bs.toNat < 16 ^ (2 * k.width) := Bytes.capacity_eq k.width ▸ hlt
    rw [showChars_pointer hpointer, hunsigned, readChars_pointer (hmarked _ _) size hpointer, trim_marked,
      readPointer_marked hwidth.2 hlt (by omega) hall]
    exact congrArg _ hback

/-- the least integer of eight bytes: no number of eight bytes is its opposite -/
theorem Kind.readValue_showValue_least : let bs : Bytes := [0, 0, 0, 0, 0, 0, 0, 0x80]
    int64.isWhole ∧ bs.length = int64.width ∧ int64.showValue bs = "-9223372036854775808" ∧
    int64.readValue (int64.showValue bs) 3 = .ok bs :=
  ⟨by decide, rfl, by decide, readValue_showValue (by decide) rfl 3⟩

end ByteAtlas
