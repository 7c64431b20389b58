/-
Which texts are numerals, and what is told of those that are not or that are too large. A numeral is read as a word or as a
signed word first, and what it says is held against the kind only then. A text is told to be no number if the first of these
fails, whatever the reason, and every text with a minus sign in front is told to be out of range for integers from zero up.

- `numeral`, `Kind.judged`: the integer that a text writes, and the answer that it deserves.
- `Misjudged`: the texts that get another answer, with that answer.
- `Kind.readValue_integer_iff`: all others are judged as they deserve.
-/
import Mathlib.Tactic
import ByteAtlas.Proofs.Value.Numbers

namespace ByteAtlas

/-! ## Numerals -/

/-- the integers that so many bytes hold, in two's complement or from zero up -/
def Bytes.Holds (n : Nat) (signed : Bool) (v : Int) : Prop :=
  if signed then -((capacity n : Int) / 2) ≤ v ∧ v < (capacity n : Int) / 2 else 0 ≤ v ∧ v < capacity n

instance (n : Nat) (signed : Bool) (v : Int) : Decidable (Bytes.Holds n signed v) := by
  unfold Bytes.Holds
  infer_instance

/-- what bytes hold, more bytes hold as well -/
theorem Bytes.Holds.mono {n : Nat} {signed : Bool} {v : Int} (h : Bytes.Holds n signed v) (hn : n ≤ 8) :
    Bytes.Holds 8 signed v := by
  have hle : capacity n ≤ capacity 8 := capacity_le hn
  unfold Holds at h ⊢
  split_ifs at h ⊢ <;> omega

namespace Value

open Text

/-- the integer that decimal digits write after an optional sign -/
def decimalNumeral : List Char → Option Int
  | '-' :: ds => (ofDigits 10 ds).map fun n : Nat => -(n : Int)
  | '+' :: ds => (ofDigits 10 ds).map fun n : Nat => (n : Int)
  | ds => (ofDigits 10 ds).map fun n : Nat => (n : Int)

/-- the integer that a text writes: digits of base sixteen after a mark, or decimal digits after an optional sign -/
def numeral (t : List Char) : Option Int :=
  match afterHexMark t with
  | some ds => (ofDigits 16 ds).map fun n : Nat => (n : Int)
  | none => decimalNumeral t

end Value

open Text Value

namespace Kind

def isInteger (k : Kind) : Bool := k.isSigned || k.isUnsigned

/-- whether a text is held against the range of two's complement: a signed kind, and no mark in front of the bits -/
def inComplement (k : Kind) (t : List Char) : Bool := k.isSigned && (afterHexMark t).isNone

/-- the answer to a text of which an integer has been read, or nothing -/
def answer (k : Kind) (t : List Char) : Option Int → Except ValueError Bytes
  | none => .error (.badNumber (String.ofList t))
  | some v =>
    if Bytes.Holds k.width (k.inComplement t) v then .ok (Bytes.ofNat k.width (v % Bytes.capacity k.width).toNat)
    else .error (.outOfRange (String.ofList t) k)

/-- the answer that a text deserves as an integer of a kind -/
def judged (k : Kind) (t : List Char) : Except ValueError Bytes := k.answer t (numeral t)

end Kind

namespace Value

variable {k : Kind} {t ds : List Char} {v : Int} {n base : Nat}

/-- The texts that are not judged as they deserve as an integer of a kind, with the answer that they get. -/
inductive Misjudged (k : Kind) (t : List Char) : Except ValueError Bytes → Prop
  /-- a numeral that eight bytes do not hold is taken for no number -/
  | long {v : Int} : numeral t = some v → ¬ Bytes.Holds 8 (k.inComplement t) v → (0 ≤ v ∨ k.isSigned) →
      Misjudged k t (.error (.badNumber (String.ofList t)))
  /-- zero with a minus sign is taken for less than zero -/
  | minusZero : k.isUnsigned → t.head? = some '-' → numeral t = some 0 →
      Misjudged k t (.error (.outOfRange (String.ofList t) k))
  /-- and so is what is no number behind a minus sign -/
  | minus : k.isUnsigned → t.head? = some '-' → numeral t = none →
      Misjudged k t (.error (.outOfRange (String.ofList t) k))
  /-- a plus sign is let through behind a mark -/
  | plus {ds : List Char} {n : Nat} : afterHexMark t = some ('+' :: ds) → ofDigits 16 ds = some n → n < UInt64.size →
      Misjudged k t ((fitWidth k t n).map (Bytes.ofNat k.width))

/-! ## Signs -/

theorem ofDigits_plus (base : Nat) (ds : List Char) : ofDigits base ('+' :: ds) = none := rfl

theorem numeral_marked (h : afterHexMark t = some ds) : numeral t = (ofDigits 16 ds).map fun n : Nat => (n : Int) := by
  simp only [numeral, h]

theorem numeral_unmarked (h : afterHexMark t = none) : numeral t = decimalNumeral t := by
  simp only [numeral, h]

theorem decimalNumeral_plain (hminus : t.head? ≠ some '-') (hplus : t.head? ≠ some '+') :
    decimalNumeral t = (ofDigits 10 t).map fun n : Nat => (n : Int) := by
  unfold decimalNumeral
  split
  · simp at hminus
  · simp at hplus
  · rfl

theorem isSigned_eq_false (hk : k.isUnsigned) : k.isSigned = false := by
  cases k <;> simp_all [Kind.isSigned, Kind.isUnsigned]

theorem inComplement_unsigned (hk : k.isSigned = false) (t : List Char) : k.inComplement t = false := by
  simp [Kind.inComplement, hk]

theorem inComplement_marked (h : afterHexMark t = some ds) (k : Kind) : k.inComplement t = false := by
  simp [Kind.inComplement, h]

theorem inComplement_signed (hk : k.isSigned) (h : afterHexMark t = none) : k.inComplement t = true := by
  simp [Kind.inComplement, hk, h]

/-- a marked text starts with a zero -/
theorem head?_of_marked (h : afterHexMark t = some ds) : t.head? = some '0' := by
  unfold afterHexMark at h
  split at h
  · rfl
  · rfl
  · cases h

/-! ## Words -/

/-- numbers that are sorted out before or after they are taken for integers -/
theorem map_filter_eq {found : Option Nat} {f : Nat → Int} {p : Nat → Bool} {q : Int → Bool} (h : ∀ n, p n = q (f n)) :
    (found.filter p).map f = (found.map f).filter q := by
  cases found with
  | none => rfl
  | some n =>
    rw [Option.map_some, Option.filter_some, Option.filter_some, h]
    split_ifs <;> rfl

theorem holds_word_iff : Bytes.Holds 8 false (n : Int) ↔ n < UInt64.size := by
  have hcapacity : Bytes.capacity 8 = UInt64.size := rfl
  simp [Bytes.Holds, hcapacity]

theorem holds_signed_iff : Bytes.Holds 8 true v ↔ -(2 ^ 63) ≤ v ∧ v < 2 ^ 63 := by
  have hhalf : (Bytes.capacity 8 : Int) / 2 = 2 ^ 63 := by decide
  simp [Bytes.Holds, hhalf]

/-- **Digits are read if they write a word.** -/
theorem map_filter_ofDigits (base : Nat) (ds : List Char) :
    ((ofDigits base ds).filter (· < UInt64.size)).map (fun n : Nat => (n : Int)) =
      ((ofDigits base ds).map fun n : Nat => (n : Int)).filter fun v => Bytes.Holds 8 false v :=
  map_filter_eq fun _ => decide_eq_decide.2 holds_word_iff.symm

theorem readUnsigned_marked_eq (hmark : afterHexMark t = some ds) (hplus : ds.head? ≠ some '+') :
    (Text.readUnsigned 16 UInt64.size ds).map (fun n : Nat => (n : Int)) =
      (numeral t).filter fun v => Bytes.Holds 8 false v := by
  rw [readUnsigned_of_head hplus, map_filter_ofDigits, numeral_marked hmark]

theorem readUnsigned_unmarked_eq (hmark : afterHexMark t = none) (hminus : t.head? ≠ some '-') :
    (Text.readUnsigned 10 UInt64.size t).map (fun n : Nat => (n : Int)) =
      (numeral t).filter fun v => Bytes.Holds 8 false v := by
  rw [numeral_unmarked hmark]
  by_cases hplus : t.head? = some '+'
  · obtain ⟨ds, rfl⟩ := List.head?_eq_some_iff.1 hplus
    exact map_filter_ofDigits 10 ds
  · rw [readUnsigned_of_head hplus, map_filter_ofDigits, decimalNumeral_plain hminus hplus]

theorem readSigned_minus (ds : List Char) :
    Text.readSigned 64 ('-' :: ds) = ((ofDigits 10 ds).filter (· ≤ 2 ^ 63)).map fun n : Nat => -(n : Int) := by
  change Option.map _ (do let n ← (ofDigits 10 ds).filter (· ≤ 2 ^ 63); pure (n : Int)) = _
  cases (ofDigits 10 ds).filter (· ≤ 2 ^ 63) <;> rfl

theorem readSigned_of_head (hminus : t.head? ≠ some '-') :
    Text.readSigned 64 t = (Text.readUnsigned 10 (2 ^ 63) t).map fun n : Nat => (n : Int) := by
  unfold Text.readSigned
  split
  · simp at hminus
  · dsimp only
    cases Text.readUnsigned 10 (Nat.pow 2 (64 - 1)) t <;> rfl

/-- **Signed digits are read if they write a signed word.** -/
theorem readSigned_unmarked_eq (hmark : afterHexMark t = none) :
    Text.readSigned 64 t = (numeral t).filter fun v => Bytes.Holds 8 true v := by
  have hsmall : ∀ n : Nat, decide (n < 2 ^ 63) = decide (Bytes.Holds 8 true (n : Int)) := by
    intro n
    rw [decide_eq_decide, holds_signed_iff]
    omega
  have hbelow : ∀ n : Nat, decide (n ≤ 2 ^ 63) = decide (Bytes.Holds 8 true (-(n : Int))) := by
    intro n
    rw [decide_eq_decide, holds_signed_iff]
    omega
  rw [numeral_unmarked hmark]
  by_cases hminus : t.head? = some '-'
  · obtain ⟨ds, rfl⟩ := List.head?_eq_some_iff.1 hminus
    rw [readSigned_minus]
    exact map_filter_eq (p := fun n => n ≤ 2 ^ 63) (q := fun v => Bytes.Holds 8 true v) hbelow
  · rw [readSigned_of_head hminus]
    by_cases hplus : t.head? = some '+'
    · obtain ⟨ds, rfl⟩ := List.head?_eq_some_iff.1 hplus
      rw [readUnsigned_plus]
      exact map_filter_eq (p := fun n => n < 2 ^ 63) (q := fun v => Bytes.Holds 8 true v) hsmall
    · rw [readUnsigned_of_head hplus, decimalNumeral_plain hminus hplus]
      exact map_filter_eq (p := fun n => n < 2 ^ 63) (q := fun v => Bytes.Holds 8 true v) hsmall

/-! ## Integers of a kind -/

/-- the number that the bytes of an integer make up -/
def readNumber (k : Kind) (t : List Char) : Except ValueError Nat :=
  if k.isSigned then readSigned k t else readUnsigned k t

theorem readChars_integer {text : List Char} (hk : k.isInteger) (hne : trim text ≠ []) (size : Nat) :
    readChars k text size = (readNumber k (trim text)).map (Bytes.ofNat k.width) := by
  unfold readNumber
  split_ifs with hsigned
  · exact readChars_signed hne size hsigned
  · exact readChars_unsigned hne size (by simpa [Kind.isInteger, hsigned] using hk)

theorem map_fitWidth (hk : k.inComplement t = false) (n : Nat) :
    (fitWidth k t n).map (Bytes.ofNat k.width) = k.answer t (some n) := by
  unfold fitWidth Kind.answer Bytes.Holds
  simp only [hk, Bool.false_eq_true, if_false, Int.natCast_nonneg, true_and, Int.ofNat_lt]
  split_ifs with hfits
  · rw [← Int.natCast_mod, Int.toNat_natCast, Nat.mod_eq_of_lt hfits]
    rfl
  · rfl

/-- what is read of a marked text, whether it is an integer with a sign or without -/
theorem readNumber_marked (hmark : afterHexMark t = some ds) : (readNumber k t).map (Bytes.ofNat k.width) =
    k.answer t ((Text.readUnsigned 16 UInt64.size ds).map fun n : Nat => (n : Int)) := by
  have hunsigned : readNumber k t = readUnsigned k t := by simp [readNumber, readSigned, hmark]
  have hhead : t.head? ≠ some '-' := by simp [head?_of_marked hmark]
  simp only [hunsigned, readUnsigned, hmark, if_neg hhead]
  cases Text.readUnsigned 16 UInt64.size ds with
  | none => rfl
  | some n => exact map_fitWidth (inComplement_marked hmark k) n

theorem readNumber_signed (hk : k.isSigned) (hmark : afterHexMark t = none) :
    (readNumber k t).map (Bytes.ofNat k.width) = k.answer t (Text.readSigned 64 t) := by
  simp only [readNumber, hk, if_true, readSigned, hmark, Option.isSome_none, Bool.false_eq_true, if_false]
  cases Text.readSigned 64 t with
  | none => rfl
  | some v =>
    simp only [Kind.answer, Bytes.Holds, inComplement_signed hk hmark, if_true]
    split_ifs <;> rfl

theorem readNumber_unsigned (hk : k.isSigned = false) (hmark : afterHexMark t = none) (hminus : t.head? ≠ some '-') :
    (readNumber k t).map (Bytes.ofNat k.width) =
      k.answer t ((Text.readUnsigned 10 UInt64.size t).map fun n : Nat => (n : Int)) := by
  simp only [readNumber, hk, Bool.false_eq_true, if_false, readUnsigned, hmark, if_neg hminus]
  cases Text.readUnsigned 10 UInt64.size t with
  | none => rfl
  | some n => exact map_fitWidth (inComplement_unsigned hk t) n

/-- whatever has a minus sign in front is out of range for integers from zero up -/
theorem readNumber_minus (hk : k.isSigned = false) (hminus : t.head? = some '-') :
    readNumber k t = .error (.outOfRange (String.ofList t) k) := by
  obtain ⟨ds, rfl⟩ := List.head?_eq_some_iff.1 hminus
  simp only [readNumber, hk, Bool.false_eq_true, if_false]
  rfl

/-- **A text whose sign stands where it may is judged by what eight bytes hold of it.** -/
theorem readNumber_eq (hminus : k.isSigned = false → t.head? ≠ some '-')
    (hplus : ∀ ds, afterHexMark t = some ds → ds.head? ≠ some '+') : (readNumber k t).map (Bytes.ofNat k.width) =
      k.answer t ((numeral t).filter fun v => Bytes.Holds 8 (k.inComplement t) v) := by
  cases hmark : afterHexMark t with
  | some ds =>
    rw [readNumber_marked hmark, readUnsigned_marked_eq hmark (hplus ds hmark), inComplement_marked hmark]
  | none =>
    cases hk : k.isSigned with
    | true => rw [readNumber_signed hk hmark, readSigned_unmarked_eq hmark, inComplement_signed hk hmark]
    | false =>
      rw [readNumber_unsigned hk hmark (hminus hk), readUnsigned_unmarked_eq hmark (hminus hk), inComplement_unsigned hk]

theorem readNumber_marked_plus (hmark : afterHexMark t = some ('+' :: ds)) :
    (readNumber k t).map (Bytes.ofNat k.width) =
      ((ofDigits 16 ds).filter (· < UInt64.size)).elim (.error (.badNumber (String.ofList t)))
        fun n => (fitWidth k t n).map (Bytes.ofNat k.width) := by
  rw [readNumber_marked hmark, readUnsigned_plus]
  cases (ofDigits 16 ds).filter (· < UInt64.size) with
  | none => rfl
  | some n => exact (map_fitWidth (inComplement_marked hmark k) n).symm

/-! ## Judgements -/

theorem numeral_nonpos (hminus : t.head? = some '-') (h : numeral t = some v) : v ≤ 0 := by
  obtain ⟨ds, rfl⟩ := List.head?_eq_some_iff.1 hminus
  obtain ⟨n, -, rfl⟩ := Option.map_eq_some_iff.1 h
  omega

theorem numeral_nonneg (hminus : t.head? ≠ some '-') (h : numeral t = some v) : 0 ≤ v := by
  cases hmark : afterHexMark t with
  | some ds =>
    rw [numeral_marked hmark] at h
    obtain ⟨n, -, rfl⟩ := Option.map_eq_some_iff.1 h
    exact Int.natCast_nonneg n
  | none =>
    rw [numeral_unmarked hmark] at h
    by_cases hplus : t.head? = some '+'
    · obtain ⟨ds, rfl⟩ := List.head?_eq_some_iff.1 hplus
      obtain ⟨n, -, rfl⟩ := Option.map_eq_some_iff.1 h
      exact Int.natCast_nonneg n
    · rw [decimalNumeral_plain hminus hplus] at h
      obtain ⟨n, -, rfl⟩ := Option.map_eq_some_iff.1 h
      exact Int.natCast_nonneg n

theorem numeral_marked_plus (hmark : afterHexMark t = some ('+' :: ds)) : numeral t = none := by
  rw [numeral_marked hmark, ofDigits_plus]
  rfl

theorem judged_none (h : numeral t = none) : k.judged t = .error (.badNumber (String.ofList t)) := by
  rw [Kind.judged, h, Kind.answer]

theorem judged_not_holds (h : numeral t = some v) (hv : ¬ Bytes.Holds k.width (k.inComplement t) v) :
    k.judged t = .error (.outOfRange (String.ofList t) k) := by
  rw [Kind.judged, h, Kind.answer, if_neg hv]

/-- **A misjudged text gets the answer that is told of it**, and deserves another one. -/
theorem Misjudged.gets {answer : Except ValueError Bytes} (hwidth : k.width ≤ 8) (h : Misjudged k t answer) :
    (readNumber k t).map (Bytes.ofNat k.width) = answer ∧ answer ≠ k.judged t := by
  cases h with
  | @long v hv hlong hsign =>
    have hminus : k.isSigned = false → t.head? ≠ some '-' := by
      intro hk hminus
      have hzero : v = 0 := le_antisymm (numeral_nonpos hminus hv) (hsign.resolve_right (by simp [hk]))
      rw [hzero, inComplement_unsigned hk] at hlong
      exact hlong (holds_word_iff.2 (by decide))
    have hplus : ∀ ds, afterHexMark t = some ds → ds.head? ≠ some '+' := by
      intro ds hmark hplus
      obtain ⟨rest, rfl⟩ := List.head?_eq_some_iff.1 hplus
      rw [numeral_marked_plus hmark] at hv
      cases hv
    refine ⟨?_, ?_⟩
    · rw [readNumber_eq hminus hplus, hv, Option.filter_some, if_neg (by simpa using hlong)]
      rfl
    · rw [judged_not_holds hv fun h => hlong (h.mono hwidth)]
      simp
  | minusZero hk hminus hzero =>
    refine ⟨?_, ?_⟩
    · rw [readNumber_minus (isSigned_eq_false hk) hminus]
      rfl
    · have hholds : Bytes.Holds k.width false 0 := by simp [Bytes.Holds, Bytes.capacity]
      rw [Kind.judged, hzero, Kind.answer, inComplement_unsigned (isSigned_eq_false hk), if_pos hholds]
      simp
  | minus hk hminus hnone =>
    refine ⟨?_, ?_⟩
    · rw [readNumber_minus (isSigned_eq_false hk) hminus]
      rfl
    · rw [judged_none hnone]
      simp
  | @plus ds n hmark hn hlt =>
    refine ⟨?_, ?_⟩
    · rw [readNumber_marked_plus hmark, hn, Option.filter_some, if_pos (decide_eq_true hlt), Option.elim_some]
    · rw [judged_none (numeral_marked_plus hmark), fitWidth]
      split_ifs <;> simp [Except.map]

section Deserved

variable (h : (readNumber k t).map (Bytes.ofNat k.width) ≠ k.judged t)

include h

theorem misjudged_of_minus (hk : k.isUnsigned) (hminus : t.head? = some '-') : ∃ answer, Misjudged k t answer := by
  have hsigned := isSigned_eq_false hk
  cases hv : numeral t with
  | none => exact ⟨_, .minus hk hminus hv⟩
  | some v =>
    by_cases hzero : v = 0
    · exact ⟨_, .minusZero hk hminus (hzero ▸ hv)⟩
    · -- less than zero is out of range indeed
      have hneg : ¬ Bytes.Holds k.width (k.inComplement t) v := by
        have hnonpos := numeral_nonpos hminus hv
        simp only [inComplement_unsigned hsigned, Bytes.Holds, Bool.false_eq_true, if_false]
        omega
      rw [readNumber_minus hsigned hminus, judged_not_holds hv hneg] at h
      exact absurd rfl h

theorem misjudged_of_plus (hmark : afterHexMark t = some ('+' :: ds)) : ∃ answer, Misjudged k t answer := by
  rw [readNumber_marked_plus hmark, judged_none (numeral_marked_plus hmark)] at h
  cases hn : (ofDigits 16 ds).filter (· < UInt64.size) with
  | none =>
    rw [hn] at h
    exact absurd rfl h
  | some n =>
    obtain ⟨hdigits, hlt⟩ := Option.filter_eq_some_iff.1 hn
    exact ⟨_, .plus hmark hdigits (by simpa using hlt)⟩

theorem misjudged_of_long (hminus : k.isSigned = false → t.head? ≠ some '-')
    (hplus : ∀ ds, afterHexMark t = some ds → ds.head? ≠ some '+') : ∃ answer, Misjudged k t answer := by
  rw [readNumber_eq hminus hplus] at h
  cases hv : numeral t with
  | none =>
    rw [Kind.judged, hv] at h
    exact absurd rfl h
  | some v =>
    by_cases hholds : Bytes.Holds 8 (k.inComplement t) v
    · rw [Kind.judged, hv, Option.filter_some, if_pos (decide_eq_true hholds)] at h
      exact absurd rfl h
    · refine ⟨_, .long hv hholds ?_⟩
      cases hk : k.isSigned with
      | true => exact .inr rfl
      | false => exact .inl (numeral_nonneg (hminus hk) hv)

/-- **All texts that do not get the answer that they deserve are told of.** -/
theorem exists_misjudged (hk : k.isInteger) : ∃ answer, Misjudged k t answer := by
  by_cases hminus : k.isSigned = false ∧ t.head? = some '-'
  · exact misjudged_of_minus h (by simpa [Kind.isInteger, hminus.1] using hk) hminus.2
  by_cases hplus : ∃ ds, afterHexMark t = some ('+' :: ds)
  · obtain ⟨ds, hmark⟩ := hplus
    exact misjudged_of_plus h hmark
  · refine misjudged_of_long h (fun hk hhead => hminus ⟨hk, hhead⟩) fun ds hmark hhead => ?_
    obtain ⟨rest, rfl⟩ := List.head?_eq_some_iff.1 hhead
    exact hplus ⟨rest, hmark⟩

end Deserved

end Value

namespace Kind

variable {k : Kind} {text : String}

/-- **A text is judged as it deserves as an integer, or it is one of those that are told of.** What is no numeral is told to
be no number, and a numeral is read if it fits the kind, and else told to be out of range. The texts that get another answer
are numerals too long for eight bytes, texts of integers from zero up with a minus sign in front of zero or of no number, and
digits behind a mark and a plus sign. -/
theorem readValue_integer_iff (hk : k.isInteger) (hne : trim text.toList ≠ []) (size : Nat) :
    (k.readValue text size = k.judged (trim text.toList) ↔ ∀ answer, ¬ Misjudged k (trim text.toList) answer) ∧
      ∀ answer, Misjudged k (trim text.toList) answer → k.readValue text size = answer := by
  have hwidth : k.width ≤ 8 := (width_of_isWhole (by
    rw [isInteger, Bool.or_eq_true] at hk
    rcases hk with hk | hk <;> simp [isWhole, hk])).2
  rw [readValue, readChars_integer hk hne]
  refine ⟨⟨fun hread answer h => ?_, fun hno => ?_⟩, fun answer h => (h.gets hwidth).1⟩
  · obtain ⟨hgets, hdiffers⟩ := h.gets hwidth
    exact hdiffers (hgets ▸ hread)
  · by_contra hdiffers
    obtain ⟨answer, h⟩ := exists_misjudged hdiffers hk
    exact hno answer h

/-- a number below the least one of a byte is told to be out of range, as it should -/
theorem readValue_integer_iff_below : int8.isInteger ∧ trim " -129".toList ≠ [] ∧
    int8.readValue " -129" 1 = .error (.outOfRange "-129" int8) ∧
    ∀ answer, ¬ Misjudged int8 (trim " -129".toList) answer := by
  have hne : trim " -129".toList ≠ [] := by decide
  exact ⟨rfl, hne, by decide, (readValue_integer_iff rfl hne 1).1.1 (by decide)⟩

/-- a number of nine bytes is told to be no number -/
theorem readValue_long : uint32.isInteger ∧ trim "18446744073709551616".toList ≠ [] ∧
    uint32.readValue "18446744073709551616" 4 = .error (.badNumber "18446744073709551616") ∧
    uint32.judged (trim "18446744073709551616".toList) = .error (.outOfRange "18446744073709551616" uint32) := by
  decide

end Kind

end ByteAtlas
