/-
Numbers come back from the digits that are written of them, decimal or of base sixteen. A reader takes a sign and a mark in
front of the digits as well; written digits start with neither.

- `readUnsigned_decimal`, `readSigned_decimalInt`: decimal numerals, an integer with its sign.
- `readUnsigned_upperHexFixed`: as many digits of base sixteen as the number needs, or more.
- `trim_eq_self`: a text without blanks at its ends is left as it is.
-/
import Mathlib.Tactic
import ByteAtlas.Text.Blank
import ByteAtlas.Text.Digits

namespace ByteAtlas.Text

variable {base bound acc v w n : Nat} {c : Char} {cs ds : List Char}

/-! ## Blanks -/

theorem trimEnd_eq_self (h : ∀ c ∈ cs.getLast?, isBlank c = false) : trimEnd cs = cs := by
  have hback : cs.reverse.dropWhile isBlank = cs.reverse := by
    cases hrev : cs.reverse with
    | nil => rfl
    | cons c rest =>
      have hlast : cs.getLast? = some c := by rw [← List.head?_reverse, hrev, List.head?_cons]
      simp [h c hlast]
  rw [trimEnd, hback, List.reverse_reverse]

theorem trim_eq_self (hhead : ∀ c ∈ cs.head?, isBlank c = false) (hlast : ∀ c ∈ cs.getLast?, isBlank c = false) :
    trim cs = cs := by
  have hfront : cs.dropWhile isBlank = cs := by
    cases cs with
    | nil => rfl
    | cons c cs => simp [hhead c rfl]
  rw [trim, hfront, trimEnd_eq_self hlast]

/-- blanks are gone from a text, whether or not those at its ends were gone before -/
theorem filter_trim (cs : List Char) : (trim cs).filter (fun c => !isBlank c) = cs.filter fun c => !isBlank c := by
  have hfront : ∀ cs : List Char, (cs.dropWhile isBlank).filter (fun c => !isBlank c) = cs.filter fun c => !isBlank c := by
    intro cs
    induction cs with
    | nil => rfl
    | cons c cs ih =>
      by_cases hc : isBlank c
      · simp [hc, ih]
      · simp [hc]
  calc
    (trim cs).filter (fun c => !isBlank c)
      = (((cs.dropWhile isBlank).reverse.dropWhile isBlank).filter fun c => !isBlank c).reverse := by
        rw [trim, trimEnd, List.filter_reverse]
    _ = cs.filter fun c => !isBlank c := by
        rw [hfront, List.filter_reverse, List.reverse_reverse, hfront]

theorem trim_of_forall (h : ∀ c ∈ cs, isBlank c = false) : trim cs = cs :=
  trim_eq_self (fun c hc => h c (List.mem_of_mem_head? hc)) fun c hc => h c (List.mem_of_mem_getLast? hc)

/-! ## Reading digits -/

theorem foldDigits_append (base acc : Nat) (cs ds : List Char) :
    foldDigits base acc (cs ++ ds) = (foldDigits base acc cs).bind fun v => foldDigits base v ds := by
  induction cs generalizing acc with
  | nil => rfl
  | cons c cs ih =>
    rw [List.cons_append, foldDigits, foldDigits]
    cases digitOf base c with
    | none => rfl
    | some d => exact ih _

/-- digits are read as they stand if they do not start with a plus sign -/
theorem readUnsigned_of_foldDigits (hc : c ≠ '+') (h : foldDigits base 0 (c :: cs) = some v) (hv : v < bound) :
    readUnsigned base bound (c :: cs) = some v := by
  have hdigits : ofDigits base (c :: cs) = some v := h
  unfold readUnsigned
  split
  · next hplus => exact absurd (List.cons.inj hplus).1 hc
  · simp only [hdigits, Option.filter_some, decide_eq_true hv, if_true]

theorem digitOf_plus (base : Nat) : digitOf base '+' = none := rfl

theorem digitOf_lt {d : Nat} (h : digitOf base c = some d) : d < base := by
  simpa using (Option.filter_eq_some_iff.1 h).2

theorem readUnsigned_plus (base bound : Nat) (cs : List Char) :
    readUnsigned base bound ('+' :: cs) = (ofDigits base cs).filter (· < bound) := rfl

theorem readUnsigned_of_head (h : cs.head? ≠ some '+') :
    readUnsigned base bound cs = (ofDigits base cs).filter (· < bound) := by
  unfold readUnsigned
  split
  · simp at h
  · rfl

/-! ## Digits of base sixteen -/

/-- what a digit of base sixteen is and is not -/
theorem upperDigit_spec : ∀ d < 16, digitOf 16 (upperDigit d) = some d ∧ isBlank (upperDigit d) = false ∧
    upperDigit d ≠ '+' ∧ upperDigit d ≠ 'x' ∧ upperDigit d ≠ 'X' := by
  decide

theorem exists_upperDigit (h : c ∈ upperHexFixed n v) : ∃ d < 16, upperDigit d = c := by
  induction n generalizing v with
  | zero => exact absurd h List.not_mem_nil
  | succ n ih =>
    rcases List.mem_append.1 h with h | h
    · exact ih h
    · exact ⟨v % 16, Nat.mod_lt v (by decide), (List.mem_singleton.1 h).symm⟩

theorem length_upperHexFixed (n v : Nat) : (upperHexFixed n v).length = n := by
  induction n generalizing v with
  | zero => rfl
  | succ n ih => rw [upperHexFixed, List.length_append, ih, List.length_singleton]

theorem foldDigits_upperHexFixed (n v acc : Nat) :
    foldDigits 16 acc (upperHexFixed n v) = some (acc * 16 ^ n + v % 16 ^ n) := by
  induction n generalizing v with
  | zero => simp [upperHexFixed, foldDigits, Nat.mod_one]
  | succ n ih =>
    have hdigit := (upperDigit_spec (v % 16) (Nat.mod_lt v (by decide))).1
    have hnumber : (acc * 16 ^ n + v / 16 % 16 ^ n) * 16 + v % 16 = acc * 16 ^ (n + 1) + v % 16 ^ (n + 1) := by
      rw [pow_succ', Nat.mod_mul]
      ring
    rw [upperHexFixed, foldDigits_append, ih, Option.bind_some, foldDigits, hdigit]
    exact congrArg some hnumber

/-- **A number comes back from its digits of base sixteen**, however many zeros are in front of them. -/
theorem readUnsigned_upperHexFixed (hn : n ≠ 0) (hv : v < 16 ^ n) (hbound : v < bound) :
    readUnsigned 16 bound (upperHexFixed n v) = some v := by
  have hfold : foldDigits 16 0 (upperHexFixed n v) = some v := by
    rw [foldDigits_upperHexFixed, Nat.zero_mul, Nat.zero_add, Nat.mod_eq_of_lt hv]
  cases hds : upperHexFixed n v with
  | nil => exact absurd ((length_upperHexFixed n v).symm.trans (congrArg List.length hds)) hn
  | cons c cs =>
    obtain ⟨d, hd, rfl⟩ := exists_upperDigit (hds ▸ List.mem_cons_self : c ∈ upperHexFixed n v)
    exact readUnsigned_of_foldDigits (upperDigit_spec d hd).2.2.1 (hds ▸ hfold) hbound

/-! ## Decimal digits -/

theorem toNat_of_isDigit (hc : c.isDigit = true) : 48 ≤ c.toNat ∧ c.toNat ≤ 57 := by
  simpa [Char.isDigit, UInt32.le_iff_toNat_le] using hc

theorem digitOf_ten (hc : c.isDigit = true) : digitOf 10 c = some (c.toNat - 48) := by
  have hrange := toNat_of_isDigit hc
  have hvalue : digitValue c = some (c.toNat - 48) := if_pos hrange
  rw [digitOf, hvalue, Option.filter_some, if_pos (decide_eq_true (by omega))]

theorem isBlank_of_isDigit (hc : c.isDigit = true) : isBlank c = false := by
  have hrange := toNat_of_isDigit hc
  simp only [isBlank, Bool.or_eq_false_iff, Bool.and_eq_false_iff, decide_eq_false_iff_not, beq_eq_false_iff_ne]
  omega

theorem isDigit_of_mem_decimal (hc : c ∈ decimal n) : c.isDigit = true :=
  Nat.isDigit_of_mem_toDigits (by decide) (by decide) hc

theorem ne_of_isDigit {d : Char} (hc : c.isDigit = true) (hd : d.isDigit = false) : c ≠ d := by
  intro e
  rw [e, hd] at hc
  cases hc

theorem foldDigits_ten (hcs : ∀ c ∈ cs, c.isDigit = true) (acc : Nat) :
    foldDigits 10 acc cs = some (Nat.ofDigitChars 10 cs acc) := by
  induction cs generalizing acc with
  | nil => rfl
  | cons c cs ih =>
    rw [foldDigits, digitOf_ten (hcs c List.mem_cons_self), Nat.ofDigitChars_cons, Nat.mul_comm 10]
    exact ih (fun d hd => hcs d (List.mem_cons_of_mem c hd)) _

theorem foldDigits_decimal (n : Nat) : foldDigits 10 0 (decimal n) = some n := by
  rw [foldDigits_ten fun c => isDigit_of_mem_decimal, decimal, Nat.ofDigitChars_ten_toDigits]

theorem exists_toDigits_eq_cons (n : Nat) : ∃ c cs, Nat.toDigits 10 n = c :: cs ∧ c.isDigit = true := by
  cases hds : Nat.toDigits 10 n with
  | nil => exact absurd hds Nat.toDigits_ne_nil
  | cons c cs => exact ⟨c, cs, rfl, Nat.isDigit_of_mem_toDigits (by decide) (by decide) (hds ▸ List.mem_cons_self)⟩

theorem ofDigits_decimal (n : Nat) : ofDigits 10 (decimal n) = some n := by
  obtain ⟨c, cs, hds, -⟩ : ∃ c cs, decimal n = c :: cs ∧ _ := exists_toDigits_eq_cons n
  have hfold := foldDigits_decimal n
  rw [hds] at hfold ⊢
  exact hfold

/-- **A number comes back from its decimal digits.** -/
theorem readUnsigned_decimal (h : n < bound) : readUnsigned 10 bound (decimal n) = some n := by
  obtain ⟨c, cs, hds, hc⟩ : ∃ c cs, decimal n = c :: cs ∧ _ := exists_toDigits_eq_cons n
  have hfold := foldDigits_decimal n
  rw [hds] at hfold ⊢
  exact readUnsigned_of_foldDigits (ne_of_isDigit hc rfl) hfold h

/-- **An integer comes back from its decimal digits and its sign.** -/
theorem readSigned_decimalInt {bits : Nat} {i : Int} (hlow : -(2 ^ (bits - 1) : Nat) ≤ i)
    (hhigh : i < (2 ^ (bits - 1) : Nat)) : readSigned bits (decimalInt i) = some i := by
  cases i with
  | ofNat n =>
    have hn : n < Nat.pow 2 (bits - 1) := Int.ofNat_lt.1 hhigh
    have hread := readUnsigned_decimal hn
    obtain ⟨c, cs, hds, hc⟩ : ∃ c cs, decimal n = c :: cs ∧ _ := exists_toDigits_eq_cons n
    rw [decimalInt]
    unfold readSigned
    split
    · next rest hminus => exact absurd (List.cons.inj (hds.symm.trans hminus)).1 (ne_of_isDigit hc rfl)
    · simp only [hread]
      rfl
  | negSucc n =>
    have hn : n + 1 ≤ Nat.pow 2 (bits - 1) := by
      rw [Nat.pow_eq]
      omega
    rw [decimalInt, readSigned, ofDigits_decimal, Option.filter_some, if_pos (decide_eq_true hn)]
    rfl

end ByteAtlas.Text
