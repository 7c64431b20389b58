/-
Strings and whole numbers, found again by the reader. What is written for a character is read as one mark
(`scanText_escapeChar`), and the marks of a text spell it (`spell_marks`), so a string is read back whatever characters
are in it (`readText_escaped`). The digits of a number are read up to the first character that cannot go on with it
(`scanNumber_toDigits`).
-/
import Mathlib
import ByteAtlas.Json.Reader
import ByteAtlas.Json.Writer

namespace ByteAtlas.Json

/-! ## Strings -/

/-- what the reader finds for a character: a control without a short escape comes as a number -/
def markOf (c : Char) : Mark :=
  if c.toNat < 0x20 ∧ c ∉ ['\x08', '\t', '\n', '\x0c', '\r'] then .unit c.toNat else .char c

theorem scanText_short {e c : Char} (he : escaped e = some c) (s : Input) :
    scanText (some '\\' :: some e :: s) = (scanText s).map fun r => (.char c :: r.1, r.2) := by
  have hu : e ≠ 'u' := by
    rintro rfl
    simp [escaped] at he
  rw [scanText, he]
  · cases scanText s <;> rfl
  · exact fun _ _ _ _ _ _ h => hu h

theorem scanText_unit {a b c d : Char} {u : Nat} (hu : Text.foldDigits 16 0 [a, b, c, d] = some u) (s : Input) :
    scanText (some '\\' :: some 'u' :: some a :: some b :: some c :: some d :: s) =
      (scanText s).map fun r => (.unit u :: r.1, r.2) := by
  rw [scanText, hu]
  cases scanText s <;> rfl

theorem scanText_plain {c : Char} (hq : c ≠ '"') (hb : c ≠ '\\') (hc : ¬ c.toNat < 0x20) (s : Input) :
    scanText (some c :: s) = (scanText s).map fun r => (.char c :: r.1, r.2) := by
  rw [scanText, if_neg (by simp [hb, hc])]
  · cases scanText s <;> rfl
  · exact hq
  · exact fun _ _ _ _ _ _ h => hb h
  · exact fun _ _ _ h => hb h

theorem foldDigits_control : ∀ n < 0x20,
    Text.foldDigits 16 0 ['0', '0', Nat.digitChar (n / 16), Nat.digitChar (n % 16)] = some n := by
  decide

/-- **What is written for a character is read as one mark.** -/
theorem scanText_escapeChar (c : Char) (s : Input) :
    scanText ((escapeChar c).map some ++ s) = (scanText s).map fun r => (markOf c :: r.1, r.2) := by
  unfold escapeChar
  split_ifs with hquote hslash hback htab hline hform hreturn hcontrol
  · subst hquote
    exact scanText_short rfl s
  · subst hslash
    exact scanText_short rfl s
  · subst hback
    exact scanText_short rfl s
  · subst htab
    exact scanText_short rfl s
  · subst hline
    exact scanText_short rfl s
  · subst hform
    exact scanText_short rfl s
  · subst hreturn
    exact scanText_short rfl s
  · have hmark : markOf c = .unit c.toNat := if_pos ⟨hcontrol, by simp [hback, htab, hline, hform, hreturn]⟩
    exact hmark ▸ scanText_unit (foldDigits_control c.toNat hcontrol) s
  · have hmark : markOf c = .char c := if_neg fun h => hcontrol h.1
    exact hmark ▸ scanText_plain hquote hslash hcontrol s

theorem scanText_escaped (cs : List Char) (s : Input) :
    scanText ((cs.flatMap escapeChar).map some ++ some '"' :: s) = some (cs.map markOf, s) := by
  induction cs with
  | nil => rfl
  | cons c rest ih =>
    rw [List.flatMap_cons, List.map_append, List.append_assoc, scanText_escapeChar, ih]
    rfl

/-- the marks of a text spell it: controls are no surrogates -/
theorem spell_marks (cs : List Char) : spell (cs.map markOf) = some cs := by
  induction cs with
  | nil => rfl
  | cons c rest ih =>
    rw [List.map_cons]
    by_cases hc : c.toNat < 0x20 ∧ c ∉ ['\x08', '\t', '\n', '\x0c', '\r']
    · have hhigh : Text.Utf16.isHigh c.toNat = false := by
        simp only [Text.Utf16.isHigh, Bool.and_eq_false_iff, decide_eq_false_iff_not]
        omega
      have hlow : Text.Utf16.isLow c.toNat = false := by
        simp only [Text.Utf16.isLow, Bool.and_eq_false_iff, decide_eq_false_iff_not]
        omega
      rw [markOf, if_pos hc]
      have hstep : spell (.unit c.toNat :: rest.map markOf) =
          (spell (rest.map markOf)).map (Char.ofNat c.toNat :: ·) := by
        cases hrest : rest.map markOf with
        | nil => simp [spell, hhigh, hlow]
        | cons m ms => cases m <;> simp [spell, hhigh, hlow]
      rw [hstep, ih, Char.ofNat_toNat]
      rfl
    · rw [markOf, if_neg hc, spell, ih]
      rfl

/-- **A string is read back** from behind its opening quote on. -/
theorem readText_escaped (t : String) (s : Input) :
    readText ((t.toList.flatMap escapeChar).map some ++ some '"' :: s) = some (some t, s) := by
  have hspell : (spell (t.toList.map markOf)).map String.ofList = some t := by
    rw [spell_marks, Option.map_some, String.ofList_toList]
  rw [readText, scanText_escaped, Option.map_some]
  exact congrArg (fun r => some (r, s)) hspell

/-! ## Whole numbers -/

/-- nothing at the start of an input goes on with a number -/
def EndsNumber (s : Input) : Prop := ∀ c rest, s = some c :: rest → c.isDigit = false ∧ c ∉ ['.', 'e', 'E']

theorem endsNumber_nil : EndsNumber [] := by
  intro c rest h
  cases h

theorem endsNumber_cons {c : Char} (hd : c.isDigit = false) (hc : c ∉ ['.', 'e', 'E']) (s : Input) :
    EndsNumber (some c :: s) := by
  intro c' rest h
  cases h
  exact ⟨hd, hc⟩

theorem scanDigits_append {ds : List Char} (hds : ∀ c ∈ ds, c.isDigit = true) {s : Input} (hs : EndsNumber s) :
    scanDigits (ds.map some ++ s) = (ds, s) := by
  induction ds with
  | nil =>
    rw [List.map_nil, List.nil_append]
    unfold scanDigits
    split
    · next c rest =>
      have hc := (hs c rest rfl).1
      simp [hc]
    · rfl
  | cons c rest ih =>
    have hc := hds c List.mem_cons_self
    rw [List.map_cons, List.cons_append, scanDigits, if_pos hc, ih fun d hd => hds d (List.mem_cons_of_mem _ hd)]

/-- a number that is written with a zero in front is zero -/
theorem toDigits_eq_zero_cons {n : Nat} {ds : List Char} (h : Nat.toDigits 10 n = '0' :: ds) : ds = [] := by
  induction n using Nat.strong_induction_on generalizing ds with
  | _ n ih =>
    by_cases hn : n < 10
    · rw [Nat.toDigits_of_lt_base hn] at h
      exact (List.cons.inj h).2.symm
    · exfalso
      rw [Nat.toDigits_of_base_le (by omega) (by omega)] at h
      cases hhead : Nat.toDigits 10 (n / 10) with
      | nil => exact Nat.toDigits_ne_nil hhead
      | cons c rest =>
        rw [hhead, List.cons_append] at h
        obtain ⟨rfl, -⟩ := List.cons.inj h
        obtain rfl := ih (n / 10) (by omega) hhead
        -- the quotient would be written as a zero alone
        have hzero : n / 10 = 0 := by
          rw [← Nat.ofDigitChars_ten_toDigits (n := n / 10), hhead]
          rfl
        omega

theorem scanWhole_toDigits (n : Nat) {s : Input} (hs : EndsNumber s) :
    scanWhole ((Nat.toDigits 10 n).map some ++ s) = some (Nat.toDigits 10 n, s) := by
  have hdigits : ∀ c ∈ Nat.toDigits 10 n, c.isDigit = true := fun c hc => Nat.isDigit_of_mem_toDigits (by omega) le_rfl hc
  have hsome : someDigits ((Nat.toDigits 10 n).map some ++ s) = some (Nat.toDigits 10 n, s) := by
    rw [someDigits, scanDigits_append hdigits hs]
    cases hds : Nat.toDigits 10 n with
    | nil => exact absurd hds Nat.toDigits_ne_nil
    | cons c rest => rfl
  unfold scanWhole
  split
  · next c rest heq =>
    cases hds : Nat.toDigits 10 n with
    | nil => exact absurd hds Nat.toDigits_ne_nil
    | cons d ds =>
      rw [hds, List.map_cons, List.cons_append] at heq
      obtain ⟨hd, htail⟩ := List.cons.inj heq
      obtain rfl := Option.some.inj hd
      obtain rfl := toDigits_eq_zero_cons hds
      rw [List.map_nil, List.nil_append] at htail
      subst htail
      have hc := (hs c rest rfl).1
      simp [hc]
  · exact hsome

/-- **A whole number is read back**, all its digits and nothing behind them. -/
theorem scanNumber_toDigits (n : Nat) {s : Input} (hs : EndsNumber s) :
    scanNumber ((Nat.toDigits 10 n).map some ++ s) = some (Nat.toDigits 10 n, s) := by
  have hfraction : scanFraction s = some ([], s) := by
    unfold scanFraction
    split
    · next rest =>
      have hdot := (hs '.' rest rfl).2
      simp at hdot
    · rfl
  have hexponent : scanExponent s = some ([], s) := by
    unfold scanExponent
    split
    · next c rest =>
      have hc := (hs c rest rfl).2
      simp only [List.mem_cons, List.not_mem_nil, or_false, not_or] at hc
      rw [if_neg (not_or.2 ⟨hc.2.1, hc.2.2⟩)]
    · rfl
  have hmagnitude : scanMagnitude ((Nat.toDigits 10 n).map some ++ s) = some (Nat.toDigits 10 n, s) := by
    simp [scanMagnitude, scanWhole_toDigits n hs, hfraction, hexponent]
  unfold scanNumber
  split
  · next rest heq =>
    cases hds : Nat.toDigits 10 n with
    | nil => exact absurd hds Nat.toDigits_ne_nil
    | cons d ds =>
      have hd : d.isDigit = true :=
        Nat.isDigit_of_mem_toDigits (by omega) le_rfl (hds ▸ List.mem_cons_self : d ∈ Nat.toDigits 10 n)
      rw [hds, List.map_cons, List.cons_append] at heq
      obtain rfl := Option.some.inj (List.cons.inj heq).1
      cases hd
  · exact hmagnitude

end ByteAtlas.Json
