/-
Texts in a space of fixed length. A text is written one character after the other, each as one or more units, cut off or
filled up with zero units, and read up to the first of these. A reader puts U+FFFD for units that make up no character.

What becomes of a text on this way is the same for all codings that have a few properties in common (`Coding`): a character
is read whatever comes after it, and of a character that is cut off inside a single U+FFFD is left.

- `Coding.decode_take_encode`: a text that is cut off keeps the characters that fit, and `Coding.fitted` tells what they are.
- `Coding.fitted_cases`: it is whole if it fits; if not, at most one U+FFFD stands behind the characters that fit.
- `Coding.fitted_eq_self_iff`: a text that ends in U+FFFD may stay what it is though it does not fit.
-/
import Mathlib.Data.List.TakeWhile
import Mathlib.Tactic

namespace ByteAtlas.Text

/-- a character is a number below `0x110000` that is no surrogate -/
theorem toNat_isValid (c : Char) : c.toNat < 0xd800 ∨ 0xdfff < c.toNat ∧ c.toNat < 0x110000 := c.valid

theorem toNat_ofNat {v : Nat} (hv : v.isValidChar) : (Char.ofNat v).toNat = v := by
  rw [Char.ofNat, dif_pos hv]
  rfl

theorem ofNat_ne_nul {v : Nat} (hpos : 0 < v) (hv : v.isValidChar) : Char.ofNat v ≠ '\x00' := by
  intro e
  have hzero : v = 0 := (toNat_ofNat hv).symm.trans (congrArg Char.toNat e)
  omega

/-- a text up to its first NUL -/
def beforeNul (cs : List Char) : List Char := cs.takeWhile (· != '\x00')

theorem beforeNul_of_not_mem {cs : List Char} (h : '\x00' ∉ cs) : beforeNul cs = cs :=
  List.takeWhile_eq_self_iff.2 fun _ hc => bne_iff_ne.2 fun e => h (e ▸ hc)

/-- A way of writing characters as units, and of reading units. The character NUL is written as the unit zero, and no other
character has this unit among its own. -/
structure Coding (α : Type) where
  encodeChar : Char → List α
  decode : List α → List Char
  zero : α
  decode_nil : decode [] = []
  decode_cons (c : Char) (s : List α) : decode (encodeChar c ++ s) = c :: decode s
  decode_cut (c : Char) (k : Nat) (h0 : 0 < k) (hk : k < (encodeChar c).length) :
    decode ((encodeChar c).take k) = ['\ufffd']
  encodeChar_nul : encodeChar '\x00' = [zero]
  zero_not_mem (c : Char) (hc : c ≠ '\x00') : zero ∉ encodeChar c

namespace Coding

variable {α : Type} (C : Coding α) {n : Nat} {cs : List Char} {c : Char}

def encode (cs : List Char) : List α := cs.flatMap C.encodeChar

/-- what is left of a text in a space of so many units -/
def fitted (n : Nat) : List Char → List Char
  | [] => []
  | c :: cs =>
    if (C.encodeChar c).length ≤ n then c :: fitted (n - (C.encodeChar c).length) cs
    else if n = 0 then [] else ['\ufffd']

theorem encode_cons (c : Char) (cs : List Char) : C.encode (c :: cs) = C.encodeChar c ++ C.encode cs := List.flatMap_cons

theorem length_encode_cons (c : Char) (cs : List Char) :
    (C.encode (c :: cs)).length = (C.encodeChar c).length + (C.encode cs).length := by
  rw [encode_cons, List.length_append]

theorem decode_encode (cs : List Char) : C.decode (C.encode cs) = cs := by
  induction cs with
  | nil => exact C.decode_nil
  | cons c cs ih => rw [encode_cons, C.decode_cons, ih]

/-! ## Cut off -/

/-- **A text that is cut off keeps the characters that fit**, and of a character that is cut inside it keeps U+FFFD. -/
theorem decode_take_encode (n : Nat) (cs : List Char) : C.decode ((C.encode cs).take n) = C.fitted n cs := by
  induction cs generalizing n with
  | nil => simp [encode, fitted, C.decode_nil]
  | cons c cs ih =>
    rw [encode_cons, fitted]
    split_ifs with hfits hzero
    · rw [List.take_append, List.take_of_length_le hfits, C.decode_cons, ih]
    · rw [hzero, List.take_zero, C.decode_nil]
    · rw [List.take_append_of_le_length (by omega), C.decode_cut c n (by omega) (by omega)]

theorem fitted_eq_self (h : (C.encode cs).length ≤ n) : C.fitted n cs = cs := by
  rw [← C.decode_take_encode, List.take_of_length_le h, C.decode_encode]

/-- a text that is cut off has a first character that does not fit -/
theorem exists_cut (h : n < (C.encode cs).length) : ∃ kept c rest, cs = kept ++ c :: rest ∧
    (C.encode kept).length ≤ n ∧ n < (C.encode (kept ++ [c])).length := by
  induction cs generalizing n with
  | nil => exact absurd h (Nat.not_lt_zero n)
  | cons c cs ih =>
    rw [length_encode_cons] at h
    by_cases hfits : (C.encodeChar c).length ≤ n
    · obtain ⟨kept, d, rest, rfl, hkept, hnext⟩ := ih (n := n - (C.encodeChar c).length) (by omega)
      refine ⟨c :: kept, d, rest, rfl, ?_, ?_⟩
      · rw [length_encode_cons]
        omega
      · rw [List.cons_append, length_encode_cons]
        omega
    · exact ⟨[], c, cs, rfl, Nat.zero_le n, by simpa [encode] using hfits⟩

theorem fitted_of_cut {kept rest : List Char} (hkept : (C.encode kept).length ≤ n)
    (hnext : n < (C.encode (kept ++ [c])).length) :
    C.fitted n (kept ++ c :: rest) = kept ++ if (C.encode kept).length < n then ['\ufffd'] else [] := by
  induction kept generalizing n with
  | nil =>
    have hlong : ¬ (C.encodeChar c).length ≤ n := by simpa [encode] using hnext
    simp only [List.nil_append, fitted, if_neg hlong, encode, List.flatMap_nil, List.length_nil]
    by_cases hzero : n = 0
    · simp [hzero]
    · rw [if_neg hzero, if_pos (Nat.pos_of_ne_zero hzero)]
  | cons d kept ih =>
    rw [List.cons_append, length_encode_cons] at hnext
    rw [length_encode_cons] at hkept
    have hrest := ih (n := n - (C.encodeChar d).length) (by omega) (by omega)
    rw [List.cons_append, fitted, if_pos (by omega), hrest, length_encode_cons, List.cons_append]
    simp only [Nat.lt_sub_iff_add_lt']

/-- **A text is whole if it fits.** If it does not, the characters that fit are left, and U+FFFD behind them if there is
space between them and the end. -/
theorem fitted_cases (n : Nat) (cs : List Char) : ((C.encode cs).length ≤ n ∧ C.fitted n cs = cs) ∨
    ∃ kept c rest, cs = kept ++ c :: rest ∧ (C.encode kept).length ≤ n ∧ n < (C.encode (kept ++ [c])).length ∧
      C.fitted n cs = kept ++ if (C.encode kept).length < n then ['\ufffd'] else [] := by
  rcases le_or_gt (C.encode cs).length n with hfits | hlong
  · exact .inl ⟨hfits, C.fitted_eq_self hfits⟩
  · obtain ⟨kept, c, rest, rfl, hkept, hnext⟩ := C.exists_cut hlong
    exact .inr ⟨kept, c, rest, rfl, hkept, hnext, C.fitted_of_cut hkept hnext⟩

/-- **A text stays what it is if it fits**, or if nothing but an U+FFFD at its end is cut. -/
theorem fitted_eq_self_iff : C.fitted n cs = cs ↔
    (C.encode cs).length ≤ n ∨ ∃ front, cs = front ++ ['\ufffd'] ∧ (C.encode front).length < n := by
  refine ⟨fun h => ?_, fun h => ?_⟩
  · rcases C.fitted_cases n cs with ⟨hfits, -⟩ | ⟨kept, c, rest, rfl, -, -, hcut⟩
    · exact .inl hfits
    · have hmark : (if (C.encode kept).length < n then ['\ufffd'] else []) = c :: rest :=
        List.append_cancel_left (hcut.symm.trans h)
      split_ifs at hmark with hspace
      obtain ⟨rfl, rfl⟩ := List.cons.inj hmark
      exact .inr ⟨kept, rfl, hspace⟩
  · rcases h with hfits | ⟨front, rfl, hspace⟩
    · exact C.fitted_eq_self hfits
    · rcases le_or_gt (C.encode (front ++ ['\ufffd'])).length n with hfits | hlong
      · exact C.fitted_eq_self hfits
      · rw [C.fitted_of_cut hspace.le hlong, if_pos hspace]

/-! ## Up to the first zero -/

section Zero

variable [BEq α] [LawfulBEq α]

theorem takeWhile_encode (cs : List Char) :
    (C.encode cs).takeWhile (· != C.zero) = C.encode (beforeNul cs) := by
  unfold beforeNul
  induction cs with
  | nil => rfl
  | cons c cs ih =>
    by_cases hc : c = '\x00'
    · simp [hc, C.encodeChar_nul, encode]
    · have hunits : ∀ u ∈ C.encodeChar c, (u != C.zero) = true := fun u hu =>
        bne_iff_ne.2 fun e => C.zero_not_mem c hc (e ▸ hu)
      rw [encode_cons, List.takeWhile_append_of_pos hunits, ih, List.takeWhile_cons, if_pos (bne_iff_ne.2 hc), encode_cons]

/-- **A text that is written to a space of so many units is read as what fits of it**, up to its first NUL. -/
theorem decode_written (n m : Nat) (cs : List Char) :
    C.decode (((C.encode cs).take n ++ List.replicate m C.zero).takeWhile (· != C.zero)) =
      C.fitted n (beforeNul cs) := by
  have hzeros : (List.replicate m C.zero).takeWhile (· != C.zero) = [] := by
    cases m <;> simp [List.replicate_succ]
  have hfilled : ((C.encode cs).take n ++ List.replicate m C.zero).takeWhile (· != C.zero) =
      ((C.encode cs).take n).takeWhile (· != C.zero) := by
    rw [List.takeWhile_append, hzeros, List.append_nil]
    split_ifs with hall
    · exact ((List.takeWhile_prefix _).eq_of_length hall).symm
    · rfl
  rw [hfilled, ← List.take_takeWhile, C.takeWhile_encode, C.decode_take_encode]

end Zero

end Coding

end ByteAtlas.Text
