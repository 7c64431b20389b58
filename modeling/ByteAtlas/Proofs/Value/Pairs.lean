/-
Which texts stand for raw bytes in memory order. A value of raw bytes is typed as two digits of base sixteen for each byte,
with blanks anywhere between them. Its pairs are read one by one by the reader of whole numbers, and that one takes a plus
sign in front of a digit as well.

- `Pairs`: the texts that are read, with the bytes that they are read as.
- `Spells`: the texts that consist of the digits of bytes. These are the ones that have no plus sign (`spells_iff_pairs`).
- `Kind.readValue_pairs_iff`: a text is read as the bytes that its digits spell, and is refused if they spell none, unless it
  is one that is read in spite of a plus sign.
-/
import Mathlib.Tactic
import ByteAtlas.Proofs.Value.Numbers

namespace ByteAtlas

namespace Value

open Text

variable {k : Kind} {a b : Char} {v n : Nat} {cs ds : List Char} {bs : Bytes}

/-! ## Two characters for a byte -/

/-- the characters are the digits of bytes, of each byte the higher one first -/
def Spells (ds : List Char) (bs : Bytes) : Prop :=
  ds.map (digitOf 16) = bs.flatMap fun b => [some (b.toNat / 16), some (b.toNat % 16)]

instance (ds : List Char) (bs : Bytes) : Decidable (Spells ds bs) := inferInstanceAs (Decidable (_ = _))

/-- two characters that are read as a byte -/
inductive Pair : Char → Char → Nat → Prop
  | digits {a b : Char} {x y : Nat} : digitOf 16 a = some x → digitOf 16 b = some y → Pair a b (16 * x + y)
  /-- a sign in front of one digit -/
  | signed {b : Char} {y : Nat} : digitOf 16 b = some y → Pair '+' b y

/-- characters that are read as bytes, two for each -/
inductive Pairs : List Char → Bytes → Prop
  | nil : Pairs [] []
  | cons {a b : Char} {v : Nat} {ds : List Char} {bs : Bytes} : Pair a b v → Pairs ds bs →
      Pairs (a :: b :: ds) (UInt8.ofNat v :: bs)

theorem Pair.lt (h : Pair a b v) : v < 256 := by
  cases h with
  | digits ha hb =>
    have hx := digitOf_lt ha
    have hy := digitOf_lt hb
    omega
  | signed hb => exact (digitOf_lt hb).trans (by decide)

theorem readUnsigned_eq_some_iff : Text.readUnsigned 16 256 [a, b] = some v ↔ Pair a b v := by
  by_cases ha : a = '+'
  · rw [ha, readUnsigned_plus]
    refine ⟨fun h => ?_, fun h => ?_⟩
    · obtain ⟨hv, -⟩ := Option.filter_eq_some_iff.1 h
      cases hb : digitOf 16 b with
      | none => simp [ofDigits, foldDigits, hb] at hv
      | some y =>
        obtain rfl : y = v := by simpa [ofDigits, foldDigits, hb] using hv
        exact .signed hb
    · have hlt := h.lt
      cases h with
      | digits hplus _ => cases hplus
      | signed hb => simp [ofDigits, foldDigits, hb, hlt]
  · rw [readUnsigned_of_head (by simpa using ha)]
    refine ⟨fun h => ?_, fun h => ?_⟩
    · obtain ⟨hv, -⟩ := Option.filter_eq_some_iff.1 h
      cases hx : digitOf 16 a with
      | none => simp [ofDigits, foldDigits, hx] at hv
      | some x =>
        cases hy : digitOf 16 b with
        | none => simp [ofDigits, foldDigits, hx, hy] at hv
        | some y =>
          obtain rfl : x * 16 + y = v := by simpa [ofDigits, foldDigits, hx, hy] using hv
          exact Nat.mul_comm 16 x ▸ .digits hx hy
    · have hlt := h.lt
      cases h with
      | digits hx hy => simpa [ofDigits, foldDigits, hx, hy, Nat.mul_comm] using hlt
      | signed _ => exact absurd rfl ha

/-! ## Pairs in a row -/

/-- **What is read are pairs**, and each of them is read as its own byte. -/
theorem readPairs_eq_some_iff : readPairs ds = some bs ↔ Pairs ds bs := by
  refine ⟨fun h => ?_, fun h => ?_⟩
  · fun_induction readPairs ds generalizing bs with
    | case1 =>
      obtain rfl := Option.some.inj h
      exact .nil
    | case2 a b ds v tail htail hv ih =>
      obtain rfl := Option.some.inj h
      exact .cons (readUnsigned_eq_some_iff.1 hv) (ih htail)
    | case3 => cases h
    | case4 => cases h
  · induction h with
    | nil => rfl
    | cons hpair _ ih => simp only [readPairs, readUnsigned_eq_some_iff.2 hpair, ih]

theorem Pairs.length_eq (h : Pairs ds bs) : ds.length = 2 * bs.length := by
  induction h with
  | nil => rfl
  | cons _ _ ih =>
    simp only [List.length_cons, ih]
    omega

/-- the digits of a byte are a pair -/
theorem spells_cons_iff {byte : UInt8} : Spells (a :: b :: ds) (byte :: bs) ↔
    digitOf 16 a = some (byte.toNat / 16) ∧ digitOf 16 b = some (byte.toNat % 16) ∧ Spells ds bs := by
  simp [Spells]

theorem Spells.pairs (h : Spells ds bs) : Pairs ds bs := by
  induction bs generalizing ds with
  | nil =>
    obtain rfl : ds = [] := by simpa [Spells] using h
    exact .nil
  | cons byte bs ih =>
    match ds with
    | [] => simp [Spells] at h
    | [a] => simp [Spells] at h
    | a :: b :: ds =>
      obtain ⟨ha, hb, hrest⟩ := spells_cons_iff.1 h
      have hpair := Pairs.cons (.digits ha hb) (ih hrest)
      rwa [Nat.div_add_mod, UInt8.ofNat_toNat] at hpair

theorem Spells.plus_not_mem (h : Spells ds bs) : '+' ∉ ds := by
  intro hplus
  have hnone : none ∈ ds.map (digitOf 16) := List.mem_map.2 ⟨'+', hplus, digitOf_plus 16⟩
  rw [h] at hnone
  simp at hnone

/-- **Without a plus sign, pairs are the digits of bytes.** -/
theorem spells_iff_pairs : Spells ds bs ↔ Pairs ds bs ∧ '+' ∉ ds := by
  refine ⟨fun h => ⟨h.pairs, h.plus_not_mem⟩, ?_⟩
  intro ⟨h, hplus⟩
  induction h with
  | nil => rfl
  | @cons a b v ds bs hpair _ ih =>
    have hrest : '+' ∉ ds := fun h => hplus (List.mem_cons_of_mem a (List.mem_cons_of_mem b h))
    have hlt := hpair.lt
    cases hpair with
    | signed _ => exact absurd List.mem_cons_self hplus
    | digits ha hb =>
      have hy := digitOf_lt hb
      refine spells_cons_iff.2 ⟨?_, ?_, ih hrest⟩
      · rw [ha, UInt8.toNat_ofNat_of_lt' hlt]
        congr 1
        omega
      · rw [hb, UInt8.toNat_ofNat_of_lt' hlt]
        congr 1
        omega

/-! ## Texts without a mark -/

/-- the characters of a text that are no blanks -/
def solid (t : List Char) : List Char := t.filter fun c => !isBlank c

theorem solid_trim (t : List Char) : solid (trim t) = solid t := filter_trim t

theorem readHex_eq (n : Nat) (t : List Char) : readHex n t =
    if (solid t).length = 2 * n then
      match readPairs (solid t) with
      | some bs => .ok bs
      | none => .error (.badHex (String.ofList t) n)
    else .error (.badHex (String.ofList t) n) := rfl

/-- **A text without a mark is read as the bytes of its pairs**, if they are as many as were asked for. -/
theorem readHex_eq_ok_iff {t : List Char} :
    readHex n t = .ok bs ↔ bs.length = n ∧ Pairs (solid t) bs := by
  rw [readHex_eq]
  refine ⟨fun h => ?_, fun ⟨hlen, hpairs⟩ => ?_⟩
  · split at h
    · next hlen =>
      split at h
      · next found hfound =>
        obtain rfl := Except.ok.inj h
        have hpairs := readPairs_eq_some_iff.1 hfound
        have hcount := hpairs.length_eq
        exact ⟨by omega, hpairs⟩
      · cases h
    · cases h
  · have hcount := hpairs.length_eq
    rw [if_pos (by omega), readPairs_eq_some_iff.2 hpairs]

/-- and refused if there are no such pairs -/
theorem readHex_eq_error {t : List Char} (h : ∀ bs, bs.length = n → ¬ Pairs (solid t) bs) :
    readHex n t = .error (.badHex (String.ofList t) n) := by
  cases hread : readHex n t with
  | ok bs =>
    obtain ⟨hlen, hpairs⟩ := readHex_eq_ok_iff.1 hread
    exact absurd hpairs (h bs hlen)
  | error e =>
    rw [readHex_eq] at hread
    split at hread
    · split at hread
      · cases hread
      · exact hread.symm
    · exact hread.symm

end Value

open Text Value

namespace Kind

variable {k : Kind} {text : String} {size : Nat}

/-- A text is read as the bytes that its digits spell, two digits for each byte of the kind, and refused if its digits spell
no such bytes. -/
def ReadsAsSpelled (k : Kind) (text : String) (size : Nat) : Prop :=
  (∀ bs, k.readValue text size = .ok bs ↔ bs.length = k.width ∧ Spells (solid text.toList) bs) ∧
    ((∀ bs, bs.length = k.width → ¬ Spells (solid text.toList) bs) →
      k.readValue text size = .error (.badHex (String.ofList (trim text.toList)) k.width))

section Unmarked

variable (hk : k.isRaw) (hne : trim text.toList ≠ []) (hmark : afterHexMark (trim text.toList) = none)

include hk hne hmark

theorem readValue_unmarked (size : Nat) : k.readValue text size = readHex k.width (trim text.toList) := by
  rw [readValue, readChars_raw hne size hk, hmark]
  rfl

theorem readValue_eq_ok_iff (size : Nat) (bs : Bytes) :
    k.readValue text size = .ok bs ↔ bs.length = k.width ∧ Pairs (solid text.toList) bs := by
  rw [readValue_unmarked hk hne hmark, readHex_eq_ok_iff, solid_trim]

/-- **Raw bytes are read as their digits spell them, save for a plus sign.** What a text without a mark is read as are its
pairs, and it is refused if it has none for each byte of the kind. So it is read as the bytes that its digits spell, and
refused if they spell none, if and only if it is not among those that are read with a plus sign. -/
theorem readValue_pairs_iff (size : Nat) :
    (∀ bs, k.readValue text size = .ok bs ↔ bs.length = k.width ∧ Pairs (solid text.toList) bs) ∧
      (k.ReadsAsSpelled text size ↔
        ¬ ∃ bs, bs.length = k.width ∧ Pairs (solid text.toList) bs ∧ '+' ∈ solid text.toList) := by
  have hread := readValue_eq_ok_iff hk hne hmark size
  refine ⟨hread, fun ⟨hspelled, _⟩ ⟨bs, hlen, hpairs, hplus⟩ => ?_, fun hno => ?_⟩
  · exact ((hspelled bs).1 ((hread bs).2 ⟨hlen, hpairs⟩)).2.plus_not_mem hplus
  · -- pairs of so many bytes have no plus sign, so their digits spell the bytes
    have hspells : ∀ bs, bs.length = k.width → (Pairs (solid text.toList) bs ↔ Spells (solid text.toList) bs) := by
      intro bs hlen
      rw [spells_iff_pairs]
      exact ⟨fun hpairs => ⟨hpairs, fun hplus => hno ⟨bs, hlen, hpairs, hplus⟩⟩, And.left⟩
    refine ⟨fun bs => ?_, fun hnone => ?_⟩
    · rw [hread]
      exact and_congr_right (hspells bs)
    · rw [readValue_unmarked hk hne hmark, readHex_eq_error]
      intro bs hlen
      rw [solid_trim]
      exact mt (hspells bs hlen).1 (hnone bs hlen)

end Unmarked

/-- two bytes, with a blank inside the second of them -/
theorem readValue_pairs_iff_blank : let text := " 0eF\t0 "
    hex16.isRaw ∧ trim text.toList ≠ [] ∧ afterHexMark (trim text.toList) = none ∧
      hex16.readValue text 5 = .ok [0x0e, 0xf0] ∧ hex16.ReadsAsSpelled text 5 := by
  intro text
  have hne : trim text.toList ≠ [] := by decide
  have hpairs := readValue_pairs_iff (k := hex16) rfl hne (by decide) 5
  refine ⟨rfl, hne, by decide, by decide, hpairs.2.2 ?_⟩
  intro ⟨_, _, _, hplus⟩
  exact absurd hplus (by decide)

/-- a plus sign and one digit are read as a byte, though they are no two digits -/
theorem readValue_signed_pair : hex8.isRaw ∧ trim "+A".toList ≠ [] ∧ afterHexMark (trim "+A".toList) = none ∧
    hex8.readValue "+A" 1 = .ok [0x0a] ∧ ¬ hex8.ReadsAsSpelled "+A" 1 := by
  have hread : hex8.readValue "+A" 1 = .ok [0x0a] := by decide
  refine ⟨rfl, by decide, by decide, hread, fun ⟨hspelled, _⟩ => ?_⟩
  exact absurd ((hspelled [0x0a]).1 hread).2 (by decide)

end Kind

end ByteAtlas
