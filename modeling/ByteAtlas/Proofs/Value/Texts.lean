/-
What becomes of a text that is stored in a value of fixed length. Its bytes are cut off or filled up with zeros wherever the
value ends, and a value is shown up to its first zero, so that the end may fall inside a character.

- `Kind.showValue_readValue`: a text that fits is shown as it was typed, up to its first NUL. Of a longer one those characters
  are left that fit, with U+FFFD behind them if a part of the next one has been stored.
- `Kind.showValue_readValue_showValue`: when a value stays what it is after the text that it shows has been stored in it. In
  UTF-16 it always does. In UTF-8 a byte that is no character turns into the three bytes of U+FFFD, and the text may have
  become too long.
-/
import Mathlib.Tactic
import ByteAtlas.Proofs.Text.Utf8
import ByteAtlas.Proofs.Text.Utf16
import ByteAtlas.Value.Read
import ByteAtlas.Value.Show

namespace ByteAtlas

open Text

namespace Kind

def unitSize (k : Kind) : Nat := if k = utf16 then 2 else 1

def encoded (k : Kind) (cs : List Char) : Bytes :=
  if k = utf16 then Utf16.toBytes (Utf16.encode cs) else Utf8.encode cs

/-- What is left of characters in so many bytes: all of them if they fit. If they do not, those that fit, and U+FFFD for a
part of the next one. -/
def Leaves (k : Kind) (size : Nat) (cs left : List Char) : Prop :=
  (k.encoded cs).length ≤ size ∧ left = cs ∨
    ∃ kept c rest, cs = kept ++ c :: rest ∧ (k.encoded kept).length ≤ size ∧ size < (k.encoded (kept ++ [c])).length ∧
      left = kept ++ if (k.encoded kept).length + k.unitSize ≤ size then ['\ufffd'] else []

/-- what is left of characters in so many bytes -/
def fitted (k : Kind) (size : Nat) (cs : List Char) : List Char :=
  if k = utf16 then Utf16.coding.fitted (size / 2) cs else Utf8.coding.fitted size cs

variable {k : Kind} {size : Nat} {cs : List Char}

theorem cases_isText (hk : k.isText) : k = utf8 ∨ k = utf16 := by
  cases k <;> simp [isText] at hk ⊢

theorem length_encoded_utf16 (cs : List Char) : (utf16.encoded cs).length = 2 * (Utf16.coding.encode cs).length :=
  Utf16.length_toBytes _

theorem leaves_fitted (hk : k.isText) (size : Nat) (cs : List Char) : k.Leaves size cs (k.fitted size cs) := by
  rcases cases_isText hk with rfl | rfl
  · exact Utf8.coding.fitted_cases size cs
  · unfold Leaves fitted
    simp only [length_encoded_utf16, unitSize, if_true]
    rcases Utf16.coding.fitted_cases (size / 2) cs with ⟨hfits, hwhole⟩ | ⟨kept, c, rest, hcs, hkept, hnext, hcut⟩
    · exact .inl ⟨by omega, hwhole⟩
    · have hspace : (Utf16.coding.encode kept).length < size / 2 ↔ 2 * (Utf16.coding.encode kept).length + 2 ≤ size := by
        omega
      exact .inr ⟨kept, c, rest, hcs, by omega, by omega, by simpa only [hspace] using hcut⟩

end Kind

namespace Value

variable {k : Kind}

theorem readChars_text (hk : k.isText) (cs : List Char) (size : Nat) :
    readChars k cs size = .ok ((k.encoded cs).resize size) := by
  rcases Kind.cases_isText hk with rfl | rfl
  · simp [readChars, Kind.isText, Kind.encoded]
  · simp [readChars, Kind.isText, Kind.encoded]

/-- what is shown of characters that have been cut off or filled up -/
theorem showChars_resize (hk : k.isText) (cs : List Char) (size : Nat) :
    showChars k ((k.encoded cs).resize size) = k.fitted size (beforeNul cs) := by
  rcases Kind.cases_isText hk with rfl | rfl
  · exact Utf8.coding.decode_written size _ cs
  · have hunits := Utf16.ofBytes_resize (Utf16.encode cs) (Utf16.encode_lt cs) size
    calc
      showChars .utf16 ((Kind.utf16.encoded cs).resize size)
        = Utf16.decodeLossy ((Utf16.ofBytes (Bytes.resize size (Utf16.toBytes (Utf16.encode cs)))).takeWhile (· != 0)) := rfl
      _ = Kind.utf16.fitted size (beforeNul cs) := by
        rw [hunits]
        exact Utf16.coding.decode_written (size / 2) _ cs

/-- what is shown ends before the first NUL -/
theorem nul_not_mem_showChars (hk : k.isText) (bs : Bytes) : '\x00' ∉ showChars k bs := by
  rcases Kind.cases_isText hk with rfl | rfl
  · refine Utf8.nul_not_mem_decodeLossy _ fun hzero => ?_
    simpa using List.mem_takeWhile_imp hzero
  · refine Utf16.nul_not_mem_decodeLossy _ (fun u hu => ?_) fun hzero => ?_
    · exact Utf16.ofBytes_lt bs u ((List.takeWhile_prefix _).subset hu)
    · simpa using List.mem_takeWhile_imp hzero

/-- in UTF-16 what is shown takes no more bytes than it was read from -/
theorem length_encoded_showChars (bs : Bytes) : (Kind.utf16.encoded (showChars .utf16 bs)).length ≤ bs.length := by
  have hunits : ((Utf16.ofBytes bs).takeWhile (· != 0)).length ≤ bs.length / 2 :=
    Utf16.length_ofBytes bs ▸ (List.takeWhile_prefix _).length_le
  have hread := Utf16.length_encode_decodeLossy ((Utf16.ofBytes bs).takeWhile (· != 0)) fun u hu =>
    Utf16.ofBytes_lt bs u ((List.takeWhile_prefix _).subset hu)
  rw [Kind.length_encoded_utf16]
  change 2 * (Utf16.encode (Utf16.decodeLossy _)).length ≤ _
  omega

end Value

open Value

namespace Kind

variable {k : Kind}

theorem readValue_text (hk : k.isText) (text : String) (size : Nat) :
    k.readValue text size = .ok ((k.encoded text.toList).resize size) := readChars_text hk text.toList size

/-- **A text that fits is shown as it was typed**, up to its first NUL. Of a longer one those characters are left that fit,
with U+FFFD behind them if and only if the value ends inside the next one. -/
theorem showValue_readValue (hk : k.isText) (text : String) (size : Nat) : ∃ bs, k.readValue text size = .ok bs ∧
    k.Leaves size (beforeNul text.toList) (k.showValue bs).toList := by
  refine ⟨_, readValue_text hk text size, ?_⟩
  rw [showValue, String.toList_ofList, showChars_resize hk]
  exact leaves_fitted hk size _

/-- of two characters in two bytes there is one left and a part of the other -/
theorem showValue_readValue_part : utf8.isText ∧ ∃ bs, utf8.readValue "aé" 2 = .ok bs ∧
    utf8.Leaves 2 ['a', 'é'] (utf8.showValue bs).toList :=
  ⟨rfl, showValue_readValue rfl "aé" 2⟩

/-- what is shown of a text that has been cut off need not start the text -/
theorem showValue_readValue_not_start : utf8.isText ∧ utf8.readValue "aé" 2 = .ok [0x61, 0xc3] ∧
    utf8.showValue [0x61, 0xc3] = "a\ufffd" ∧ ¬ (utf8.showValue [0x61, 0xc3]).toList <+: "aé".toList := by
  decide

/-- **The text that a value shows can be stored in it without a change of what it shows**, in UTF-16 always, in UTF-8 if and
only if the text fits, or ends in a U+FFFD of which nothing but a part is missing. -/
theorem showValue_readValue_showValue (hk : k.isText) (bs : Bytes) :
    ∃ again, k.readValue (k.showValue bs) bs.length = .ok again ∧ (k.showValue again = k.showValue bs ↔
      k = utf16 ∨ (k.encoded (k.showValue bs).toList).length ≤ bs.length ∨
        ∃ front, (k.showValue bs).toList = front ++ ['\ufffd'] ∧ (k.encoded front).length < bs.length) := by
  refine ⟨_, readValue_text hk _ _, ?_⟩
  have hagain : k.showValue ((k.encoded (k.showValue bs).toList).resize bs.length) = k.showValue bs ↔
      k.fitted bs.length (showChars k bs) = showChars k bs := by
    rw [showValue, showValue, String.toList_ofList, showChars_resize hk, beforeNul_of_not_mem (nul_not_mem_showChars hk bs),
      String.ofList_inj]
  rw [hagain, showValue, String.toList_ofList]
  rcases cases_isText hk with rfl | rfl
  · exact Utf8.coding.fitted_eq_self_iff.trans (or_iff_right (by decide)).symm
  · have hfits := length_encoded_showChars bs
    rw [length_encoded_utf16] at hfits
    simpa [fitted] using Utf16.coding.fitted_eq_self (n := bs.length / 2) (by omega)

/-- the letter does not fit behind the U+FFFD that is stored for the byte in front of it -/
theorem showValue_readValue_showValue_longer : utf8.isText ∧ utf8.showValue [0xff, 0x61] = "\ufffda" ∧
    utf8.readValue "\ufffda" 2 = .ok [0xef, 0xbf] ∧ utf8.showValue [0xef, 0xbf] = "\ufffd" ∧
    utf8.showValue [0xef, 0xbf] ≠ utf8.showValue [0xff, 0x61] := by
  decide

/-- a first surrogate alone, and a last byte that belongs to no unit -/
theorem showValue_readValue_showValue_alone : let bs : Bytes := [0x00, 0xd8, 0x61, 0x00, 0x7a]
    utf16.isText ∧ utf16.showValue bs = "\ufffda" ∧
      ∃ again, utf16.readValue (utf16.showValue bs) bs.length = .ok again ∧ utf16.showValue again = utf16.showValue bs := by
  intro bs
  obtain ⟨again, hread, hshown⟩ := showValue_readValue_showValue (k := utf16) rfl bs
  exact ⟨rfl, by decide, again, hread, hshown.2 (.inl rfl)⟩

end Kind

end ByteAtlas
