/-
Texts that a listing cuts. Of a text no more than the first bytes are read, and a mark is put behind them unless one of
them ends the text. The bytes behind them are not read, so the mark also stands where nothing is hidden: the text may end
right behind the bytes that are read, or go on with the rest of a sequence that is shown as one U+FFFD either way.

- `Kind.showValue_append_eq_self_iff`: what bytes behind a block of text add nothing to it.
- `Listing.Row.fill_cut`: what a row shows of a text that is cut, and when it is marked.
-/
import ByteAtlas.Listing.Values
import ByteAtlas.Source.Image
import ByteAtlas.Proofs.Source.Buffer
import ByteAtlas.Proofs.Text.Continued
import ByteAtlas.Proofs.Value.Texts

namespace ByteAtlas

open Text Value

/-! ## What can be read -/

namespace Source

variable {τ : Type} [Transport τ]

/-- the bytes from an address on are these, however many of them are read -/
def Spans (s : Source τ) (address : UInt64) (bs : Bytes) : Prop := ∀ n ≤ bs.length, (s.read address n).1 = some (bs.take n)

/-- of a block in memory any part can be read if the whole can -/
theorem spans_buffer {b : Buffer} {address : UInt64} {bs : Bytes} (h : b.read address bs.length = some bs) :
    (Source.buffer b : Source τ).Spans address bs := by
  intro n hn
  have hread : b.read address n = some (bs.take n) := by
    unfold Buffer.read at h ⊢
    by_cases hnone : n = 0
    · rw [if_pos hnone, hnone, List.take_zero]
    · rw [if_neg (by omega)] at h
      rw [if_neg hnone]
      obtain ⟨i, hi, hbytes⟩ := Option.map_eq_some_iff.1 h
      obtain ⟨horigin, hin, rfl⟩ := Bytes.start?_eq_some_iff.1 hi
      have hstart : b.data.start? b.base address n = some (address.toNat - b.base.toNat) :=
        Bytes.start?_eq_some_iff.2 ⟨horigin, by omega, rfl⟩
      rw [Bytes.readAt, hstart, Option.map_some, ← hbytes, List.take_take, Nat.min_eq_left hn]
  rw [Source.read, hread]

/-- a block in memory consists of its bytes -/
theorem spans_data (b : Buffer) : (Source.buffer b : Source τ).Spans b.base b.data := by
  refine spans_buffer ?_
  have hstart : b.data.start? b.base b.base b.data.length = some 0 :=
    Bytes.start?_eq_some_iff.2 ⟨UInt64.le_refl _, by omega, (Nat.sub_self _).symm⟩
  rw [Buffer.read, Bytes.readAt, hstart, Option.map_some, List.drop_zero, List.take_length]
  split_ifs with hnone
  · rw [List.length_eq_zero_iff.1 hnone]
  · rfl

end Source

/-! ## Texts that go on -/

namespace Kind

variable {k : Kind} {shown rest : Bytes}

/-- A text that has no end in the bytes that are shown and is nevertheless shown as a whole: it ends right behind them, or,
in UTF-8, it goes on with bytes that are shown together with the last ones of them as one U+FFFD. -/
def EndsBehind (k : Kind) (shown rest : Bytes) : Prop :=
  endsWithin k shown = false ∧
    if k = utf16 then (Utf16.ofBytes rest).takeWhile (· != 0) = []
    else Utf8.Completes shown (rest.takeWhile (· != 0))

/-- **Bytes behind a block of text add nothing to it if and only if it ends within the block or right behind it.** -/
theorem showValue_append_eq_self_iff (hk : k.isText) (heven : shown.length % 2 = 0) (rest : Bytes) :
    k.showValue (shown ++ rest) = k.showValue shown ↔ endsWithin k shown = true ∨ k.EndsBehind shown rest := by
  rw [showValue, showValue, String.ofList_inj]
  rcases cases_isText hk with rfl | rfl
  · simp only [showChars, EndsBehind, endsWithin, decode_takeWhile_append_iff, Utf8.decodeLossy_append_eq_self_iff,
      reduceCtorEq, if_false, List.contains_eq_mem, decide_eq_true_eq, decide_eq_false_iff_not]
  · simp only [showChars, EndsBehind, endsWithin, Utf16.ofBytes_append heven, decode_takeWhile_append_iff,
      Utf16.decodeLossy_append_eq_self_iff, if_true, List.contains_eq_mem, decide_eq_true_eq, decide_eq_false_iff_not]

end Kind

/-! ## Rows -/

namespace Listing.Row

variable {τ : Type} [Transport τ] {s : Source τ} {r : Listing.Row} {bs whole : Bytes}

/-- what a row shows of a text that is cut is decided by the bytes that are read -/
theorem fill_text (hk : r.kind.isText) (hrole : r.role = .field ∨ r.role = .arrayElement)
    (hlong : shownBytes < r.size.toNat) (hread : (s.read r.address shownBytes).1 = some bs) :
    (r.fill s).1.value = r.kind.showValue bs ++ if endsWithin r.kind bs then "" else ".." := by
  have hvalue : r.kind.hasValue = true ∧ r.kind.isPointer = false := by
    rcases Kind.cases_isText hk with hkind | hkind <;> rw [hkind] <;> exact ⟨rfl, rfl⟩
  have hmin : min r.size.toNat shownBytes = shownBytes := Nat.min_eq_right hlong.le
  have hfill : (r.fill s).1.value = (r.fieldValue s).1 := by
    rcases hrole with hrole | hrole <;> simp [fill, hrole, hvalue.1]
  rw [hfill]
  simp only [fieldValue, Source.readOrZeros, hmin, hread, hvalue.2, hlong, Option.getD_some, decide_true, Bool.true_and,
    Bool.false_eq_true, if_false]
  cases endsWithin r.kind bs <;> rfl

/-- **Of a text that is longer than what is read of it, the text of the first bytes is shown. It is marked if and only if the
whole text looks different, or has no end in these bytes and ends right behind them.** -/
theorem fill_cut (hk : r.kind.isText) (hrole : r.role = .field ∨ r.role = .arrayElement)
    (hlong : shownBytes < r.size.toNat) (hlen : whole.length = r.size.toNat) (hread : s.Spans r.address whole) :
    ∃ mark, (r.fill s).1.value = r.kind.showValue (whole.take shownBytes) ++ mark ∧ (mark = ".." ∨ mark = "") ∧
      (mark = ".." ↔ r.kind.showValue whole ≠ r.kind.showValue (whole.take shownBytes) ∨
        r.kind.EndsBehind (whole.take shownBytes) (whole.drop shownBytes)) := by
  have hfirst : (s.read r.address shownBytes).1 = some (whole.take shownBytes) := hread _ (by omega)
  have heven : (whole.take shownBytes).length % 2 = 0 := by
    rw [List.length_take_of_le (by omega)]
    rfl
  have hsame := Kind.showValue_append_eq_self_iff hk heven (whole.drop shownBytes)
  rw [List.take_append_drop] at hsame
  refine ⟨_, fill_text hk hrole hlong hfirst, ?_⟩
  rw [ne_eq, hsame]
  cases hend : endsWithin r.kind (whole.take shownBytes) with
  | false => exact ⟨.inl rfl, iff_of_true rfl (by tauto)⟩
  | true => simp [Kind.EndsBehind, hend]

/-- a text that ends within the bytes that are read -/
theorem fill_cut_unmarked :
    let whole : Bytes := 0x61 :: List.replicate 299 0
    let s : Source Image := .buffer ⟨whole, "", 0⟩
    let r : Listing.Row := ⟨1, .utf8, .field, 0, 300, 0, "text", "UTF8[300]", none, ""⟩
    r.kind.isText ∧ r.role = .field ∧ shownBytes < r.size.toNat ∧ whole.length = r.size.toNat ∧
      s.Spans r.address whole ∧ (r.fill s).1.value = "a" := by
  intro whole s r
  have hlen : whole.length = r.size.toNat := by
    simp only [whole, List.length_cons, List.length_replicate]
    rfl
  have hread : s.Spans r.address whole := Source.spans_data ⟨whole, "", 0⟩
  obtain ⟨mark, hvalue, hmark, hmarked⟩ := fill_cut (r := r) (s := s) rfl (.inl rfl) (by decide) hlen hread
  have hshown : r.kind.showValue (whole.take shownBytes) = "a" := by decide
  have hwhole : r.kind.showValue whole = "a" := by decide
  have hend : endsWithin r.kind (whole.take shownBytes) = true := by decide
  have hnone : mark ≠ ".." := by simp [hmarked, hwhole, hshown, Kind.EndsBehind, hend]
  rw [hshown, hmark.resolve_left hnone] at hvalue
  exact ⟨rfl, rfl, by decide, hlen, hread, hvalue⟩

/-- **The mark also stands where nothing is hidden**: the byte that ends this text is the first one that is not read. -/
theorem fill_cut_marked :
    let whole : Bytes := List.replicate 256 0x61 ++ [0]
    let s : Source Image := .buffer ⟨whole, "", 0⟩
    let r : Listing.Row := ⟨1, .utf8, .field, 0, 257, 0, "text", "UTF8[257]", none, ""⟩
    s.Spans r.address whole ∧ r.kind.showValue whole = r.kind.showValue (whole.take shownBytes) ∧
      (r.fill s).1.value = r.kind.showValue (whole.take shownBytes) ++ ".." := by
  intro whole s r
  have hread : s.Spans r.address whole := Source.spans_data ⟨whole, "", 0⟩
  have hlen : whole.length = 257 := by simp only [whole, List.length_append, List.length_replicate, List.length_singleton]
  have hshown : whole.take shownBytes = List.replicate 256 0x61 := List.take_left' List.length_replicate
  have hopen : endsWithin r.kind (List.replicate 256 0x61) = false := by
    rw [endsWithin, if_neg (by decide), List.contains_eq_mem, decide_eq_false_iff_not]
    exact fun hend => absurd (List.eq_of_mem_replicate hend) (by decide)
  have hsame : r.kind.showValue whole = r.kind.showValue (List.replicate 256 0x61) :=
    (Kind.showValue_append_eq_self_iff rfl (congrArg (· % 2) List.length_replicate) [0]).2 (.inr ⟨hopen, .inl rfl⟩)
  have hfirst : (s.read r.address shownBytes).1 = some (List.replicate 256 0x61) := by
    rw [hread shownBytes (by rw [hlen]; decide), hshown]
  have hvalue := fill_text (r := r) (s := s) rfl (.inl rfl) (by decide) hfirst
  rw [hopen] at hvalue
  rw [hshown]
  exact ⟨hread, hsame, hvalue⟩

end Listing.Row

end ByteAtlas
