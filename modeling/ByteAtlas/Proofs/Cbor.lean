/-
What is written in CBOR says what it is and where it ends.

`Delimits V write`: from what is written for a value, with anything after it, the value and the rest can be told, among
the values in `V`. The head of an item delimits the numbers below 2^64, of which a longer one would be cut off; texts,
lists and the members of a map delimit what they are made of.

- `delimits_head`: the first byte of a head says how many bytes follow, and these hold the number.
- `delimits_text`, `Delimits.list`, `Delimits.member`: items made of smaller ones.
-/
import Mathlib.Tactic
import ByteAtlas.Cbor
import ByteAtlas.Proofs.Text.Utf8

namespace ByteAtlas.Cbor

variable {α : Type} {V : α → Prop} {write : α → Bytes}

/-- what is written for a value in `V` tells the value and where it ends, whatever comes after it -/
def Delimits (V : α → Prop) (write : α → Bytes) : Prop :=
  ∀ a b, V a → V b → ∀ r s, write a ++ r = write b ++ s → a = b ∧ r = s

/-! ## Heads -/

/-- the low bits of the first byte of a head -/
def low (v : Nat) : Nat :=
  if v < 24 then v else if v < UInt8.size then 24 else if v < UInt16.size then 25 else if v < UInt32.size then 26 else 27

/-- how many bytes of a head come after the first -/
def width (v : Nat) : Nat :=
  if v < 24 then 0 else if v < UInt8.size then 1 else if v < UInt16.size then 2 else if v < UInt32.size then 4 else 8

theorem head_eq (major v : Nat) : head major v = UInt8.ofNat (32 * major + low v) :: bigEndian (width v) v := by
  unfold head low width
  split_ifs <;> rfl

theorem low_lt (v : Nat) : low v < 32 := by
  unfold low
  split_ifs <;> omega

theorem width_eq_of_low_eq {v w : Nat} (h : low v = low w) : width v = width w := by
  unfold low at h
  unfold width
  split_ifs at h ⊢ <;> omega

theorem eq_of_low_eq {v w : Nat} (h : low v = low w) (hw : width v = 0) : v = w := by
  unfold low at h
  unfold width at hw
  split_ifs at h hw <;> omega

/-- a number that takes bytes of its own fits into them -/
theorem lt_capacity_width {v : Nat} (hv : v < UInt64.size) (hw : width v ≠ 0) : v < Bytes.capacity (width v) := by
  unfold width at hw ⊢
  split_ifs at hw ⊢ with h1 h2 h3 h4
  · exact absurd rfl hw
  · exact h2
  · exact h3
  · exact h4
  · exact hv

theorem length_bigEndian (n v : Nat) : (bigEndian n v).length = n := by
  rw [bigEndian, List.length_reverse, Bytes.length_ofNat]

theorem bigEndian_inj {n v w : Nat} (hv : v < Bytes.capacity n) (hw : w < Bytes.capacity n)
    (h : bigEndian n v = bigEndian n w) : v = w := by
  have hbytes : Bytes.ofNat n v = Bytes.ofNat n w := List.reverse_inj.1 h
  calc v = v % Bytes.capacity n := (Nat.mod_eq_of_lt hv).symm
    _ = Bytes.toNat (Bytes.ofNat n v) := (Bytes.toNat_ofNat n v).symm
    _ = Bytes.toNat (Bytes.ofNat n w) := by rw [hbytes]
    _ = w % Bytes.capacity n := Bytes.toNat_ofNat n w
    _ = w := Nat.mod_eq_of_lt hw

/-- **A head delimits its number.** -/
theorem delimits_head (major : Nat) : Delimits (· < UInt64.size) (head major) := by
  intro v w hv hw r s h
  rw [head_eq, head_eq, List.cons_append, List.cons_append, List.cons.injEq] at h
  obtain ⟨hfirst, hrest⟩ := h
  have hlow : low v = low w := by
    have hv' := low_lt v
    have hw' := low_lt w
    have hnat := congrArg UInt8.toNat hfirst
    rw [UInt8.toNat_ofNat', UInt8.toNat_ofNat'] at hnat
    omega
  have hwidth := width_eq_of_low_eq hlow
  have hsame : (bigEndian (width v) v).length = (bigEndian (width w) w).length := by
    rw [length_bigEndian, length_bigEndian, hwidth]
  obtain ⟨hnumber, hrs⟩ := List.append_inj hrest hsame
  refine ⟨?_, hrs⟩
  by_cases hzero : width v = 0
  · exact eq_of_low_eq hlow hzero
  · have hv' := lt_capacity_width hv hzero
    have hw' := lt_capacity_width hw (hwidth ▸ hzero)
    rw [← hwidth] at hnumber hw'
    exact bigEndian_inj hv' hw' hnumber

/-! ## Items -/

theorem delimits_nat : Delimits (· < UInt64.size) nat := delimits_head 0

/-- a machine word -/
theorem delimits_word : Delimits (fun _ : UInt64 => True) (fun n => nat n.toNat) := by
  intro v w _ _ r s h
  obtain ⟨hnat, hrs⟩ := delimits_nat _ _ v.toNat_lt w.toNat_lt r s h
  exact ⟨UInt64.toNat_inj.1 hnat, hrs⟩

/-- texts whose number of bytes is a machine word, as it is for every text in memory -/
def Holds (s : String) : Prop := (Text.Utf8.encode s.toList).length < UInt64.size

instance (s : String) : Decidable (Holds s) := inferInstanceAs (Decidable (_ < _))

theorem delimits_text : Delimits Holds text := by
  intro v w hv hw r s h
  simp only [text, List.append_assoc] at h
  obtain ⟨hlen, hrest⟩ := delimits_head _ _ _ hv hw _ _ h
  obtain ⟨hbytes, hrs⟩ := List.append_inj hrest hlen
  exact ⟨String.toList_inj.1 (Text.Utf8.encode_injective hbytes), hrs⟩

/-- items one after another, as many on both sides -/
theorem Delimits.flatten (hd : Delimits V write) {xs ys : List α} (hl : xs.length = ys.length) (hx : ∀ x ∈ xs, V x)
    (hy : ∀ y ∈ ys, V y) (h : (xs.map write).flatten = (ys.map write).flatten) : xs = ys := by
  induction xs generalizing ys with
  | nil => exact (List.length_eq_zero_iff.1 hl.symm).symm
  | cons x xs ih =>
    cases ys with
    | nil => simp at hl
    | cons y ys =>
      simp only [List.map_cons, List.flatten_cons] at h
      simp only [List.length_cons, Nat.add_right_cancel_iff] at hl
      obtain ⟨rfl, hrest⟩ := hd x y (hx x List.mem_cons_self) (hy y List.mem_cons_self) _ _ h
      have htail := ih hl (fun z hz => hx z (List.mem_cons_of_mem _ hz)) (fun z hz => hy z (List.mem_cons_of_mem _ hz)) hrest
      rw [htail]

/-- **A list delimits its items.** -/
theorem Delimits.list (hd : Delimits V write) {xs ys : List α} (hx : ∀ x ∈ xs, V x) (hy : ∀ y ∈ ys, V y)
    (hxs : xs.length < UInt64.size) (hys : ys.length < UInt64.size)
    (h : Cbor.list (xs.map write) = Cbor.list (ys.map write)) : xs = ys := by
  simp only [Cbor.list] at h
  obtain ⟨hlen, hitems⟩ := delimits_head _ _ _ (by simpa using hxs) (by simpa using hys) _ _ h
  rw [List.length_map, List.length_map] at hlen
  exact hd.flatten hlen hx hy hitems

/-- a member of a map delimits its value, after the same key and before other members -/
theorem Delimits.member (hd : Delimits V write) {a b : α} (ha : V a) (hb : V b) {key : String} {r s : Bytes}
    (h : text key ++ (write a ++ r) = text key ++ (write b ++ s)) : a = b ∧ r = s :=
  hd a b ha hb r s (List.append_cancel_left h)

end ByteAtlas.Cbor
