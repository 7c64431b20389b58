/-
Parts of records, read back: words, texts and truth values are what was written (`word?_ofWord`, `text?_ofString`), every
field of a record is found under its name (`fields?_ofMembers`), and a list is read back if its items are
(`mapM_map_of_forall`).
-/
import Mathlib
import ByteAtlas.Json.Record
import ByteAtlas.Proofs.Json.RoundTrip

namespace ByteAtlas.Json

/-! ## Single values -/

theorem nat?_ofNat {n limit : Nat} (h : n ≤ limit) : (ofNat n).nat? limit = some n := by
  have hdigits : (Nat.toDigits 10 n).all Char.isDigit = true :=
    List.all_eq_true.2 fun c hc => Nat.isDigit_of_mem_toDigits (by omega) le_rfl hc
  have hsome : (Nat.toDigits 10 n).isEmpty = false := List.isEmpty_eq_false_iff.2 Nat.toDigits_ne_nil
  rw [ofNat, nat?, hdigits, hsome, Nat.ofDigitChars_ten_toDigits]
  simp [h]

theorem word?_ofWord (n : UInt64) : (ofWord n).word? = some n := by
  rw [ofWord, word?, nat?_ofNat (Word.toNat_le_top n), Option.map_some, UInt64.ofNat_toNat]

theorem text?_ofString (s : String) : (ofString s).text? = some s := rfl

/-! ## Records -/

/-- a list that is read item by item -/
theorem mapM_map_eq_some {α β γ : Type} {write : α → β} {read : β → Option γ} {f : α → γ} {xs : List α}
    (h : ∀ x ∈ xs, read (write x) = some (f x)) : (xs.map write).mapM read = some (xs.map f) := by
  induction xs with
  | nil => rfl
  | cons x rest ih =>
    have hx := h x List.mem_cons_self
    have hrest := ih fun y hy => h y (List.mem_cons_of_mem _ hy)
    rw [List.map_cons, List.mapM_cons, hx, hrest]
    rfl

/-- a list that is read item by item from what was written for it -/
theorem mapM_map_of_forall {α β : Type} {write : α → β} {read : β → Option α} {xs : List α}
    (h : ∀ x ∈ xs, read (write x) = some x) : (xs.map write).mapM read = some xs := by
  rw [mapM_map_eq_some (f := fun x => x) h, List.map_id']

theorem filter_name_eq_nil {name : String} {ms : List (String × Json)} (h : name ∉ ms.map Prod.fst) :
    (ms.map fun x => ((some x.1 : Option String), x.2)).filter (fun x => x.1 == some name) = [] := by
  rw [List.filter_eq_nil_iff]
  intro y hy hyes
  obtain ⟨z, hz, rfl⟩ := List.mem_map.1 hy
  have hname : z.1 = name := by simpa using hyes
  exact h (hname ▸ List.mem_map_of_mem hz)

/-- there is nothing under a name that no member has -/
theorem onlyMember_of_not_mem {name : String} {ms : List (String × Json)} (h : name ∉ ms.map Prod.fst) :
    onlyMember name (ms.map fun x => (some x.1, x.2)) = some none := by
  rw [onlyMember, filter_name_eq_nil h]

/-- of several members with different names, one has a given name -/
theorem onlyMember_of_mem {ms : List (String × Json)} (hd : (ms.map Prod.fst).Nodup) {m : String × Json} (hm : m ∈ ms) :
    onlyMember m.1 (ms.map fun x => (some x.1, x.2)) = some (some m.2) := by
  have hfilter : (ms.map fun x => ((some x.1 : Option String), x.2)).filter (fun x => x.1 == some m.1) =
      [(some m.1, m.2)] := by
    induction ms with
    | nil => cases hm
    | cons x rest ih =>
      rw [List.map_cons, List.nodup_cons] at hd
      rcases List.mem_cons.1 hm with rfl | hm
      · rw [List.map_cons, List.filter_cons_of_pos (by simp), filter_name_eq_nil hd.1]
      · have hne : x.1 ≠ m.1 := fun e => hd.1 (e ▸ List.mem_map_of_mem hm)
        rw [List.map_cons, List.filter_cons_of_neg (by simpa using hne), ih hd.2 hm]
  rw [onlyMember, hfilter]

/-- a record is read by looking for a member under each name -/
theorem fields?_of_forall {ms left : List (String × Json)} {f : String × Json → Option Json}
    (h : ∀ m ∈ ms, onlyMember m.1 (left.map fun x => (some x.1, x.2)) = some (f m)) :
    fields? (ms.map Prod.fst) (ofMembers left) = some (ms.map f) := by
  have hread : fields? (ms.map Prod.fst) (ofMembers left) =
      (ms.map Prod.fst).mapM fun n => onlyMember n (left.map fun x => (some x.1, x.2)) := if_pos (by simp)
  rw [hread]
  exact mapM_map_eq_some h

/-- **Every field of a record is found under its name.** -/
theorem fields?_ofMembers {names : List String} {values : List Json} (hd : names.Nodup)
    (hl : names.length = values.length) : fields? names (ofMembers (names.zip values)) = some (values.map some) := by
  have hnames : (names.zip values).map Prod.fst = names := List.map_fst_zip hl.le
  have hvalues : (names.zip values).map (fun m => some m.2) = values.map some := by
    conv_rhs => rw [← List.map_snd_zip hl.ge, List.map_map]
    rfl
  have hfound := fields?_of_forall fun m hm => onlyMember_of_mem (hnames.symm ▸ hd) hm
  rwa [hnames, hvalues] at hfound

end ByteAtlas.Json
