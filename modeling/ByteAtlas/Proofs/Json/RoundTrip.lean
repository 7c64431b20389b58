/-
Values spread over lines, read back. `Plain` values are those whose numbers are whole and whose strings spell texts; all
records of the library are written as such.

A value is read back in front of anything that cannot go on with a number (`ReadsBack`), since numbers are the only values
without an end mark. Every step down into a value takes at least one character of its text, so the length of the text
bounds the nesting that the reader has to follow. `Json.ofText?_pretty` is the result for whole texts.
-/
import ByteAtlas.Proofs.Json.Scan
import ByteAtlas.Proofs.Text.Digits

namespace ByteAtlas.Json

/-- a value whose numbers are whole and whose strings spell texts -/
inductive Plain : Json → Prop
  | null : Plain .null
  | bool (b : Bool) : Plain (.bool b)
  | number (n : Nat) : Plain (.ofNat n)
  | text (s : String) : Plain (.ofString s)
  | array {items : List Json} (h : ∀ j ∈ items, Plain j) : Plain (.array items)
  | object {ms : List (String × Json)} (h : ∀ m ∈ ms, Plain m.2) : Plain (.ofMembers ms)

/-! ## Gaps -/

theorem skipGaps_newLine (level : Nat) (s : Input) : skipGaps ((newLine level).map some ++ s) = skipGaps s := by
  have hblanks : ∀ n : Nat, skipGaps ((List.replicate n ' ').map some ++ s) = skipGaps s := by
    intro n
    induction n with
    | zero => rfl
    | succ n ih => rw [List.replicate_succ, List.map_cons, List.cons_append, skipGaps, if_pos (by decide), ih]
  rw [newLine, List.map_cons, List.cons_append, skipGaps, if_pos (by decide), hblanks]

theorem skipGaps_cons {c : Char} (hc : isGap c = false) (s : Input) : skipGaps (some c :: s) = some c :: s := by
  rw [skipGaps, hc, if_neg Bool.false_ne_true]

/-- gaps in front of a value do not matter -/
theorem readValue_congr {s s' : Input} (h : skipGaps s = skipGaps s') (depth : Nat) :
    readValue depth s = readValue depth s' := by
  cases depth with
  | zero => rfl
  | succ depth => rw [readValue, readValue, h]

theorem readItems_congr {s s' : Input} (h : skipGaps s = skipGaps s') (depth : Nat) :
    readItems depth s = readItems depth s' := by
  cases depth with
  | zero => rfl
  | succ depth => rw [readItems, readItems, readValue_congr h]

theorem readMembers_congr {s s' : Input} (h : skipGaps s = skipGaps s') (depth : Nat) :
    readMembers depth s = readMembers depth s' := by
  cases depth with
  | zero => rfl
  | succ depth => rw [readMembers, readMembers, h]

/-! ## Opening marks -/

theorem readValue_bracket {c : Char} {s rest : Input} (hs : skipGaps s = some c :: rest) (hc : c ≠ ']') (depth : Nat) :
    readValue (depth + 1) (some '[' :: s) = (readItems depth (some c :: rest)).map fun r => (.array r.1, r.2) := by
  rw [readValue, skipGaps_cons (by decide)]
  simp only [hs]
  split
  · next heq => exact absurd (Option.some.inj (List.cons.inj heq).1) hc
  · rfl

theorem readValue_brace {s rest : Input} (hs : skipGaps s = some '"' :: rest) (depth : Nat) :
    readValue (depth + 1) (some '\x7b' :: s) = (readMembers depth (some '"' :: rest)).map fun r => (.object r.1, r.2) := by
  rw [readValue, skipGaps_cons (by decide)]
  simp only [hs]
  rfl

theorem isGap_of_isDigit {c : Char} (hc : c.isDigit = true) : isGap c = false := by
  have hne : ∀ d : Char, d.isDigit = false → (c == d) = false := fun d hd =>
    beq_eq_false_iff_ne.2 (Text.ne_of_isDigit hc hd)
  rw [isGap, hne ' ' rfl, hne '\n' rfl, hne '\r' rfl, hne '\t' rfl]
  rfl

theorem readValue_digit {c : Char} (hc : c.isDigit = true) (s : Input) (depth : Nat) :
    readValue (depth + 1) (some c :: s) = (scanNumber (some c :: s)).map fun r => (.number r.1, r.2) := by
  rw [readValue, skipGaps_cons (isGap_of_isDigit hc)]
  split
  case h_7 => rfl
  -- no other value starts with a digit
  all_goals next h => exact absurd (Option.some.inj (List.cons.inj h).1) (Text.ne_of_isDigit hc rfl)

/-! ## Parts of a value -/

/-- a value is read back in front of anything that cannot go on with a number -/
def ReadsBack (j : Json) : Prop :=
  ∀ (level depth : Nat) (s : Input), (prettyChars level j).length ≤ depth → EndsNumber s →
    readValue depth ((prettyChars level j).map some ++ s) = some (j, s)

/-- every value starts with something that is neither a gap nor the end of an array -/
theorem Plain.exists_head {j : Json} (h : Plain j) (level : Nat) :
    ∃ c cs, prettyChars level j = c :: cs ∧ isGap c = false ∧ c ≠ ']' := by
  cases h with
  | null => exact ⟨_, _, rfl, rfl, by decide⟩
  | bool b => cases b <;> exact ⟨_, _, rfl, rfl, by decide⟩
  | number n =>
    obtain ⟨c, cs, hcons, hc⟩ := Text.exists_toDigits_eq_cons n
    exact ⟨c, cs, hcons, isGap_of_isDigit hc, Text.ne_of_isDigit hc rfl⟩
  | text s => exact ⟨_, _, rfl, rfl, by decide⟩
  | @array items _ => cases items <;> exact ⟨_, _, rfl, rfl, by decide⟩
  | @object ms _ => cases ms <;> exact ⟨_, _, rfl, rfl, by decide⟩

theorem endsNumber_prettyItems (level : Nat) (js : List Json) (s : Input) :
    EndsNumber ((prettyItems level js).map some ++ s) := by
  cases js <;> exact endsNumber_cons rfl (by decide) _

theorem endsNumber_prettyMembers (level : Nat) (ms : List (Option String × Json)) (s : Input) :
    EndsNumber ((prettyMembers level ms).map some ++ s) := by
  cases ms <;> exact endsNumber_cons rfl (by decide) _

/-! ## Items and members -/

/-- an item is read back, and what comes behind it tells whether there are more -/
theorem readItems_item {j : Json} (h : ReadsBack j) {level depth : Nat} (hdepth : (prettyChars level j).length ≤ depth)
    {after rest : Input} (hafter : EndsNumber after) :
    (skipGaps after = some ',' :: rest → readItems (depth + 1) ((prettyChars level j).map some ++ after) =
      (readItems depth rest).map fun r => (j :: r.1, r.2)) ∧
    (skipGaps after = some ']' :: rest →
      readItems (depth + 1) ((prettyChars level j).map some ++ after) = some ([j], rest)) := by
  rw [readItems, h level depth after hdepth hafter]
  constructor <;> intro hrest <;> simp only [hrest]

/-- the items of an array are read back up to its closing bracket -/
theorem readItems_pretty {level : Nat} {j : Json} {js : List Json} (h : ∀ i ∈ j :: js, ReadsBack i) {depth : Nat}
    (hdepth : (prettyChars (level + 1) j ++ prettyItems level js).length ≤ depth) (s : Input) :
    readItems depth ((prettyChars (level + 1) j ++ prettyItems level js).map some ++ s) = some (j :: js, s) := by
  induction js generalizing j depth with
  | nil =>
    have hend : skipGaps ((prettyItems level []).map some ++ s) = some ']' :: s := by
      rw [prettyItems, List.map_append, List.append_assoc, skipGaps_newLine]
      exact skipGaps_cons rfl s
    obtain ⟨depth, rfl⟩ : ∃ d, depth = d + 1 := ⟨depth - 1, by simp [prettyItems, newLine] at hdepth; omega⟩
    have hfirst : (prettyChars (level + 1) j).length ≤ depth := by simp [prettyItems, newLine] at hdepth; omega
    rw [List.map_append, List.append_assoc,
      (readItems_item (h j List.mem_cons_self) hfirst (endsNumber_prettyItems level [] s)).2 hend]
  | cons i rest ih =>
    have hmore : skipGaps ((prettyItems level (i :: rest)).map some ++ s) = some ',' ::
        ((newLine (level + 1)).map some ++ ((prettyChars (level + 1) i ++ prettyItems level rest).map some ++ s)) := by
      rw [prettyItems, List.append_assoc, List.cons_append, List.map_cons, List.map_append, List.cons_append,
        List.append_assoc]
      exact skipGaps_cons rfl _
    obtain ⟨depth, rfl⟩ : ∃ d, depth = d + 1 := ⟨depth - 1, by simp [prettyItems] at hdepth; omega⟩
    have hfirst : (prettyChars (level + 1) j).length ≤ depth := by simp [prettyItems] at hdepth; omega
    have hrest : (prettyChars (level + 1) i ++ prettyItems level rest).length ≤ depth := by
      simp [prettyItems] at hdepth ⊢
      omega
    rw [List.map_append, List.append_assoc,
      (readItems_item (h j List.mem_cons_self) hfirst (endsNumber_prettyItems level (i :: rest) s)).1 hmore,
      readItems_congr (skipGaps_newLine _ _), ih (fun k hk => h k (List.mem_cons_of_mem j hk)) hrest, Option.map_some]

def memberChars (level : Nat) (m : String × Json) : List Char :=
  writeText (some m.1) ++ ':' :: ' ' :: prettyChars level m.2

/-- a member is read back, and what comes behind it tells whether there are more -/
theorem readMembers_member {m : String × Json} (h : ReadsBack m.2) {level depth : Nat}
    (hdepth : (memberChars level m).length ≤ depth) {after rest : Input} (hafter : EndsNumber after) :
    (skipGaps after = some ',' :: rest → readMembers (depth + 1) ((memberChars level m).map some ++ after) =
      (readMembers depth rest).map fun r => ((some m.1, m.2) :: r.1, r.2)) ∧
    (skipGaps after = some '\x7d' :: rest →
      readMembers (depth + 1) ((memberChars level m).map some ++ after) = some ([(some m.1, m.2)], rest)) := by
  have hvalue : (prettyChars level m.2).length ≤ depth := by
    simp [memberChars] at hdepth
    omega
  have hsplit : (memberChars level m).map some ++ after = some '"' :: ((m.1.toList.flatMap escapeChar).map some ++
      some '"' :: some ':' :: some ' ' :: ((prettyChars level m.2).map some ++ after)) := by
    simp [memberChars, writeText]
  have hgap : readValue depth (some ' ' :: ((prettyChars level m.2).map some ++ after)) = some (m.2, after) := by
    have hskip : skipGaps (some ' ' :: ((prettyChars level m.2).map some ++ after)) =
        skipGaps ((prettyChars level m.2).map some ++ after) := rfl
    rw [readValue_congr hskip, h level depth after hvalue hafter]
  rw [hsplit, readMembers, skipGaps_cons (by decide)]
  simp only [readText_escaped]
  rw [skipGaps_cons (by decide)]
  constructor <;> intro hrest <;> simp only [hgap, hrest]

/-- the members of an object are read back up to its closing brace -/
theorem readMembers_pretty {level : Nat} {m : String × Json} {ms : List (String × Json)}
    (h : ∀ x ∈ m :: ms, ReadsBack x.2) {depth : Nat}
    (hdepth : (memberChars (level + 1) m ++ prettyMembers level (ms.map fun x => (some x.1, x.2))).length ≤ depth)
    (s : Input) : readMembers depth ((memberChars (level + 1) m ++
      prettyMembers level (ms.map fun x => (some x.1, x.2))).map some ++ s) =
      some ((m :: ms).map fun x => (some x.1, x.2), s) := by
  induction ms generalizing m depth with
  | nil =>
    have hend : skipGaps ((prettyMembers level []).map some ++ s) = some '\x7d' :: s := by
      rw [prettyMembers, List.map_append, List.append_assoc, skipGaps_newLine]
      exact skipGaps_cons rfl s
    obtain ⟨depth, rfl⟩ : ∃ d, depth = d + 1 := ⟨depth - 1, by simp [prettyMembers, newLine] at hdepth; omega⟩
    have hfirst : (memberChars (level + 1) m).length ≤ depth := by simp [prettyMembers, newLine] at hdepth; omega
    rw [List.map_append, List.append_assoc]
    exact (readMembers_member (h m List.mem_cons_self) hfirst (endsNumber_prettyMembers level _ s)).2 hend
  | cons x rest ih =>
    have hmore : skipGaps ((prettyMembers level ((x :: rest).map fun x => (some x.1, x.2))).map some ++ s) =
        some ',' :: ((newLine (level + 1)).map some ++ ((memberChars (level + 1) x ++
          prettyMembers level (rest.map fun x => (some x.1, x.2))).map some ++ s)) := by
      simp only [List.map_cons, prettyMembers, memberChars, List.map_append, List.append_assoc, List.cons_append]
      exact skipGaps_cons rfl _
    obtain ⟨depth, rfl⟩ : ∃ d, depth = d + 1 := ⟨depth - 1, by simp [prettyMembers] at hdepth; omega⟩
    have hfirst : (memberChars (level + 1) m).length ≤ depth := by simp [prettyMembers] at hdepth; omega
    have hrest : (memberChars (level + 1) x ++ prettyMembers level (rest.map fun x => (some x.1, x.2))).length ≤
        depth := by
      simp [prettyMembers, memberChars] at hdepth ⊢
      omega
    rw [List.map_append, List.append_assoc,
      (readMembers_member (h m List.mem_cons_self) hfirst (endsNumber_prettyMembers level _ s)).1 hmore,
      readMembers_congr (skipGaps_newLine _ _), ih (fun k hk => h k (List.mem_cons_of_mem m hk)) hrest, Option.map_some]
    rfl

/-! ## Whole values -/

/-- a text is never empty, so there is always one level to go down -/
theorem Plain.readsBack_of_succ {j : Json} (hp : Plain j)
    (h : ∀ (level depth : Nat) (s : Input), (prettyChars level j).length ≤ depth + 1 → EndsNumber s →
      readValue (depth + 1) ((prettyChars level j).map some ++ s) = some (j, s)) : ReadsBack j := by
  intro level depth s hdepth hs
  obtain ⟨c, cs, hcons, -⟩ := hp.exists_head level
  cases depth with
  | zero =>
    rw [hcons] at hdepth
    cases hdepth
  | succ depth => exact h level depth s hdepth hs

theorem readsBack_array {items : List Json} (hp : ∀ j ∈ items, Plain j) (h : ∀ j ∈ items, ReadsBack j) :
    ReadsBack (.array items) := by
  refine (Plain.array hp).readsBack_of_succ ?_
  intro level depth s hdepth _
  cases items with
  | nil => rfl
  | cons j rest =>
    have hitems : (prettyChars (level + 1) j ++ prettyItems level rest).length ≤ depth := by
      simp [prettyChars, newLine] at hdepth ⊢
      omega
    have hread := readItems_pretty h hitems s
    obtain ⟨c, cs, hcons, hgap, hc⟩ := (hp j List.mem_cons_self).exists_head (level + 1)
    have hskip : skipGaps ((newLine (level + 1)).map some ++
        ((prettyChars (level + 1) j ++ prettyItems level rest).map some ++ s)) =
        (prettyChars (level + 1) j ++ prettyItems level rest).map some ++ s := by
      rw [skipGaps_newLine, hcons]
      exact skipGaps_cons hgap _
    rw [hcons] at hskip hread
    simp only [prettyChars, hcons, List.map_cons, List.map_append, List.cons_append, List.append_assoc] at hskip hread ⊢
    rw [readValue_bracket hskip hc, hread]
    rfl

theorem readsBack_object {ms : List (String × Json)} (hp : ∀ m ∈ ms, Plain m.2) (h : ∀ m ∈ ms, ReadsBack m.2) :
    ReadsBack (.ofMembers ms) := by
  refine (Plain.object hp).readsBack_of_succ ?_
  intro level depth s hdepth _
  cases ms with
  | nil => rfl
  | cons m rest =>
    have htext : prettyChars level (.ofMembers (m :: rest)) = '\x7b' :: (newLine (level + 1) ++
        (memberChars (level + 1) m ++ prettyMembers level (rest.map fun x => (some x.1, x.2)))) := by
      simp [ofMembers, prettyChars, memberChars]
    rw [htext] at hdepth ⊢
    have hmembers : (memberChars (level + 1) m ++ prettyMembers level (rest.map fun x => (some x.1, x.2))).length ≤
        depth := by
      simp [newLine] at hdepth ⊢
      omega
    have hread := readMembers_pretty h hmembers s
    have hskip : skipGaps ((newLine (level + 1) ++ (memberChars (level + 1) m ++
        prettyMembers level (rest.map fun x => (some x.1, x.2)))).map some ++ s) =
        (memberChars (level + 1) m ++ prettyMembers level (rest.map fun x => (some x.1, x.2))).map some ++ s := by
      rw [List.map_append, List.append_assoc, skipGaps_newLine]
      exact skipGaps_cons rfl _
    rw [List.map_cons, List.cons_append, readValue_brace hskip]
    exact congrArg (Option.map fun r => (Json.object r.1, r.2)) hread

/-- **Plain values are read back.** -/
theorem Plain.readsBack {j : Json} (h : Plain j) : ReadsBack j := by
  induction h with
  | null => exact Plain.null.readsBack_of_succ fun _ _ _ _ _ => rfl
  | bool b =>
    refine (Plain.bool b).readsBack_of_succ ?_
    intro level depth s _ _
    cases b <;> rfl
  | number n =>
    refine (Plain.number n).readsBack_of_succ ?_
    intro level depth s _ hs
    have hscan := scanNumber_toDigits n hs
    obtain ⟨c, cs, hcons, hc⟩ := Text.exists_toDigits_eq_cons n
    change readValue (depth + 1) ((Nat.toDigits 10 n).map some ++ s) = _
    rw [hcons, List.map_cons, List.cons_append] at hscan ⊢
    rw [readValue_digit hc, hscan, Option.map_some, ofNat, hcons]
  | text t =>
    refine (Plain.text t).readsBack_of_succ ?_
    intro level depth s _ _
    have hsplit : (prettyChars level (.ofString t)).map some ++ s =
        some '"' :: ((t.toList.flatMap escapeChar).map some ++ some '"' :: s) := by
      simp [ofString, prettyChars, compactChars, writeText]
    rw [hsplit, readValue, skipGaps_cons (by decide)]
    simp only [readText_escaped]
    rfl
  | array hp ih => exact readsBack_array hp ih
  | object hp ih => exact readsBack_object hp ih

/-- **A plain value that is written spread over lines is read back.** -/
theorem ofText?_pretty {j : Json} (h : Plain j) : ofText? j.pretty = some j := by
  have hread := h.readsBack 0 (2 * ((prettyChars 0 j).map some).length + 2) [] (by simp; omega) endsNumber_nil
  rw [List.append_nil] at hread
  rw [ofText?, pretty, String.toList_ofList, read, hread]
  rfl

end ByteAtlas.Json
