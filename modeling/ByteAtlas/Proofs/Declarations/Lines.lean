/-
The lines of declarations. Each line ends itself, so the text tells which tags it defines and how often: a definition opens
with a line of its own, and no other line looks like this one.

- `timesDefined`: how often a text defines a tag, read off its lines.
- `timesDefined_definitionText`: a definition opens the tag of its struct once, and no other tag.
- `timesDefined_declarationsOf`: a tag is defined as often as there are structs in order that have it.
-/
import ByteAtlas.Declarations.Text
import ByteAtlas.Proofs.Text.Digits

namespace ByteAtlas

/-! ## Lines -/

def Inline (s : String) : Prop := '\n' ∉ s.toList

instance (s : String) : Decidable (Inline s) := inferInstanceAs (Decidable ('\n' ∉ s.toList))

/-- a text of whole lines -/
def Ended (s : String) : Prop := s = "" ∨ ∃ l, s = l ++ "\n"

/-- the line that opens the definition of a tag -/
def definitionLine (tag : String) : String := "struct " ++ tag ++ " \x7b"

/-- how often a text defines a tag -/
def timesDefined (tag s : String) : Nat := (s.toList.splitOn '\n').count (definitionLine tag).toList

variable {l s s' tag : String}

theorem inline_append : Inline (s ++ s') ↔ Inline s ∧ Inline s' := by
  rw [Inline, String.toList_append, List.mem_append, not_or]
  rfl

theorem Ended.append (h : Ended s) (h' : Ended s') : Ended (s ++ s') := by
  rcases h' with rfl | ⟨l, rfl⟩
  · rwa [String.append_empty]
  · exact .inr ⟨s ++ l, String.append_assoc.symm⟩

/-- an empty line opens nothing -/
theorem count_empty_line (tag : String) : ([[]] : List (List Char)).count (definitionLine tag).toList = 0 := by
  refine List.count_eq_zero.2 fun hmem => ?_
  simpa [definitionLine] using List.mem_singleton.1 hmem

/-- what whole lines define is defined in front of more -/
theorem timesDefined_append (h : Ended s) (s' : String) :
    timesDefined tag (s ++ s') = timesDefined tag s + timesDefined tag s' := by
  rcases h with rfl | ⟨l, rfl⟩
  · simp [timesDefined, List.splitOn_nil, count_empty_line]
  · have hsplit : ∀ cs, (l.toList ++ '\n' :: cs).splitOn '\n' = l.toList.splitOn '\n' ++ cs.splitOn '\n' := fun cs =>
      List.splitOnP_append_cons _ _ (by simp)
    have hlist : (l ++ "\n" ++ s').toList = l.toList ++ '\n' :: s'.toList := by simp
    have hline : (l ++ "\n").toList = l.toList ++ '\n' :: [] := by simp
    rw [timesDefined, timesDefined, timesDefined, hlist, hline, hsplit, hsplit, List.count_append, List.count_append,
      List.splitOn_nil, count_empty_line, Nat.add_zero]

theorem timesDefined_line (h : Inline l) : timesDefined tag (l ++ "\n") = if l = definitionLine tag then 1 else 0 := by
  have hline : (l ++ "\n").toList = l.toList ++ '\n' :: [] := by simp
  have hplain : ∀ c ∈ l.toList, (c == '\n') = false := fun c hc => beq_eq_false_iff_ne.2 fun e => h (e ▸ hc)
  have hsplit : (l.toList ++ '\n' :: []).splitOn '\n' = [l.toList, []] := by
    rw [List.splitOn, List.splitOnP_append_cons_of_forall_mem hplain _ (by simp)]
    rfl
  rw [timesDefined, hline, hsplit]
  split_ifs with he
  · rw [he, List.count_cons_self, count_empty_line]
  · rw [List.count_cons_of_ne fun e => he (String.toList_inj.1 e), count_empty_line]

/-- whole lines that open nothing -/
def Idle (s : String) : Prop := Ended s ∧ ∀ tag, timesDefined tag s = 0

/-- what opens nothing does not count in front of more -/
theorem Idle.timesDefined_append (h : Idle s) (tag s' : String) : timesDefined tag (s ++ s') = timesDefined tag s' := by
  rw [ByteAtlas.timesDefined_append h.1, h.2, Nat.zero_add]

theorem idle_empty : Idle "" := ⟨.inl rfl, fun tag => by simp [timesDefined, List.splitOn_nil, count_empty_line]⟩

theorem head?_append {c : Char} (h : s.toList.head? = some c) (s' : String) : (s ++ s').toList.head? = some c := by
  rw [String.toList_append, List.head?_append, h]
  rfl

theorem head?_definitionLine (tag : String) : (definitionLine tag).toList.head? = some 's' :=
  head?_append (head?_append rfl _) _

theorem getLast?_append {c : Char} (h : s'.toList.getLast? = some c) (s : String) :
    (s ++ s').toList.getLast? = some c := by
  rw [String.toList_append, List.getLast?_append, h]
  rfl

theorem getLast?_definitionLine (tag : String) : (definitionLine tag).toList.getLast? = some '\x7b' := getLast?_append rfl _

theorem idle_line (h : Inline l) (hne : ∀ tag, l ≠ definitionLine tag) : Idle (l ++ "\n") :=
  ⟨.inr ⟨l, rfl⟩, fun tag => by rw [timesDefined_line h, if_neg (hne tag)]⟩

/-- a line that starts with something else opens nothing -/
theorem idle_line_of_head {c : Char} (h : Inline l) (hl : l.toList.head? = some c) (hc : c ≠ 's') : Idle (l ++ "\n") :=
  idle_line h fun tag he => hc (Option.some.inj (hl.symm.trans (he ▸ head?_definitionLine tag)))

theorem Idle.append (h : Idle s) (h' : Idle s') : Idle (s ++ s') :=
  ⟨h.1.append h'.1, fun tag => (h.timesDefined_append tag s').trans (h'.2 tag)⟩

/-- a semicolon ends its line -/
theorem semicolon_newline : ";\n" = ";" ++ "\n" := by decide

theorem idle_join {ss : List String} (h : ∀ s ∈ ss, Idle s) : Idle (String.join ss) := by
  induction ss with
  | nil => exact idle_empty
  | cons s ss ih =>
    obtain ⟨hs, hss⟩ := List.forall_mem_cons.1 h
    rw [String.join_cons]
    exact hs.append (ih hss)

/-! ## Pieces of a line -/

theorem exists_digitChar {b n : Nat} (hb : 1 < b) {c : Char} (hc : c ∈ Nat.toDigits b n) : ∃ d < b, c = d.digitChar := by
  induction n using Nat.strongRecOn with
  | ind n ih =>
    rw [Nat.toDigits_eq_if hb] at hc
    split_ifs at hc with hlt
    · exact ⟨n, hlt, List.mem_singleton.1 hc⟩
    · rcases List.mem_append.1 hc with hc | hc
      · exact ih (n / b) (Nat.div_lt_self (by omega) hb) hc
      · exact ⟨n % b, Nat.mod_lt _ (by omega), List.mem_singleton.1 hc⟩

theorem inline_upperHex (k n : Nat) : Inline (String.ofList (Text.upperHex k n)) := by
  have hdigit : ∀ d < 16, d.digitChar.toUpper ≠ '\n' := by decide
  rw [Inline, String.toList_ofList, Text.upperHex, List.mem_append, List.mem_map]
  rintro (hc | ⟨c, hc, he⟩)
  · exact absurd (List.eq_of_mem_replicate hc) (by decide)
  · obtain ⟨d, hd, rfl⟩ := exists_digitChar (by decide) hc
    exact hdigit d hd he

theorem inline_hexNumber (n : UInt64) : Inline (hexNumber n) :=
  inline_append.2 ⟨by decide, inline_upperHex 1 n.toNat⟩

theorem inline_hexSuffix (n : UInt64) : Inline (hexSuffix n) := inline_upperHex 4 n.toNat

theorem inline_bracketed (n : UInt64) : Inline (bracketed n) := by
  have hdigits : Inline n.toNat.repr := by
    rw [Inline, Nat.toList_repr]
    exact fun hc => absurd (Text.isDigit_of_mem_decimal hc) (by decide)
  exact inline_append.2 ⟨inline_append.2 ⟨by decide, hdigits⟩, by decide⟩

/-- only letters, digits and underscores stand in an identifier -/
theorem isIdentifierChar_of_mem {c : Char} (hc : c ∈ (identifier s).toList) : isIdentifierChar c := by
  have hmap : ∀ c ∈ s.toList.map fun c => if isIdentifierChar c then c else '_', isIdentifierChar c := by
    simp only [List.forall_mem_map]
    intro d _
    split_ifs with hd
    · exact hd
    · decide
  simp only [identifier, String.toList_ofList] at hc
  split at hc
  · exact List.mem_singleton.1 hc ▸ (by decide)
  · rename_i he
    rw [he] at hc hmap
    split_ifs at hc
    · rcases List.mem_cons.1 hc with rfl | hc
      · decide
      · exact hmap c hc
    · exact hmap c hc

theorem inline_identifier (s : String) : Inline (identifier s) := fun hc => absurd (isIdentifierChar_of_mem hc) (by decide)

theorem Kind.inline_declared (k : Kind) : Inline k.declared.1 ∧ Inline k.declared.2 := by
  cases k <;> decide

theorem Node.inline_memberName (n : Node) : Inline n.memberName := by
  rw [memberName]
  split_ifs
  · exact inline_append.2 ⟨by decide, inline_hexSuffix n.offset⟩
  · exact inline_identifier n.name

namespace Tree

variable {t : Tree} {i : Nat} {n : Node}

theorem inline_memberText (t : Tree) (n : Node) : Inline (t.memberText n) := by
  have hname := n.inline_memberName
  unfold memberText
  cases n.kind <;> dsimp only
  case pointer32 | pointer64 =>
    cases t.typeNameOf n.ref <;> simp only [inline_append, inline_identifier, hname, and_true] <;> decide
  case array =>
    split_ifs <;> simp only [inline_append, inline_identifier, inline_bracketed, Kind.inline_declared, hname, and_true,
      true_and] <;> decide
  all_goals
    simp only [inline_append, inline_identifier, inline_bracketed, Kind.inline_declared, hname, and_true, true_and]
    decide

/-- the lines inside a definition open nothing -/
theorem idle_entryText (t : Tree) (e : Entry) : Idle (t.entryText e) := by
  cases e with
  | gap start length =>
    have hhead : "    uint8_t pad_".toList.head? = some ' ' := by decide
    unfold entryText
    dsimp only
    rw [semicolon_newline, ← String.append_assoc]
    refine idle_line_of_head ?_ (head?_append (head?_append (head?_append hhead _) _) _) (by decide)
    simp only [inline_append, inline_hexSuffix, inline_bracketed, and_true]
    decide
  | member c overlaps =>
    unfold entryText
    dsimp only
    cases t.nodes[c]? with
    | none => exact idle_empty
    | some n =>
      have hhead : "    ".toList.head? = some ' ' := by decide
      have hmark : Inline (if overlaps then " overlaps previous field" else "") := by cases overlaps <;> decide
      refine idle_line_of_head ?_ (head?_append (head?_append (head?_append (head?_append hhead _) _) _) _) (by decide)
      simp only [inline_append, inline_memberText, inline_hexNumber, hmark, and_true]
      decide

/-- a definition is a comment, the line that opens it, and lines that open nothing -/
theorem exists_definitionText (hn : t.nodes[i]? = some n) : ∃ comment rest, Idle comment ∧ Idle rest ∧
    t.definitionText i = comment ++ (definitionLine (identifier n.typeName) ++ "\n" ++ rest) := by
  have hcomment : Idle ("// size: " ++ hexNumber (t.size i) ++ "\n") := by
    have hhead : "// size: ".toList.head? = some '/' := by decide
    exact idle_line_of_head (inline_append.2 ⟨by decide, inline_hexNumber _⟩) (head?_append hhead _) (by decide)
  have hinside : Idle (String.join ((t.entries 0 (t.children n.id)).map t.entryText)) :=
    idle_join (List.forall_mem_map.2 fun e _ => t.idle_entryText e)
  have hclose : Idle "\x7d;\n" := by
    have hend : "\x7d;\n" = "\x7d;" ++ "\n" := by decide
    have hhead : "\x7d;".toList.head? = some '\x7d' := by decide
    rw [hend]
    exact idle_line_of_head (by decide) hhead (by decide)
  refine ⟨_, _, hcomment, hinside.append hclose, ?_⟩
  have hstart : "\nstruct " = "\n" ++ "struct " := by decide
  have hend : " \x7b\n" = " \x7b" ++ "\n" := by decide
  simp only [definitionText, hn, definitionLine, hstart, hend, String.append_assoc]

/-- **A definition opens its tag once, and no other.** -/
theorem timesDefined_definitionText (hn : t.nodes[i]? = some n) :
    Ended (t.definitionText i) ∧
      ∀ tag, timesDefined tag (t.definitionText i) = if identifier n.typeName = tag then 1 else 0 := by
  obtain ⟨comment, rest, hcomment, hrest, htext⟩ := exists_definitionText hn
  have hopen : Inline (definitionLine (identifier n.typeName)) :=
    inline_append.2 ⟨inline_append.2 ⟨by decide, inline_identifier _⟩, by decide⟩
  rw [htext]
  refine ⟨hcomment.1.append (.append (.inr ⟨_, rfl⟩) hrest.1), fun tag => ?_⟩
  calc timesDefined tag (comment ++ (definitionLine (identifier n.typeName) ++ "\n" ++ rest))
    _ = timesDefined tag (definitionLine (identifier n.typeName) ++ "\n" ++ rest) := hcomment.timesDefined_append tag _
    _ = timesDefined tag (definitionLine (identifier n.typeName) ++ "\n") := by
      rw [timesDefined_append (.inr ⟨_, rfl⟩), hrest.2, Nat.add_zero]
    _ = if definitionLine (identifier n.typeName) = definitionLine tag then 1 else 0 := timesDefined_line hopen
    _ = if identifier n.typeName = tag then 1 else 0 := by simp [definitionLine]

/-! ## Declarations -/

theorem firstOnly_subset (seen ss : List String) : firstOnly seen ss ⊆ ss := by
  induction ss generalizing seen with
  | nil => exact List.Subset.refl _
  | cons s ss ih =>
    rw [firstOnly]
    split_ifs
    · exact List.subset_cons_of_subset s (ih seen)
    · exact List.cons_subset_cons s (ih (s :: seen))

theorem tagAt_of_getElem? (hn : t.nodes[i]? = some n) : t.tagAt i = identifier n.typeName := by
  rw [tagAt, hn]
  rfl

theorem inline_tagAt (t : Tree) (i : Nat) : Inline (t.tagAt i) := by
  rw [tagAt]
  cases t.nodes[i]? with
  | none => exact (by decide : Inline "")
  | some n => exact inline_identifier _

/-- a name declared in front of all definitions opens nothing -/
theorem idle_forward (h : Inline tag) : Idle ("struct " ++ tag ++ ";\n") := by
  rw [semicolon_newline, ← String.append_assoc]
  refine idle_line (inline_append.2 ⟨inline_append.2 ⟨by decide, h⟩, by decide⟩) fun tag' he => ?_
  have hlast : ";".toList.getLast? = some ';' := by decide
  exact absurd (Option.some.inj ((getLast?_append hlast _).symm.trans (he ▸ getLast?_definitionLine tag'))) (by decide)

/-- **A tag is defined as often as there are structs in order that have it.** -/
theorem timesDefined_declarationsOf {order : List Nat} (horder : ∀ i ∈ order, ∃ n, t.nodes[i]? = some n) (tag : String) :
    timesDefined tag (t.declarationsOf order) = order.countP fun i => t.tagAt i = tag := by
  have hforward : Idle (String.join ((firstOnly [] (order.map t.tagAt)).map fun tag => "struct " ++ tag ++ ";\n")) := by
    refine idle_join (List.forall_mem_map.2 fun tag htag => idle_forward ?_)
    obtain ⟨i, -, rfl⟩ := List.mem_map.1 (firstOnly_subset _ _ htag)
    exact t.inline_tagAt i
  have hblank : Idle "\n" := idle_line (l := "") (by decide) fun tag he => by
    have hhead := head?_definitionLine tag
    rw [← he] at hhead
    exact absurd hhead (by decide)
  rw [declarationsOf, hforward.timesDefined_append]
  clear hforward
  induction order with
  | nil => exact idle_empty.2 tag
  | cons i order ih =>
    obtain ⟨⟨n, hn⟩, horder⟩ := List.forall_mem_cons.1 horder
    obtain ⟨hended, hlines⟩ := timesDefined_definitionText hn
    rw [List.map_cons, String.join_cons, timesDefined_append (hblank.1.append hended), hblank.timesDefined_append, hlines,
      ih horder, List.countP_cons, tagAt_of_getElem? hn]
    simp [Nat.add_comm]

end Tree

end ByteAtlas
