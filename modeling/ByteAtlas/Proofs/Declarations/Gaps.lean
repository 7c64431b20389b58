/-
The bytes of a definition that no member takes. The lines of a definition are made in one go along its members, which are in
order of where they start; all that the step for a member knows of those before it is how far they reach together.

- `Spreads`: lines behind a place up to which all bytes are taken. `Spreads.member` is the step for a member that starts no
  later than that place, `Spreads.gap` the one for bytes that are left out.
- `definition_fills_gaps`: the lines for padding are the gaps, and a member is marked if it starts before the furthest end of
  those before it.
-/
import ByteAtlas.Proofs.Members.Spans
import ByteAtlas.Declarations.Text

namespace ByteAtlas.Tree

variable {t : Tree} {i c cursor : Nat} {cs rest : List Nat} {es : List Entry}

/-! ## Lines -/

def Entry.position? : Entry → Option Nat
  | .gap .. => none
  | .member c _ => some c

def Entry.IsGap (e : Entry) : Prop := e.position? = none

@[simp] theorem Entry.position?_gap (start length : UInt64) : (Entry.gap start length).position? = none := rfl

@[simp] theorem Entry.position?_member (c : Nat) (overlaps : Bool) : (Entry.member c overlaps).position? = some c := rfl

@[simp] theorem Entry.not_isGap_member (c : Nat) (overlaps : Bool) : ¬ (Entry.member c overlaps).IsGap := nofun

def entryBytes (t : Tree) : Entry → Set ℕ
  | .gap start length => Set.Ico start.toNat (start.toNat + length.toNat)
  | .member c _ => t.span c

/-- a line of padding says where its bytes start and how many they are -/
theorem exists_gapText {e : Entry} (h : e.IsGap) : ∃ start length : UInt64,
    t.entryBytes e = Set.Ico start.toNat (start.toNat + length.toNat) ∧
      t.entryText e = "    uint8_t pad_" ++ hexSuffix start ++ "[" ++ length.toNat.repr ++ "];\n" := by
  cases e with
  | member c overlaps => exact absurd h (Entry.not_isGap_member _ _)
  | gap start length =>
    have hclose : "];\n" = "]" ++ ";\n" := by decide
    refine ⟨start, length, rfl, ?_⟩
    unfold entryText bracketed
    rw [hclose]
    simp only [String.append_assoc]

/-- a member's line has its declaration and its offset, and a mark if it overlaps -/
theorem entryText_member {m : Node} (hm : t.nodes[c]? = some m) (overlaps : Bool) :
    t.entryText (.member c overlaps) = "    " ++ t.memberText m ++ "; // " ++ hexNumber m.offset ++
      (if overlaps then " overlaps previous field" else "") ++ "\n" := by
  unfold entryText
  dsimp only
  rw [hm]

/-- the bytes up to a place and those of some lines are all the bytes up to the furthest end -/
structure Spreads (t : Tree) (cursor : Nat) (cs : List Nat) (es : List Entry) : Prop where
  members : es.filterMap Entry.position? = cs
  gaps : ∀ e ∈ es, e.IsGap → (t.entryBytes e).Nonempty ∧ t.entryBytes e ⊆ Set.Ici cursor
  apart : es.Pairwise fun e e' => e.IsGap ∨ e'.IsGap → Disjoint (t.entryBytes e) (t.entryBytes e')
  covered : Set.Iio cursor ∪ ⋃ e ∈ es, t.entryBytes e = Set.Iio (max cursor (t.furthest cs))
  marked : ∀ before c overlaps after, es = before ++ .member c overlaps :: after →
    (overlaps = true ↔ (t.offsetAt c).toNat < max cursor (t.furthest (before.filterMap Entry.position?)))

namespace Spreads

theorem nil (t : Tree) (cursor : Nat) : t.Spreads cursor [] [] where
  members := rfl
  gaps := by simp
  apart := .nil
  covered := by simp
  marked := by simp

/-- all that is behind a place at which the next member starts starts there or later -/
theorem bytes_subset (h : t.Spreads cursor cs es) (hcs : ∀ c ∈ cs, cursor ≤ (t.offsetAt c).toNat) {e : Entry}
    (he : e ∈ es) : t.entryBytes e ⊆ Set.Ici cursor := by
  cases e with
  | gap start length => exact (h.gaps _ he rfl).2
  | member c overlaps =>
    have hc : c ∈ cs := h.members ▸ List.mem_filterMap.2 ⟨_, he, rfl⟩
    exact fun b hb => (hcs c hc).trans hb.1

/-- **A member that starts no later than all bytes are taken.** It is marked if it starts before. -/
theorem member (hle : (t.offsetAt c).toNat ≤ cursor) (h : t.Spreads (max cursor (t.stopAt c)) rest es) :
    t.Spreads cursor (c :: rest) (.member c (decide ((t.offsetAt c).toNat < cursor)) :: es) where
  members := by simp [h.members]
  gaps e he hgap := by
    rcases List.mem_cons.1 he with rfl | he
    · exact absurd hgap (Entry.not_isGap_member _ _)
    · exact (h.gaps e he hgap).imp_right fun hsub => hsub.trans (Set.Ici_subset_Ici.2 (le_max_left _ _))
  apart := by
    refine List.pairwise_cons.2 ⟨fun e he hgap => ?_, h.apart⟩
    have hbehind := (h.gaps e he (hgap.resolve_left (Entry.not_isGap_member _ _))).2
    refine Set.disjoint_left.2 fun b hb hb' => ?_
    exact absurd (hb.2.trans_le ((le_max_right _ _).trans (hbehind hb'))) (lt_irrefl b)
  covered := by
    have hjoin : Set.Iio cursor ∪ t.span c = Set.Iio (max cursor (t.stopAt c)) := by
      ext b
      simp only [span, Set.mem_union, Set.mem_Iio, Set.mem_Ico]
      omega
    simp only [List.mem_cons, Set.iUnion_iUnion_eq_or_left]
    rw [← Set.union_assoc, show t.entryBytes (.member c _) = t.span c from rfl, hjoin, h.covered, furthest_cons, max_assoc]
  marked before c' overlaps after he := by
    cases before with
    | nil =>
      obtain ⟨hhead, -⟩ := List.cons.inj he
      obtain ⟨rfl, rfl⟩ := Entry.member.inj hhead
      simp
    | cons e before =>
      obtain ⟨rfl, htail⟩ := List.cons.inj he
      rw [List.filterMap_cons_some (Entry.position?_member _ _), furthest_cons, ← max_assoc]
      exact h.marked before c' overlaps after htail

/-- **A gap before the next member.** Nothing that follows starts before its end. -/
theorem gap {start offset : UInt64} (hlt : start < offset) (hcs : ∀ c ∈ cs, offset.toNat ≤ (t.offsetAt c).toNat)
    (h : t.Spreads offset.toNat cs es) (hreach : offset.toNat ≤ t.furthest cs) :
    t.Spreads start.toNat cs (.gap start (offset - start) :: es) := by
  have hlt' : start.toNat < offset.toNat := UInt64.lt_iff_toNat_lt.1 hlt
  have hbytes : t.entryBytes (.gap start (offset - start)) = Set.Ico start.toNat offset.toNat := by
    rw [entryBytes, UInt64.toNat_sub_of_le _ _ (UInt64.le_of_lt hlt), Nat.add_sub_cancel' hlt'.le]
  constructor
  case members => rw [List.filterMap_cons_none rfl, h.members]
  case gaps =>
    intro e he hgap
    rcases List.mem_cons.1 he with rfl | he
    · rw [hbytes]
      exact ⟨Set.nonempty_Ico.2 hlt', fun b hb => hb.1⟩
    · exact (h.gaps e he hgap).imp_right fun hsub => hsub.trans (Set.Ici_subset_Ici.2 hlt'.le)
  case apart =>
    refine List.pairwise_cons.2 ⟨fun e he _ => ?_, h.apart⟩
    rw [hbytes]
    exact Set.disjoint_left.2 fun b hb hb' => absurd (hb.2.trans_le (h.bytes_subset hcs he hb')) (lt_irrefl b)
  case covered =>
    simp only [List.mem_cons, Set.iUnion_iUnion_eq_or_left]
    rw [← Set.union_assoc, hbytes, Set.Iio_union_Ico_eq_Iio hlt'.le, h.covered, max_eq_right hreach,
      max_eq_right (hlt'.le.trans hreach)]
  case marked =>
    intro before c overlaps after he
    cases before with
    | nil => exact absurd (List.cons.inj he).1 nofun
    | cons e before =>
      obtain ⟨rfl, htail⟩ := List.cons.inj he
      have hc : c ∈ cs := h.members ▸ List.mem_filterMap.2 ⟨.member c overlaps, by simp [htail], rfl⟩
      have hstart := hcs c hc
      rw [h.marked before c overlaps after htail, List.filterMap_cons_none rfl]
      omega

end Spreads

/-! ## Definitions -/

theorem entries_of_le {cursor : UInt64} (h : t.offsetAt c ≤ cursor) : t.entries cursor (c :: rest) =
    .member c (t.offsetAt c < cursor) :: t.entries (max cursor (t.endAt c)) rest := by
  rw [entries, if_neg (UInt64.not_lt.2 h)]

/-- behind a gap the lines are as if all bytes up to the next member were taken -/
theorem entries_of_lt {cursor : UInt64} (h : cursor < t.offsetAt c) (hfits : t.stopAt c < UInt64.size) :
    t.entries cursor (c :: rest) =
      .gap cursor (t.offsetAt c - cursor) :: t.entries (t.offsetAt c) (c :: rest) := by
  have hmax : max cursor (t.endAt c) = max (t.offsetAt c) (t.endAt c) := by
    have hlt := UInt64.lt_iff_toNat_lt.1 h
    have hend := t.toNat_offsetAt_le_stopAt c
    rw [← UInt64.toNat_inj, Word.toNat_max, Word.toNat_max, toNat_endAt_of_lt hfits]
    omega
  rw [entries_of_le (UInt64.le_refl _), entries, if_pos h, hmax]
  simp [UInt64.lt_irrefl, UInt64.not_lt.2 (UInt64.le_of_lt h)]

/-- **The lines of members in order spread from any place.** -/
theorem spreads_entries (hsorted : cs.Pairwise fun a b => (t.offsetAt a).toNat ≤ (t.offsetAt b).toNat)
    (hfits : ∀ c ∈ cs, t.stopAt c < UInt64.size) (cursor : UInt64) :
    t.Spreads cursor.toNat cs (t.entries cursor cs) := by
  induction cs generalizing cursor with
  | nil => exact .nil t _
  | cons c rest ih =>
    obtain ⟨hfirst, hrest⟩ := List.pairwise_cons.1 hsorted
    obtain ⟨hfit, hfits⟩ := List.forall_mem_cons.1 hfits
    have hmember : ∀ cursor : UInt64, t.offsetAt c ≤ cursor →
        t.Spreads cursor.toNat (c :: rest) (t.entries cursor (c :: rest)) := by
      intro cursor hle
      have hstep := ih hrest hfits (max cursor (t.endAt c))
      rw [Word.toNat_max, toNat_endAt_of_lt hfit] at hstep
      rw [entries_of_le hle]
      simp only [UInt64.lt_iff_toNat_lt]
      exact .member (UInt64.le_iff_toNat_le.1 hle) hstep
    by_cases hle : t.offsetAt c ≤ cursor
    · exact hmember cursor hle
    · rw [entries_of_lt (UInt64.not_le.1 hle) hfit]
      refine .gap (UInt64.not_le.1 hle) (List.forall_mem_cons.2 ⟨le_refl _, hfirst⟩) (hmember _ (UInt64.le_refl _)) ?_
      exact (t.toNat_offsetAt_le_stopAt c).trans (le_max_left _ _)

/-- **The padding of a definition is what its members leave out.** Let no member end past the end of memory. The lines of the
definition have the members in order. Each line of padding is about some bytes, says where they start and how many they are,
and none of them is a byte of a member or of another line of padding; with the bytes of the members they are all bytes up to
the furthest end. The line of a member has its declaration and its offset; it is marked if the member starts before the
furthest end of those listed before it, and only then. -/
theorem definition_fills_gaps {n : Node} (hn : t.nodes[i]? = some n)
    (hfits : ∀ c ∈ t.children n.id, t.stopAt c < UInt64.size) :
    let es := t.entries 0 (t.children n.id)
    t.definitionText i = "// size: " ++ hexNumber (t.size i) ++ "\nstruct " ++ identifier n.typeName ++ " \x7b\n" ++
      String.join (es.map t.entryText) ++ "\x7d;\n" ∧
    es.filterMap Entry.position? = t.children n.id ∧
    (∀ e ∈ es, e.IsGap → (t.entryBytes e).Nonempty ∧ ∃ start length : UInt64,
      t.entryBytes e = Set.Ico start.toNat (start.toNat + length.toNat) ∧
      t.entryText e = "    uint8_t pad_" ++ hexSuffix start ++ "[" ++ length.toNat.repr ++ "];\n") ∧
    es.Pairwise (fun e e' => e.IsGap ∨ e'.IsGap → Disjoint (t.entryBytes e) (t.entryBytes e')) ∧
    ⋃ e ∈ es, t.entryBytes e = Set.Iio (t.furthest (t.children n.id)) ∧
    ∀ before c overlaps after, es = before ++ .member c overlaps :: after →
      (overlaps = true ↔ (t.offsetAt c).toNat < t.furthest (before.filterMap Entry.position?)) ∧
      ∃ m, t.nodes[c]? = some m ∧ t.entryText (.member c overlaps) = "    " ++ t.memberText m ++ "; // " ++
        hexNumber m.offset ++ (if overlaps then " overlaps previous field" else "") ++ "\n" := by
  intro es
  have hspread : t.Spreads 0 (t.children n.id) es := spreads_entries (t.pairwise_offsetAt n.id) hfits 0
  refine ⟨by rw [definitionText, hn], hspread.members, fun e he hgap => ⟨(hspread.gaps e he hgap).1, exists_gapText hgap⟩,
    hspread.apart, by simpa using hspread.covered, fun before c overlaps after he => ⟨?_, ?_⟩⟩
  · simpa using hspread.marked before c overlaps after he
  · have hc : c ∈ t.children n.id := hspread.members ▸ List.mem_filterMap.2 ⟨.member c overlaps, by simp [he], rfl⟩
    obtain ⟨m, hm, -⟩ := mem_children.1 hc
    exact ⟨m, hm, entryText_member hm overlaps⟩

/-- a struct with two gaps between its members, two of which start before the end of the one before them -/
def gappyNodes : List Node :=
  [{ Node.rootStruct "g" "Gappy" with id := 1 }, { Node.field 1 0 .uint16 "count" with id := 2 },
    { Node.field 1 8 .vec3 "place" with id := 3 }, { Node.field 1 10 .uint8 "alias" with id := 4 },
    { Node.text 1 12 .utf8 "none" 0 with id := 5 }, { Node.field 1 24 .uint32 "last" with id := 6 }]

def gappy : Tree := gappyNodes.foldl push (empty 0)

/-- the bytes of the number within the vector and of the text without characters are no gaps -/
theorem definition_fills_gaps_gappy : (∀ c ∈ gappy.children 1, gappy.stopAt c < UInt64.size) ∧
    let es : List Entry := [.member 1 false, .gap 2 6, .member 2 false, .member 3 true, .member 4 true, .gap 20 4,
      .member 5 false]
    gappy.definitionText 0 = "// size: 0x1C\nstruct Gappy \x7b\n" ++ String.join (es.map gappy.entryText) ++ "\x7d;\n" ∧
    es.map gappy.entryText = ["    uint16_t count; // 0x0\n", "    uint8_t pad_0002[6];\n", "    float place[3]; // 0x8\n",
      "    uint8_t alias; // 0xA overlaps previous field\n", "    char none[0]; // 0xC overlaps previous field\n",
      "    uint8_t pad_0014[4];\n", "    uint32_t last; // 0x18\n"] ∧
    es.Pairwise (fun e e' => e.IsGap ∨ e'.IsGap → Disjoint (gappy.entryBytes e) (gappy.entryBytes e')) ∧
    ⋃ e ∈ es, gappy.entryBytes e = Set.Iio 28 := by
  have hfits : ∀ c ∈ gappy.children 1, gappy.stopAt c < UInt64.size := by decide
  obtain ⟨htext, -, -, hapart, hcovered, -⟩ := definition_fills_gaps (t := gappy) (i := 0) (n := gappyNodes[0]) rfl hfits
  have hlines : gappy.entries 0 (gappy.children 1) = [.member 1 false, .gap 2 6, .member 2 false, .member 3 true,
      .member 4 true, .gap 20 4, .member 5 false] := by decide
  have hfurthest : gappy.furthest (gappy.children 1) = 28 := by decide
  exact ⟨hfits, hlines ▸ htext, by decide, hlines ▸ hapart, hfurthest ▸ hlines ▸ hcovered⟩

end ByteAtlas.Tree
