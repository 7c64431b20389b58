/-
The four ways in which the list of nodes of a tree changes: a node is appended, put in at a position, taken out, or
changed in place. Each keeps the map of positions right (`Indexed.push`, `Indexed.putAt`, `Indexed.takeOut`,
`Indexed.modifyAt`), and none moves the next new id back. Positions from the changed one on are written anew after
putting in and taking out; `Places.indexed_putAll` is the reason why that is enough.
-/
import ByteAtlas.Proofs.Tree.WellFormed

namespace ByteAtlas

namespace Places

/-- positions of a list of nodes with distinct ids: those of the list, and the earlier ones of other ids -/
theorem get?_putAll_eq_some_iff {ns : List Node} (hd : (ns.map (·.id)).Nodup) (ps : Places) (i : Nat) (k : NodeId)
    (j : Nat) : (ps.putAll i ns).get? k = some j ↔
      (i ≤ j ∧ (ns[j - i]?).map (·.id) = some k) ∨ (k ∉ ns.map (·.id) ∧ ps.get? k = some j) := by
  induction ns generalizing ps i with
  | nil => simp [putAll]
  | cons n rest ih =>
    rw [List.map_cons, List.nodup_cons] at hd
    rw [putAll, ih hd.2, get?_put, List.map_cons, List.mem_cons]
    by_cases hk : k = n.id
    · subst hk
      have hrest : ∀ m : Nat, (rest[m]?).map (·.id) ≠ some n.id := fun m e => by
        obtain ⟨q, hq, hid⟩ := Option.map_eq_some_iff.1 e
        exact hd.1 (hid ▸ List.mem_map_of_mem (List.mem_of_getElem? hq))
      rw [if_pos rfl]
      constructor
      · rintro (⟨-, e⟩ | ⟨-, e⟩)
        · exact absurd e (hrest _)
        · obtain rfl := Option.some.inj e
          exact Or.inl ⟨le_rfl, by simp⟩
      · rintro (⟨hle, e⟩ | ⟨hno, -⟩)
        · refine Or.inr ⟨hd.1, ?_⟩
          rcases Nat.eq_or_lt_of_le hle with rfl | hlt
          · rfl
          · rw [show j - i = (j - i - 1) + 1 by omega, List.getElem?_cons_succ] at e
            exact absurd e (hrest _)
        · exact absurd (Or.inl rfl) hno
    · rw [if_neg hk]
      refine or_congr ?_ (by simp [hk])
      constructor
      · rintro ⟨hle, e⟩
        refine ⟨by omega, ?_⟩
        rwa [show j - i = (j - (i + 1)) + 1 by omega, List.getElem?_cons_succ]
      · rintro ⟨hle, e⟩
        have hne : j ≠ i := by
          rintro rfl
          rw [Nat.sub_self, List.getElem?_cons_zero] at e
          exact hk (Option.some.inj e).symm
        refine ⟨by omega, ?_⟩
        rwa [show j - i = (j - (i + 1)) + 1 by omega, List.getElem?_cons_succ] at e

/-- Writing the positions from `i` on makes a map right that is right for the ids stored before. -/
theorem indexed_putAll {ps : Places} {ns : List Node} {i : Nat} (hd : (ns.map (·.id)).Nodup)
    (h : ∀ k j, k ∉ (ns.drop i).map (·.id) → (ps.get? k = some j ↔ j < i ∧ (ns[j]?).map (·.id) = some k))
    (k : NodeId) (j : Nat) : (ps.putAll i (ns.drop i)).get? k = some j ↔ (ns[j]?).map (·.id) = some k := by
  have hdd : ((ns.drop i).map (·.id)).Nodup := hd.sublist ((List.drop_sublist i ns).map _)
  rw [get?_putAll_eq_some_iff hdd, List.getElem?_drop]
  constructor
  · rintro (⟨hle, e⟩ | ⟨hk, e⟩)
    · rwa [show i + (j - i) = j by omega] at e
    · exact ((h k j hk).1 e).2
  · intro e
    by_cases hlt : j < i
    · have hk : k ∉ (ns.drop i).map (·.id) := fun hk => by
        obtain ⟨q, hq, hid⟩ := List.mem_map.1 hk
        obtain ⟨m, hm⟩ := List.mem_iff_getElem?.1 hq
        rw [List.getElem?_drop] at hm
        -- the id would be stored twice
        refine List.nodup_iff_getElem?_ne_getElem?.1 hd j (i + m) (by omega) ?_ ?_
        · exact (List.getElem?_eq_some_iff.1 (by rw [List.getElem?_map, hm]; rfl)).1
        · rw [List.getElem?_map, List.getElem?_map, e, hm, ← hid]; rfl
      exact Or.inr ⟨hk, (h k j hk).2 ⟨hlt, e⟩⟩
    · exact Or.inl ⟨by omega, by rwa [show i + (j - i) = j by omega]⟩

end Places

namespace Tree

variable {t : Tree}

/-! ## Appending -/

@[simp] theorem base_push (t : Tree) (n : Node) : (t.push n).base = t.base := rfl

@[simp] theorem nodes_push (t : Tree) (n : Node) : (t.push n).nodes = t.nodes ++ [n] := rfl

theorem Indexed.push (h : t.Indexed) {n : Node} (hid : ∀ m ∈ t.nodes, m.id ≠ n.id) : (t.push n).Indexed := by
  intro k j
  rw [position?, Tree.push, Places.get?_put]
  by_cases hk : k = n.id
  · subst hk
    rw [if_pos rfl]
    constructor
    · intro e
      obtain rfl := Option.some.inj e
      simp
    · intro e
      rcases Nat.lt_trichotomy j t.nodes.length with hlt | rfl | hlt
      · rw [List.getElem?_append_left hlt] at e
        obtain ⟨q, hq, hqid⟩ := Option.map_eq_some_iff.1 e
        exact absurd hqid (hid q (List.mem_of_getElem? hq))
      · rfl
      · rw [List.getElem?_eq_none (by simp; omega)] at e
        simp at e
  · rw [if_neg hk]
    refine (h k j).trans ?_
    rcases Nat.lt_trichotomy j t.nodes.length with hlt | rfl | hlt
    · rw [List.getElem?_append_left hlt]
    · simp [Ne.symm hk]
    · rw [List.getElem?_eq_none (by omega), List.getElem?_eq_none (by simp; omega)]

/-! ## Putting in -/

@[simp] theorem base_putAt (t : Tree) (i : Nat) (n : Node) : (t.putAt i n).base = t.base := rfl

theorem nodes_putAt (t : Tree) {i : Nat} (hi : i ≤ t.nodes.length) (n : Node) :
    (t.putAt i n).nodes = t.nodes.take i ++ n :: t.nodes.drop i := by
  simp only [putAt, Nat.min_eq_left hi]

theorem nodes_putAt_perm (t : Tree) (i : Nat) (n : Node) : (t.putAt i n).nodes.Perm (n :: t.nodes) := by
  have h : (t.putAt i n).nodes.Perm
      (n :: (t.nodes.take (min i t.nodes.length) ++ t.nodes.drop (min i t.nodes.length))) := List.perm_middle
  rwa [List.take_append_drop] at h

theorem Indexed.putAt (h : t.Indexed) {n : Node} (hid : ∀ m ∈ t.nodes, m.id ≠ n.id) (i : Nat) :
    (t.putAt i n).Indexed := by
  have hd : ((t.putAt i n).nodes.map (·.id)).Nodup := by
    rw [((nodes_putAt_perm t i n).map _).nodup_iff, List.map_cons, List.nodup_cons]
    refine ⟨fun hm => ?_, h.nodup⟩
    obtain ⟨q, hq, hqid⟩ := List.mem_map.1 hm
    exact hid q hq hqid
  refine Places.indexed_putAll hd ?_
  intro k j hk
  generalize hi' : min i t.nodes.length = i' at hk ⊢
  have hle : i' ≤ t.nodes.length := by omega
  have htake : (t.nodes.take i').length = i' := by rw [List.length_take]; omega
  rw [List.drop_left' htake] at hk
  have hk' : k ∉ (t.nodes.drop i').map (·.id) := fun hm => hk (List.mem_map.2 <| by
    obtain ⟨q, hq, e⟩ := List.mem_map.1 hm
    exact ⟨q, List.mem_cons_of_mem _ hq, e⟩)
  refine (h k j).trans ?_
  by_cases hj : j < i'
  · rw [List.getElem?_append_left (by omega), List.getElem?_take_of_lt hj]
    simp [hj]
  · simp only [hj, false_and, iff_false]
    intro e
    obtain ⟨q, hq, hqid⟩ := Option.map_eq_some_iff.1 e
    refine hk' (List.mem_map.2 ⟨q, ?_, hqid⟩)
    refine List.mem_iff_getElem?.2 ⟨j - i', ?_⟩
    rwa [List.getElem?_drop, show i' + (j - i') = j by omega]

/-! ## Taking out -/

@[simp] theorem base_takeOut (t : Tree) (i : Nat) : (t.takeOut i).base = t.base := by
  unfold takeOut
  split <;> rfl

@[simp] theorem nextId_takeOut (t : Tree) (i : Nat) : (t.takeOut i).nextId = t.nextId := by
  unfold takeOut
  split <;> rfl

@[simp] theorem nodes_takeOut (t : Tree) (i : Nat) : (t.takeOut i).nodes = t.nodes.eraseIdx i := by
  unfold takeOut
  split
  · next h => exact (List.eraseIdx_of_length_le (List.getElem?_eq_none_iff.1 h)).symm
  · rfl

theorem Indexed.takeOut (h : t.Indexed) (i : Nat) : (t.takeOut i).Indexed := by
  cases hn : t.nodes[i]? with
  | none => rwa [Tree.takeOut, hn]
  | some n =>
    have hd : ((t.nodes.eraseIdx i).map (·.id)).Nodup := h.nodup.sublist ((List.eraseIdx_sublist _ _).map _)
    have hpos := position?_of_getElem? h hn
    rw [Tree.takeOut, hn]
    refine Places.indexed_putAll hd ?_
    intro k j hk
    rw [Places.get?_erase]
    by_cases e : k = n.id
    · rw [if_pos e]
      simp only [reduceCtorEq, false_iff, not_and]
      intro hj hm
      rw [List.getElem?_eraseIdx_of_lt hj, e] at hm
      rw [← h, hpos] at hm
      exact absurd (Option.some.inj hm) (by omega)
    · rw [if_neg e]
      refine (h k j).trans ?_
      by_cases hj : j < i
      · rw [List.getElem?_eraseIdx_of_lt hj]
        simp [hj]
      · simp only [hj, false_and, iff_false]
        intro hm
        have hne : j ≠ i := by
          rintro rfl
          rw [hn] at hm
          exact e (Option.some.inj hm).symm
        -- a node behind the one taken out is still behind the position
        obtain ⟨q, hq, hqid⟩ := Option.map_eq_some_iff.1 hm
        refine hk (List.mem_map.2 ⟨q, List.mem_iff_getElem?.2 ⟨j - 1 - i, ?_⟩, hqid⟩)
        rw [List.getElem?_drop, List.getElem?_eraseIdx_of_ge (by omega), ← hq]
        congr 1
        omega

/-! ## Changing in place -/

theorem Indexed.modifyAt (h : t.Indexed) {f : Node → Node} (hf : ∀ n, (f n).id = n.id) (i : Nat) :
    { t with nodes := t.nodes.modify i f : Tree }.Indexed := by
  intro k j
  refine (h k j).trans ?_
  rw [List.getElem?_modify]
  cases t.nodes[j]? with
  | none => simp
  | some n => by_cases e : i = j <;> simp [e, hf]

/-- in a list with distinct ids, changing the node at a position changes the node of its id -/
theorem mem_modify_iff (hd : (t.nodes.map (·.id)).Nodup) {i : Nat} {n : Node} (hn : t.nodes[i]? = some n)
    (f : Node → Node) (m : Node) : m ∈ t.nodes.modify i f ↔ m = f n ∨ m ∈ t.nodes ∧ m.id ≠ n.id := by
  simp only [List.mem_iff_getElem?, List.getElem?_modify]
  constructor
  · rintro ⟨j, hj⟩
    by_cases e : i = j
    · subst e
      rw [hn] at hj
      simp only [if_true, Option.map_eq_map, Option.map_some, Option.some.injEq] at hj
      exact Or.inl hj.symm
    · cases hm : t.nodes[j]? with
      | none => simp [hm] at hj
      | some q =>
        simp only [hm, e, if_false, Option.map_eq_map, Option.map_some, Option.some.injEq] at hj
        subst hj
        refine Or.inr ⟨⟨j, hm⟩, fun hid => e ?_⟩
        refine (List.getElem?_inj (by simpa using (List.getElem?_eq_some_iff.1 hn).1) hd).1 ?_
        rw [List.getElem?_map, List.getElem?_map, hn, hm, Option.map_some, Option.map_some, hid]
  · rintro (rfl | ⟨⟨j, hj⟩, hid⟩)
    · exact ⟨i, by simp [hn]⟩
    · refine ⟨j, ?_⟩
      have e : i ≠ j := by
        rintro rfl
        rw [hn] at hj
        exact hid (Option.some.inj hj ▸ rfl)
      simp [hj, e]

/-! ## The next new id -/

theorem le_advance (t : Tree) (id : NodeId) : t.nextId ≤ t.advance id := by
  rw [UInt64.le_iff_toNat_le, advance, Word.toNat_max]
  exact Nat.le_max_left _ _

theorem lt_advance (t : Tree) {id : NodeId} (h : id.toNat < Word.top) : id < t.advance id := by
  rw [UInt64.lt_iff_toNat_lt, advance, Word.toNat_max, Word.toNat_satAdd]
  have : (1 : UInt64).toNat = 1 := rfl
  omega

end Tree

end ByteAtlas
