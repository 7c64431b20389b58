/-
Edits that change one node in place: its plain fields, its shape, its parent. For each there is a reading of when it
succeeds that mentions the nodes alone (`modify_eq_ok_iff`, `reshape_eq_ok_iff`, `move_eq_ok_iff`) and the statement that
a formed tree stays formed. Undoing one of them is the same edit again, with what the node was before; it is never
refused and gives the very same tree back (`modify_modify`, `Formed.reshape_reshape`, `Formed.move_move`).
-/
import ByteAtlas.Proofs.Tree.Changes
import ByteAtlas.Edit.OnTree

namespace ByteAtlas

/-- a change of fields that have nothing to do with holding and being held -/
def Node.Plain (f : Node → Node) : Prop := ∀ n, (f n).id = n.id ∧ (f n).kind = n.kind ∧ (f n).parent = n.parent

namespace Tree

variable {t u : Tree} {id : NodeId}

/-! ## Plain fields -/

theorem modify_eq_ok_iff {f : Node → Node} :
    t.modify id f = .ok u ↔ ∃ i, t.position? id = some i ∧ u = { t with nodes := t.nodes.modify i f } := by
  unfold modify
  cases t.position? id with
  | none => simp
  | some i => simp [eq_comm]

/-- what a successful change in place needs and leaves behind -/
theorem modify_ok (h : t.Indexed) {f : Node → Node} (hu : t.modify id f = .ok u) :
    ∃ i n, t.nodes[i]? = some n ∧ n.id = id ∧ t.position? id = some i ∧ u = { t with nodes := t.nodes.modify i f } := by
  obtain ⟨i, hi, rfl⟩ := modify_eq_ok_iff.1 hu
  obtain ⟨n, hn, hid⟩ := Option.map_eq_some_iff.1 ((h id i).1 hi)
  exact ⟨i, n, hn, hid, hi, rfl⟩

/-- **Changing back.** If the second change restores the node that the first one met, both together restore the tree. -/
theorem modify_modify {f g : Node → Node} (hu : t.modify id f = .ok u) (hg : ∀ n, t.find? id = some n → g (f n) = n) :
    u.modify id g = .ok t := by
  obtain ⟨i, hi, rfl⟩ := modify_eq_ok_iff.1 hu
  refine modify_eq_ok_iff.2 ⟨i, hi, ?_⟩
  have hnodes : (t.nodes.modify i f).modify i g = t.nodes := by
    apply List.ext_getElem?
    intro j
    rw [List.getElem?_modify, List.getElem?_modify]
    by_cases e : i = j
    · subst e
      cases hn : t.nodes[i]? with
      | none => simp
      | some n => simp [hg n (by rw [find?, hi, Option.bind_some, hn])]
    · simp [e]
  rw [hnodes]

theorem Formed.modify (h : t.Formed) {f : Node → Node} (hu : t.modify id f = .ok u) (hid : ∀ n, (f n).id = n.id)
    (hf : ∀ n ∈ t.nodes, n.id = id → ((f n).kind.canHold ∨ ∀ m ∈ t.nodes, m.parent ≠ id) ∧
      CanHold t.nodes (f n).parent ∧ ((f n).parent ≠ 0 → ¬ LiesAbove t.nodes id (f n).parent)) : u.Formed := by
  obtain ⟨i, n, hn, rfl, -, rfl⟩ := modify_ok h.indexed hu
  have hn' := List.mem_of_getElem? hn
  obtain ⟨hk, hp, ha⟩ := hf n hn' rfl
  have hindexed := h.indexed.modifyAt hid i
  refine ⟨hindexed, h.forest.replace hn' (hid n) ?_ (mem_modify_iff h.indexed.nodup hn f) hk hp ha⟩
  apply List.ext_getElem?
  intro j
  rw [List.getElem?_map, List.getElem?_map, List.getElem?_modify]
  cases t.nodes[j]? with
  | none => simp
  | some m => by_cases e : i = j <;> simp [e, hid]

theorem Formed.modifyField (h : t.Formed) {f : Node → Node} (hu : t.modify id f = .ok u) (hf : Node.Plain f) :
    u.Formed := by
  refine h.modify hu (fun n => (hf n).1) ?_
  intro n hn hid
  rw [(hf n).2.1, (hf n).2.2]
  exact ⟨hid ▸ h.forest.canHold_or_childless hn, h.forest.held n hn,
    fun hz => hid ▸ h.forest.not_liesAbove_parent hn hz⟩

/-! ## Shape -/

theorem reshape_eq_ok_iff {s : Shape} : t.reshape id s = .ok u ↔
    (s.kind.canHold ∨ ∀ m ∈ t.nodes, m.parent ≠ id) ∧ t.modify id (fun n => n.withShape s) = .ok u := by
  unfold reshape
  rw [← children_isEmpty_iff]
  cases s.kind.canHold <;> cases (t.children id).isEmpty <;> simp

theorem Formed.reshape (h : t.Formed) {s : Shape} (hu : t.reshape id s = .ok u) : u.Formed := by
  obtain ⟨hk, hu⟩ := reshape_eq_ok_iff.1 hu
  exact h.modify hu (fun _ => rfl) fun n hn hid =>
    ⟨hk, h.forest.held n hn, fun hz => hid ▸ h.forest.not_liesAbove_parent hn hz⟩

/-- a node in another shape can be given its earlier shape again -/
theorem Formed.reshape_reshape (h : t.Formed) {old new : Shape} (hu : t.reshape id new = .ok u)
    (hold : ∀ n, t.find? id = some n → n.shape = old) : u.reshape id old = .ok t := by
  obtain ⟨-, hu⟩ := reshape_eq_ok_iff.1 hu
  refine reshape_eq_ok_iff.2 ⟨?_, modify_modify hu fun n hn => ?_⟩
  · obtain ⟨i, n, hn, rfl, -, rfl⟩ := modify_ok h.indexed hu
    have hn' := List.mem_of_getElem? hn
    have hshape := hold n ((find?_eq_some_iff h.indexed).2 ⟨hn', rfl⟩)
    refine (h.forest.canHold_or_childless hn').imp (fun hk => hshape ▸ hk) ?_
    intro hno m hm
    rcases (mem_modify_iff h.indexed.nodup hn _ m).1 hm with rfl | ⟨hm, -⟩
    · exact hno n hn'
    · exact hno m hm
  · rw [← hold n hn]
    rfl

/-! ## Parent and offset -/

theorem move_eq_ok_iff (h : t.Formed) {parent : NodeId} {offset : UInt64} : t.move id parent offset = .ok u ↔
    CanHold t.nodes parent ∧ (parent ≠ 0 → ¬ LiesAbove t.nodes id parent) ∧
      t.modify id (fun n => { n with parent, offset }) = .ok u := by
  unfold move
  rw [← checkHolder_eq_ok_iff h.indexed, ← liesAbove_iff h]
  cases hc : t.contains id with
  | false =>
    have hno : t.position? id = none := by simpa [contains] using hc
    simp [modify, hno]
  | true =>
    cases t.checkHolder parent with
    | error e => simp
    | ok _ =>
      by_cases hz : parent = 0
      · simp [hz]
      · cases hab : t.liesAbove id parent <;> simp [hz]

theorem Formed.move (h : t.Formed) {parent : NodeId} {offset : UInt64} (hu : t.move id parent offset = .ok u) :
    u.Formed := by
  obtain ⟨hp, ha, hu⟩ := (move_eq_ok_iff h).1 hu
  refine h.modify hu (fun _ => rfl) fun n hn hid => ⟨?_, hp, ha⟩
  have hk := h.forest.canHold_or_childless hn
  rwa [hid] at hk

/-- changing one node leaves what lies below it where it was -/
theorem liesAbove_of_modify (h : t.Indexed) {f : Node → Node} (hid : ∀ n, (f n).id = n.id) (hu : t.modify id f = .ok u)
    {below : NodeId} (hab : LiesAbove u.nodes id below) : LiesAbove t.nodes id below := by
  obtain ⟨i, n, hn, rfl, -, rfl⟩ := modify_ok h hu
  induction hab with
  | self => exact .self
  | @up m hm hz _ ih =>
    rcases (mem_modify_iff h.nodup hn f m).1 hm with rfl | ⟨hm, -⟩
    · rw [hid]
      exact .self
    · exact .up hm hz ih

/-- a node that was moved can be moved back -/
theorem Formed.move_move (h : t.Formed) {parent parent' : NodeId} {offset offset' : UInt64}
    (hu : t.move id parent' offset' = .ok u)
    (hold : ∀ n, t.find? id = some n → n.parent = parent ∧ n.offset = offset) : u.move id parent offset = .ok t := by
  have hformed := h.move hu
  obtain ⟨-, -, hu⟩ := (move_eq_ok_iff h).1 hu
  obtain ⟨i, n, hn, rfl, -, hnodes⟩ := modify_ok h.indexed hu
  have hn' := List.mem_of_getElem? hn
  obtain ⟨rfl, rfl⟩ := hold n ((find?_eq_some_iff h.indexed).2 ⟨hn', rfl⟩)
  refine (move_eq_ok_iff hformed).2 ⟨?_, fun hz hab => ?_, modify_modify hu fun m hm => ?_⟩
  · rcases h.forest.held n hn' with hz | ⟨p, hp, hpid, hpk⟩
    · exact Or.inl hz
    · have hz : n.parent ≠ 0 := hpid ▸ h.forest.nonzero p hp
      have hne : p.id ≠ n.id := by
        intro e
        exact h.forest.not_liesAbove_parent hn' hz (by rw [← hpid, e]; exact .self)
      refine Or.inr ⟨p, ?_, hpid, hpk⟩
      rw [hnodes]
      exact (mem_modify_iff h.indexed.nodup hn _ p).2 (Or.inr ⟨hp, hne⟩)
  · have hab' := liesAbove_of_modify (f := fun m => { m with parent := parent', offset := offset' }) h.indexed
      (fun _ => rfl) hu hab
    exact h.forest.not_liesAbove_parent hn' hz hab'
  · obtain ⟨hp, ho⟩ := hold m hm
    rw [← hp, ← ho]

end Tree

end ByteAtlas
