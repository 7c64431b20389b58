/-
Addresses and levels, from parent to child. Both are told by a walk upwards; in a forest the walk from a child is one step
longer than the walk from its parent.

- `address_child`: a child is at the address of its parent and its own offset more, as words.
- `level_child`, `level_root`: a child has one node more above it than its parent has; above a root there is none.
-/
import ByteAtlas.Proofs.Tree.WellFormed
import ByteAtlas.Tree.Address

namespace ByteAtlas.Tree

variable {t : Tree} {i c : Nat} {n m : Node}

/-! ## Addresses -/

theorem climb_root (hn : t.nodes[i]? = some n) (hz : n.parent = 0) (k : Nat) : t.climb (k + 1) i = n.offset := by
  simp [climb, hn, hz]

theorem climb_held (h : t.Formed) (hn : t.nodes[i]? = some n) (hm : t.nodes[c]? = some m) (hp : m.parent = n.id)
    (k : Nat) : t.climb (k + 1) c = m.offset + t.climb k i := by
  have hz : n.id ≠ 0 := h.forest.nonzero n (List.mem_of_getElem? hn)
  simp [climb, hm, hp, hz, position?_of_getElem? h.indexed hn]

/-- from a node at some depth, as many steps upwards are enough -/
theorem climb_succ (h : t.Formed) {depth : NodeId → Nat} (hd : ∀ n ∈ t.nodes, n.parent ≠ 0 → depth n.parent < depth n.id)
    {k : Nat} (hn : t.nodes[i]? = some n) (hk : depth n.id < k) : t.climb (k + 1) i = t.climb k i := by
  induction k generalizing i n with
  | zero => omega
  | succ k ih =>
    by_cases hz : n.parent = 0
    · rw [climb_root hn hz, climb_root hn hz]
    · have hmem := List.mem_of_getElem? hn
      obtain ⟨p, hp, hpid, -⟩ := (h.forest.held n hmem).resolve_left hz
      obtain ⟨j, hj⟩ := List.mem_iff_getElem?.1 hp
      have hlt := hd n hmem hz
      rw [climb_held h hj hn hpid.symm, climb_held h hj hn hpid.symm, ih hj (by rw [hpid]; omega)]

/-- **A child is where its parent is, and its offset further.** -/
theorem address_child (h : t.Formed) (hn : t.nodes[i]? = some n) (hc : c ∈ t.children n.id) :
    t.address c = t.address i + t.offsetAt c := by
  obtain ⟨m, hm, hp⟩ := mem_children.1 hc
  obtain ⟨depth, hlen, hd⟩ := h.forest.exists_depth
  have hup := climb_succ h hd hn (hlen n (List.mem_of_getElem? hn))
  have hoffset : t.offsetAt c = m.offset := by simp [offsetAt, hm]
  calc t.address c = t.base + (m.offset + t.climb t.nodes.length i) := by rw [address, climb_held h hn hm hp]
    _ = t.base + t.climb t.nodes.length i + m.offset := by ac_rfl
    _ = t.address i + t.offsetAt c := by rw [address, hup, hoffset]

/-! ## Levels -/

def level (t : Tree) (id : NodeId) : Nat := t.nodes.countP fun m => m.id != id && t.liesAbove m.id id

/-- what lies above a node is the node itself or counts for its level -/
theorem countP_liesAbove (h : t.Formed) (hn : n ∈ t.nodes) :
    (t.nodes.countP fun m => t.liesAbove m.id n.id) = t.level n.id + 1 := by
  have hself : t.liesAbove n.id n.id = true := (liesAbove_iff h).2 .self
  have hone : (t.nodes.countP fun m => t.liesAbove m.id n.id && !(m.id != n.id)) = 1 := by
    calc (t.nodes.countP fun m => t.liesAbove m.id n.id && !(m.id != n.id)) = t.nodes.countP fun m => m.id == n.id := by
          refine List.countP_congr fun m _ => ?_
          by_cases e : m.id = n.id <;> simp [e, hself]
      _ = (t.nodes.map (·.id)).count n.id := by rw [List.count, List.countP_map]; rfl
      _ = 1 := List.count_eq_one_of_mem h.forest.distinct (List.mem_map_of_mem hn)
  rw [List.countP_eq_countP_filter_add _ _ (fun m => m.id != n.id), List.countP_filter, List.countP_filter, hone, level]
  simp only [Bool.and_comm]

theorem level_child (h : t.Formed) (hn : n ∈ t.nodes) (hm : m ∈ t.nodes) (hp : m.parent = n.id) :
    t.level m.id = t.level n.id + 1 := by
  have hz : m.parent ≠ 0 := hp ▸ h.forest.nonzero n hn
  rw [← countP_liesAbove h hn, level]
  refine List.countP_congr fun a ha => ?_
  simp only [Bool.and_eq_true, bne_iff_ne, liesAbove_iff h]
  constructor
  · rintro ⟨hne, hab⟩
    rcases hab.eq_or_exists_node with e | ⟨q, hq, hqid, -, hup⟩
    · exact absurd e.symm hne
    · obtain rfl := h.forest.eq_of_id_eq hq hm hqid
      exact hp ▸ hup
  · intro hab
    refine ⟨?_, .up hm hz (hp ▸ hab)⟩
    intro e
    exact h.forest.not_liesAbove_parent hm hz (hp ▸ e ▸ hab)

theorem level_root (h : t.Formed) (hn : n ∈ t.nodes) (hp : n.parent = 0) : t.level n.id = 0 := by
  rw [level, List.countP_eq_zero]
  intro a ha
  simp only [Bool.and_eq_true, bne_iff_ne, liesAbove_iff h, not_and]
  intro hne hab
  rcases hab.eq_or_exists_node with e | ⟨q, hq, hqid, hz, -⟩
  · exact hne e.symm
  · obtain rfl := h.forest.eq_of_id_eq hq hn hqid
    exact hz hp

end ByteAtlas.Tree
