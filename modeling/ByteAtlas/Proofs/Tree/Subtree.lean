/-
Subtrees: the walk with a stack lists a node and all below it, each once, parents before children.

`branch` is the listing without a stack: a position, and then the branches of its children. The depth to which it goes
down does not matter from the number of nodes on (`branch_succ`), so `under` obeys an equation without a bound
(`under_eq_cons`). The stack holds the roots of branches that are still to be listed (`unstack_eq_flatMap`), which makes
both listings the same (`subtree_eq_under`).

- `mem_subtree_iff`: a position is in the subtree of an id if the id lies above its node.
- `nodup_subtree`: no position is listed twice.
- `mem_definition_iff`, `nodup_map_id_definition`: the same for the nodes of a definition.
-/
import ByteAtlas.Proofs.Tree.WellFormed
import ByteAtlas.Definition.Canonical

namespace ByteAtlas.Tree

variable {t : Tree}

/-- a position and those of all nodes below it, down to a depth -/
def branch (t : Tree) : Nat → Nat → List Nat
  | 0, _ => []
  | depth + 1, i =>
    match t.nodes[i]? with
    | none => []
    | some n => i :: (t.children n.id).flatMap (branch t depth)

def under (t : Tree) (i : Nat) : List Nat := t.branch t.nodes.length i

theorem branch_succ_of_some {i : Nat} {n : Node} (hn : t.nodes[i]? = some n) (depth : Nat) :
    t.branch (depth + 1) i = i :: (t.children n.id).flatMap (t.branch depth) := by
  rw [branch, hn]

/-- what is listed lies below -/
theorem liesAbove_of_mem_branch (h : t.Formed) {depth i j : Nat} (hj : j ∈ t.branch depth i) :
    ∃ n m, t.nodes[i]? = some n ∧ t.nodes[j]? = some m ∧ LiesAbove t.nodes n.id m.id := by
  induction depth generalizing i with
  | zero => simp [branch] at hj
  | succ depth ih =>
    cases hn : t.nodes[i]? with
    | none => simp [branch, hn] at hj
    | some n =>
      rw [branch_succ_of_some hn, List.mem_cons, List.mem_flatMap] at hj
      rcases hj with rfl | ⟨c, hc, hj⟩
      · exact ⟨n, n, rfl, hn, .self⟩
      · obtain ⟨q, m, hq, hm, hab⟩ := ih hj
        obtain ⟨q', hq', hp⟩ := mem_children.1 hc
        obtain rfl := Option.some.inj (hq.symm.trans hq')
        have hz : q.parent ≠ 0 := hp ▸ h.forest.nonzero n (List.mem_of_getElem? hn)
        exact ⟨n, m, rfl, hm, LiesAbove.trans (hp ▸ .up (List.mem_of_getElem? hq) hz .self) hab⟩

/-- one level more lists the children of everything listed -/
theorem children_mem_branch {depth i j : Nat} (hj : j ∈ t.branch depth i) {n : Node} (hn : t.nodes[j]? = some n) {c : Nat}
    (hc : c ∈ t.children n.id) : c ∈ t.branch (depth + 1) i := by
  induction depth generalizing i with
  | zero => simp [branch] at hj
  | succ depth ih =>
    cases hi : t.nodes[i]? with
    | none => simp [branch, hi] at hj
    | some m =>
      rw [branch_succ_of_some hi, List.mem_cons, List.mem_flatMap] at hj ⊢
      refine Or.inr ?_
      rcases hj with rfl | ⟨d, hd, hj⟩
      · obtain rfl := Option.some.inj (hn.symm.trans hi)
        obtain ⟨q, hq, -⟩ := mem_children.1 hc
        exact ⟨c, hc, by rw [branch_succ_of_some hq]; exact List.mem_cons_self⟩
      · exact ⟨d, hd, ih hj⟩

/-- no position is listed twice: two children share nothing, and no node lies below itself -/
theorem nodup_branch (h : t.Formed) (depth i : Nat) : (t.branch depth i).Nodup := by
  induction depth generalizing i with
  | zero => simp [branch]
  | succ depth ih =>
    cases hn : t.nodes[i]? with
    | none => simp [branch, hn]
    | some n =>
      have hz : n.id ≠ 0 := h.forest.nonzero n (List.mem_of_getElem? hn)
      have hbelow : ∀ c ∈ t.children n.id, ∀ j ∈ t.branch depth c, ∃ q m, t.nodes[c]? = some q ∧ q ∈ t.nodes ∧
          q.parent = n.id ∧ t.nodes[j]? = some m ∧ LiesAbove t.nodes q.id m.id := by
        intro c hc j hj
        obtain ⟨q, m, hq, hm, hab⟩ := liesAbove_of_mem_branch h hj
        obtain ⟨q', hq', hp⟩ := mem_children.1 hc
        obtain rfl := Option.some.inj (hq.symm.trans hq')
        exact ⟨q, m, hq, List.mem_of_getElem? hq, hp, hm, hab⟩
      rw [branch_succ_of_some hn, List.nodup_cons]
      constructor
      · rw [List.mem_flatMap]
        rintro ⟨c, hc, hi⟩
        obtain ⟨q, m, -, hq, hp, hm, hab⟩ := hbelow c hc i hi
        obtain rfl := Option.some.inj (hn.symm.trans hm)
        exact h.forest.not_liesAbove_parent hq (hp ▸ hz) (hp ▸ hab)
      · refine List.nodup_flatMap.2 ⟨fun c _ => ih c, ?_⟩
        have hchildren : (t.children n.id).Nodup :=
          ((sortByKey_perm _ _).nodup_iff).2 (List.nodup_range.filter _)
        refine hchildren.pairwise_of_forall_ne ?_
        intro c hc d hd hne j hjc hjd
        obtain ⟨q, m, hqc, hq, hqp, hm, hqm⟩ := hbelow c hc j hjc
        obtain ⟨r, m', hrd, hr, hrp, hm', hrm⟩ := hbelow d hd j hjd
        obtain rfl := Option.some.inj (hm.symm.trans hm')
        have hid : q.id ≠ r.id := fun e => hne (h.indexed.eq_of_id_eq hqc hrd e)
        rcases h.forest.liesAbove_total hqm hrm with hab | hab
        · exact h.forest.not_liesAbove_sibling hq hr (hqp.trans hrp.symm) (hrp ▸ hz) hid hab
        · exact h.forest.not_liesAbove_sibling hr hq (hrp.trans hqp.symm) (hqp ▸ hz) hid.symm hab

/-! ## Deep enough -/

/-- **The number of nodes is deep enough.** From a node at some depth, going down by the number of nodes less that depth
lists everything. -/
theorem branch_succ (h : t.Formed) {depth : NodeId → Nat} (hlen : ∀ n ∈ t.nodes, depth n.id < t.nodes.length)
    (hd : ∀ n ∈ t.nodes, n.parent ≠ 0 → depth n.parent < depth n.id) {k i : Nat} {n : Node}
    (hn : t.nodes[i]? = some n) (hk : t.nodes.length ≤ k + depth n.id) : t.branch (k + 1) i = t.branch k i := by
  induction k generalizing i n with
  | zero =>
    have := hlen n (List.mem_of_getElem? hn)
    omega
  | succ k ih =>
    rw [branch_succ_of_some hn, branch_succ_of_some hn]
    congr 1
    refine List.flatMap_congr ?_
    intro c hc
    obtain ⟨q, hq, hp⟩ := mem_children.1 hc
    have hlt := hd q (List.mem_of_getElem? hq) (hp ▸ h.forest.nonzero n (List.mem_of_getElem? hn))
    rw [hp] at hlt
    exact ih hq (by omega)

theorem branch_length_succ (h : t.Formed) {i : Nat} {n : Node} (hn : t.nodes[i]? = some n) :
    t.branch (t.nodes.length + 1) i = t.under i := by
  obtain ⟨depth, hlen, hd⟩ := h.forest.exists_depth
  exact branch_succ h hlen hd hn (Nat.le_add_right _ _)

/-- a node and all below it: the node, and then what lies under each of its children -/
theorem under_eq_cons (h : t.Formed) {i : Nat} {n : Node} (hn : t.nodes[i]? = some n) :
    t.under i = i :: (t.children n.id).flatMap t.under := by
  rw [← branch_length_succ h hn, branch_succ_of_some hn]
  rfl

theorem mem_under_iff (h : t.Formed) {i j : Nat} {n : Node} (hn : t.nodes[i]? = some n) :
    j ∈ t.under i ↔ ∃ m, t.nodes[j]? = some m ∧ LiesAbove t.nodes n.id m.id := by
  constructor
  · intro hj
    obtain ⟨n', m, hn', hm, hab⟩ := liesAbove_of_mem_branch h hj
    obtain rfl := Option.some.inj (hn.symm.trans hn')
    exact ⟨m, hm, hab⟩
  · rintro ⟨m, hm, hab⟩
    have key : ∀ {id}, LiesAbove t.nodes n.id id → ∀ j m, t.nodes[j]? = some m → m.id = id → j ∈ t.under i := by
      intro id hab
      induction hab with
      | self =>
        intro j m hm e
        obtain rfl := h.indexed.eq_of_id_eq hm hn e
        rw [under_eq_cons h hn]
        exact List.mem_cons_self
      | @up q hq hp _ ih =>
        intro j m hm e
        obtain rfl := h.forest.eq_of_id_eq (List.mem_of_getElem? hm) hq e
        obtain ⟨p, hpm, hpid, -⟩ := (h.forest.held m hq).resolve_left hp
        obtain ⟨k, hk⟩ := List.mem_iff_getElem?.1 hpm
        rw [← branch_length_succ h hn]
        exact children_mem_branch (ih k p hk hpid) hk (mem_children.2 ⟨m, hm, hpid.symm⟩)
    exact key hab j m hm rfl

theorem nodup_under (h : t.Formed) (i : Nat) : (t.under i).Nodup := nodup_branch h _ i

/-! ## The walk with a stack -/

/-- **The stack holds what is still to be listed.** As long as nothing on it has been seen and there are steps enough,
the walk lists the branches of the positions on the stack. -/
theorem unstack_eq_flatMap (h : t.Formed) {steps : Nat} {stack : List Nat} {seen : List NodeId}
    (hv : ∀ i ∈ stack, ∃ n, t.nodes[i]? = some n) (hd : (stack.flatMap t.under).Nodup)
    (hs : ∀ i ∈ stack.flatMap t.under, ∀ n, t.nodes[i]? = some n → n.id ∉ seen)
    (hl : (stack.flatMap t.under).length < steps) : t.unstack steps stack seen = stack.flatMap t.under := by
  induction steps generalizing stack seen with
  | zero => omega
  | succ steps ih =>
    cases stack with
    | nil => rfl
    | cons i stack =>
      obtain ⟨n, hn⟩ := hv i List.mem_cons_self
      have hsplit : (i :: stack).flatMap t.under = i :: (t.children n.id ++ stack).flatMap t.under := by
        rw [List.flatMap_cons, under_eq_cons h hn, List.flatMap_append, List.cons_append]
      rw [hsplit] at hd hs hl ⊢
      have hnot : seen.contains n.id = false := by
        rw [List.contains_eq_mem, decide_eq_false_iff_not]
        exact hs i List.mem_cons_self n hn
      rw [unstack, hn]
      simp only [hnot, Bool.false_eq_true, if_false]
      rw [List.nodup_cons] at hd
      congr 1
      refine ih ?_ hd.2 ?_ (by rw [List.length_cons] at hl; omega)
      · intro c hc
        rcases List.mem_append.1 hc with hc | hc
        · obtain ⟨q, hq, -⟩ := mem_children.1 hc
          exact ⟨q, hq⟩
        · exact hv c (List.mem_cons_of_mem _ hc)
      · intro c hc q hq hmem
        rcases List.mem_cons.1 hmem with e | hmem
        · exact hd.1 (h.indexed.eq_of_id_eq hq hn e ▸ hc)
        · exact hs c (List.mem_cons_of_mem _ hc) q hq hmem

theorem length_under_le (h : t.Formed) {i : Nat} {n : Node} (hn : t.nodes[i]? = some n) :
    (t.under i).length ≤ t.nodes.length := by
  have hsub : t.under i ⊆ List.range t.nodes.length := fun j hj => by
    obtain ⟨m, hm, -⟩ := (mem_under_iff h hn).1 hj
    exact List.mem_range.2 (List.getElem?_eq_some_iff.1 hm).1
  have := ((nodup_under h i).subperm hsub).length_le
  rwa [List.length_range] at this

/-- steps as many as there are nodes and one more empty the stack -/
theorem unstack_singleton (h : t.Formed) {i : Nat} {n : Node} (hn : t.nodes[i]? = some n) {steps : Nat}
    (hs : t.nodes.length < steps) : t.unstack steps [i] [] = t.under i := by
  have hone : [i].flatMap t.under = t.under i := List.flatMap_singleton _ _
  have hlen := length_under_le h hn
  calc t.unstack steps [i] [] = [i].flatMap t.under := by
        apply unstack_eq_flatMap h
        · exact fun j hj => ⟨n, List.mem_singleton.1 hj ▸ hn⟩
        · exact hone ▸ nodup_under h i
        · exact fun _ _ _ _ => List.not_mem_nil
        · rw [hone]; omega
    _ = t.under i := hone

/-- **The walk with a stack lists what lies under a node.** -/
theorem subtree_eq_under (h : t.Formed) {i : Nat} {n : Node} (hn : t.nodes[i]? = some n) : t.subtree n.id = t.under i := by
  rw [subtree, position?_of_getElem? h.indexed hn]
  exact unstack_singleton h hn (by omega)

/-- there is nothing below an id that is not there -/
theorem subtree_eq_nil (h : t.Formed) {id : NodeId} (hid : ¬ ∃ n ∈ t.nodes, n.id = id) : t.subtree id = [] := by
  have hc : t.contains id = false := (contains_eq_false_iff h.indexed).2 fun n hn e => hid ⟨n, hn, e⟩
  have hno : t.position? id = none := by simpa [contains] using hc
  rw [subtree, hno]

theorem mem_subtree_iff (h : t.Formed) {id : NodeId} {j : Nat} :
    j ∈ t.subtree id ↔ ∃ m, t.nodes[j]? = some m ∧ LiesAbove t.nodes id m.id := by
  by_cases hid : ∃ n ∈ t.nodes, n.id = id
  · obtain ⟨n, hn, rfl⟩ := hid
    obtain ⟨i, hi⟩ := List.mem_iff_getElem?.1 hn
    rw [subtree_eq_under h hi, mem_under_iff h hi]
  · rw [subtree_eq_nil h hid]
    refine iff_of_false List.not_mem_nil ?_
    rintro ⟨m, hm, hab⟩
    exact hid (h.forest.exists_of_liesAbove hab ⟨m, List.mem_of_getElem? hm, rfl⟩)

theorem nodup_subtree (h : t.Formed) (id : NodeId) : (t.subtree id).Nodup := by
  by_cases hid : ∃ n ∈ t.nodes, n.id = id
  · obtain ⟨n, hn, rfl⟩ := hid
    obtain ⟨i, hi⟩ := List.mem_iff_getElem?.1 hn
    exact subtree_eq_under h hi ▸ nodup_under h i
  · exact subtree_eq_nil h hid ▸ List.nodup_nil

/-! ## Definitions -/

theorem mem_definition_iff (h : t.Formed) {id : NodeId} {n : Node} :
    n ∈ t.definition id ↔ n ∈ t.nodes ∧ LiesAbove t.nodes id n.id := by
  rw [definition, List.mem_filterMap]
  constructor
  · rintro ⟨j, hj, hn⟩
    obtain ⟨m, hm, hab⟩ := (mem_subtree_iff h).1 hj
    obtain rfl := Option.some.inj (hn.symm.trans hm)
    exact ⟨List.mem_of_getElem? hn, hab⟩
  · rintro ⟨hn, hab⟩
    obtain ⟨j, hj⟩ := List.mem_iff_getElem?.1 hn
    exact ⟨j, (mem_subtree_iff h).2 ⟨n, hj, hab⟩, hj⟩

theorem nodup_map_id_definition (h : t.Formed) (id : NodeId) : ((t.definition id).map (·.id)).Nodup := by
  rw [definition, List.map_filterMap]
  refine (nodup_subtree h id).filterMap ?_
  intro i j b hi hj
  obtain ⟨m, hm, e⟩ := Option.map_eq_some_iff.1 hi
  obtain ⟨n, hn, e'⟩ := Option.map_eq_some_iff.1 hj
  exact h.indexed.eq_of_id_eq hm hn (e.trans e'.symm)

/-- the first node of a definition is the one it is the definition of -/
theorem definition_eq_cons (h : t.Formed) {n : Node} (hn : n ∈ t.nodes) :
    ∃ rest, t.definition n.id = n :: rest := by
  obtain ⟨i, hi⟩ := List.mem_iff_getElem?.1 hn
  rw [definition, subtree_eq_under h hi, under_eq_cons h hi, List.filterMap_cons_some hi]
  exact ⟨_, rfl⟩

end ByteAtlas.Tree
