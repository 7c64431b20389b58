/-
The order in which a tree is spread out: a node comes before what lies below it, and what lies below one node comes
before what lies below a later sibling. Siblings stand by offset, and those with one offset in storage order.

Folded nodes keep what lies below them from being listed. `unfolded` is the part of a branch that is left.

- `pairwise_branch`: branches are in this order.
- `mem_unfolded_iff`: what is left is what has no folded node above it.
- `exists_root_over`: every node lies below a root, so the branches of the roots list all nodes.
-/
import ByteAtlas.Proofs.Tree.Subtree

namespace ByteAtlas.Tree

variable {t : Tree} {a b c i j : Nat} {n : Node}

/-! ## Above and before -/

/-- the node at one position is that at another or lies above it -/
def Over (t : Tree) (a i : Nat) : Prop :=
  ∃ p n, t.nodes[a]? = some p ∧ t.nodes[i]? = some n ∧ LiesAbove t.nodes p.id n.id

/-- the nodes at two positions have one parent, and the first has the smaller offset or comes first in storage -/
def Earlier (t : Tree) (a b : Nat) : Prop :=
  ∃ p q, t.nodes[a]? = some p ∧ t.nodes[b]? = some q ∧ p.parent = q.parent ∧
    (p.offset < q.offset ∨ p.offset = q.offset ∧ a < b)

/-- one node lies above the other, or they lie below siblings that are in order -/
def InPreorder (t : Tree) (i j : Nat) : Prop :=
  (i ≠ j ∧ t.Over i j) ∨ ∃ a b, t.Earlier a b ∧ t.Over a i ∧ t.Over b j

theorem Over.refl (hn : t.nodes[i]? = some n) : t.Over i i := ⟨n, n, hn, hn, .self⟩

theorem Over.trans (hab : t.Over a b) (hbc : t.Over b c) : t.Over a c := by
  obtain ⟨p, q, hp, hq, hpq⟩ := hab
  obtain ⟨q', r, hq', hr, hqr⟩ := hbc
  obtain rfl := Option.some.inj (hq.symm.trans hq')
  exact ⟨p, r, hp, hr, hpq.trans hqr⟩

/-- of two nodes above a third one, one lies above the other -/
theorem Over.total (h : t.Formed) (ha : t.Over a i) (hb : t.Over b i) : t.Over a b ∨ t.Over b a := by
  obtain ⟨p, n, hp, hn, hpn⟩ := ha
  obtain ⟨q, n', hq, hn', hqn⟩ := hb
  obtain rfl := Option.some.inj (hn.symm.trans hn')
  rcases h.forest.liesAbove_total hpn hqn with hpq | hqp
  · exact Or.inl ⟨p, q, hp, hq, hpq⟩
  · exact Or.inr ⟨q, p, hq, hp, hqp⟩

theorem Over.antisymm (h : t.Formed) (hab : t.Over a b) (hba : t.Over b a) : a = b := by
  obtain ⟨p, q, hp, hq, hpq⟩ := hab
  obtain ⟨q', p', hq', hp', hqp⟩ := hba
  obtain rfl := Option.some.inj (hp.symm.trans hp')
  obtain rfl := Option.some.inj (hq.symm.trans hq')
  rcases hpq.eq_or_exists_node with e | ⟨m, hm, hmid, hz, hup⟩
  · exact h.indexed.eq_of_id_eq hp hq e.symm
  · obtain rfl := h.forest.eq_of_id_eq hm (List.mem_of_getElem? hq) hmid
    exact absurd (hqp.trans hup) (h.forest.not_liesAbove_parent hm hz)

/-- what lies above a node is the node, or lies above its parent -/
theorem Over.eq_or_parent (h : t.Formed) (hn : t.nodes[i]? = some n) (hc : c ∈ t.children n.id) (ha : t.Over a c) :
    a = c ∨ t.Over a i := by
  obtain ⟨p, m, hp, hm, hpm⟩ := ha
  obtain ⟨m', hm', hparent⟩ := mem_children.1 hc
  obtain rfl := Option.some.inj (hm.symm.trans hm')
  rcases hpm.eq_or_exists_node with e | ⟨q, hq, hqid, -, hup⟩
  · exact Or.inl (h.indexed.eq_of_id_eq hp hm e.symm)
  · obtain rfl := h.forest.eq_of_id_eq hq (List.mem_of_getElem? hm) hqid
    exact Or.inr ⟨p, n, hp, hn, hparent ▸ hup⟩

/-- nothing but a root lies above it -/
theorem Over.eq_of_root (h : t.Formed) (hc : c ∈ t.roots) (ha : t.Over a c) : a = c := by
  obtain ⟨p, m, hp, hm, hpm⟩ := ha
  obtain ⟨m', hm', hparent⟩ := mem_children.1 hc
  obtain rfl := Option.some.inj (hm.symm.trans hm')
  rcases hpm.eq_or_exists_node with e | ⟨q, hq, hqid, hz, -⟩
  · exact h.indexed.eq_of_id_eq hp hm e.symm
  · obtain rfl := h.forest.eq_of_id_eq hq (List.mem_of_getElem? hm) hqid
    exact absurd hparent hz

theorem over_child (h : t.Formed) (hn : t.nodes[i]? = some n) (hc : c ∈ t.children n.id) : t.Over i c := by
  obtain ⟨m, hm, hparent⟩ := mem_children.1 hc
  have hz : m.parent ≠ 0 := hparent ▸ h.forest.nonzero n (List.mem_of_getElem? hn)
  exact ⟨n, m, hn, hm, .up (List.mem_of_getElem? hm) hz (hparent ▸ .self)⟩

theorem not_over_parent (h : t.Formed) (hn : t.nodes[i]? = some n) (hc : c ∈ t.children n.id) : ¬ t.Over c i := by
  rintro ⟨m, n', hm, hn', hmn⟩
  obtain rfl := Option.some.inj (hn.symm.trans hn')
  obtain ⟨m', hm', hparent⟩ := mem_children.1 hc
  obtain rfl := Option.some.inj (hm.symm.trans hm')
  have hz : m.parent ≠ 0 := hparent ▸ h.forest.nonzero n (List.mem_of_getElem? hn)
  exact h.forest.not_liesAbove_parent (List.mem_of_getElem? hm) hz (hparent ▸ hmn)

/-- every node lies below a root -/
theorem exists_root_over (h : t.Formed) (hn : t.nodes[i]? = some n) : ∃ r ∈ t.roots, t.Over r i := by
  have key : ∀ {id}, Rooted t.nodes id → ∃ r ∈ t.nodes, r.parent = 0 ∧ LiesAbove t.nodes r.id id := by
    intro id hr
    induction hr with
    | @root m hm hz => exact ⟨m, hm, hz, .self⟩
    | @held m hm hr ih =>
      obtain ⟨p, hp, hpid⟩ := hr.exists_node
      obtain ⟨r, hrm, hrz, hab⟩ := ih
      exact ⟨r, hrm, hrz, .up hm (hpid ▸ h.forest.nonzero p hp) hab⟩
  obtain ⟨r, hr, hz, hab⟩ := key (h.forest.rooted n (List.mem_of_getElem? hn))
  obtain ⟨k, hk⟩ := List.mem_iff_getElem?.1 hr
  exact ⟨k, mem_children.2 ⟨r, hk, hz⟩, r, n, hk, hn, hab⟩

/-- siblings do not lie above each other -/
theorem Earlier.not_over (h : t.Formed) (hab : t.Earlier a b) : ¬ t.Over a b ∧ ¬ t.Over b a := by
  obtain ⟨p, q, hp, hq, hparent, horder⟩ := hab
  have hne : p.id ≠ q.id := by
    intro e
    obtain rfl := h.indexed.eq_of_id_eq hp hq e
    obtain rfl := Option.some.inj (hp.symm.trans hq)
    simp at horder
  have hpm := List.mem_of_getElem? hp
  have hqm := List.mem_of_getElem? hq
  have hno : ∀ {m k : Node}, m ∈ t.nodes → k ∈ t.nodes → m.parent = k.parent → m.id ≠ k.id →
      ¬ LiesAbove t.nodes m.id k.id := by
    intro m k hm hk hmk hne hab
    by_cases hz : k.parent = 0
    · rcases hab.eq_or_exists_node with e | ⟨k', hk', hid, hz', -⟩
      · exact hne e.symm
      · exact hz' (h.forest.eq_of_id_eq hk' hk hid ▸ hz)
    · exact h.forest.not_liesAbove_sibling hm hk hmk hz hne hab
  constructor
  · rintro ⟨p', q', hp', hq', hpq⟩
    obtain rfl := Option.some.inj (hp.symm.trans hp')
    obtain rfl := Option.some.inj (hq.symm.trans hq')
    exact hno hpm hqm hparent hne hpq
  · rintro ⟨q', p', hq', hp', hqp⟩
    obtain rfl := Option.some.inj (hp.symm.trans hp')
    obtain rfl := Option.some.inj (hq.symm.trans hq')
    exact hno hqm hpm hparent.symm hne.symm hqp

/-- nothing comes before itself -/
theorem InPreorder.ne (h : t.Formed) (hij : t.InPreorder i j) : i ≠ j := by
  rcases hij with ⟨hne, -⟩ | ⟨a, b, hab, hai, hbj⟩
  · exact hne
  · rintro rfl
    rcases hai.total h hbj with hover | hover
    · exact (hab.not_over h).1 hover
    · exact (hab.not_over h).2 hover

/-! ## Branches are in order -/

theorem pairwise_insertByKey {key : Nat → UInt64} {js : List Nat}
    (hjs : js.Pairwise fun a b => key a < key b ∨ key a = key b ∧ a < b) (hi : ∀ j ∈ js, i < j) :
    (insertByKey key i js).Pairwise fun a b => key a < key b ∨ key a = key b ∧ a < b := by
  induction js with
  | nil => exact List.pairwise_singleton _ _
  | cons j rest ih =>
    obtain ⟨hj, hrest⟩ := List.pairwise_cons.1 hjs
    obtain ⟨hij, hirest⟩ := List.forall_mem_cons.1 hi
    rw [insertByKey]
    split_ifs with hle
    · refine List.pairwise_cons.2 ⟨?_, hjs⟩
      intro k hk
      rcases List.mem_cons.1 hk with rfl | hk
      · exact (UInt64.le_iff_lt_or_eq.1 hle).imp_right fun heq => ⟨heq, hij⟩
      · rcases hj k hk with hlt | ⟨heq, -⟩
        · exact Or.inl (UInt64.lt_of_le_of_lt hle hlt)
        · exact (UInt64.le_iff_lt_or_eq.1 (heq ▸ hle)).imp_right fun heq => ⟨heq, hirest k hk⟩
    · refine List.pairwise_cons.2 ⟨?_, ih hrest hirest⟩
      intro k hk
      rcases List.mem_cons.1 ((insertByKey_perm key i rest).subset hk) with rfl | hk
      · exact Or.inl (UInt64.not_le.1 hle)
      · exact hj k hk

/-- siblings are listed by offset, and with one offset in storage order -/
theorem pairwise_children (parent : NodeId) : (t.children parent).Pairwise t.Earlier := by
  have hsort : ∀ (key : Nat → UInt64) (js : List Nat), js.Pairwise (· < ·) →
      (sortByKey key js).Pairwise fun a b => key a < key b ∨ key a = key b ∧ a < b := by
    intro key js hjs
    induction js with
    | nil => exact .nil
    | cons j rest ih =>
      obtain ⟨hj, hrest⟩ := List.pairwise_cons.1 hjs
      exact pairwise_insertByKey (ih hrest) fun k hk => hj k ((sortByKey_perm key rest).subset hk)
  have hheld : (t.heldBy parent).Pairwise (· < ·) := List.pairwise_lt_range.filter _
  refine (hsort t.offsetAt _ hheld).imp_of_mem ?_
  intro a b ha hb hab
  obtain ⟨p, hp, hpp⟩ := mem_children.1 ha
  obtain ⟨q, hq, hqp⟩ := mem_children.1 hb
  refine ⟨p, q, hp, hq, hpp.trans hqp.symm, ?_⟩
  simpa [offsetAt, hp, hq] using hab

theorem over_of_mem_branch (h : t.Formed) {depth : Nat} (hj : j ∈ t.branch depth i) : t.Over i j :=
  liesAbove_of_mem_branch h hj

/-- if branches are in order, so is what lies below siblings -/
theorem pairwise_flatMap_children (h : t.Formed) {depth : Nat} (hbranch : ∀ c, (t.branch depth c).Pairwise t.InPreorder)
    (parent : NodeId) : ((t.children parent).flatMap (t.branch depth)).Pairwise t.InPreorder := by
  refine List.pairwise_flatMap.2 ⟨fun c _ => hbranch c, (pairwise_children parent).imp ?_⟩
  intro c d hcd x hx y hy
  exact Or.inr ⟨c, d, hcd, over_of_mem_branch h hx, over_of_mem_branch h hy⟩

/-- **A branch is in order**: a node before what lies below it, and what lies below siblings in the order of these. -/
theorem pairwise_branch (h : t.Formed) (depth i : Nat) : (t.branch depth i).Pairwise t.InPreorder := by
  induction depth generalizing i with
  | zero => exact .nil
  | succ depth ih =>
    cases hn : t.nodes[i]? with
    | none => simp [branch, hn]
    | some n =>
      have hnodup := nodup_branch h (depth + 1) i
      rw [branch_succ_of_some hn] at hnodup ⊢
      refine List.pairwise_cons.2 ⟨?_, pairwise_flatMap_children h ih n.id⟩
      intro j hj
      obtain ⟨c, hc, hjc⟩ := List.mem_flatMap.1 hj
      refine Or.inl ⟨?_, (over_child h hn hc).trans (over_of_mem_branch h hjc)⟩
      rintro rfl
      exact (List.nodup_cons.1 hnodup).1 hj

/-- going down further than there are nodes lists nothing more -/
theorem branch_of_le (h : t.Formed) (hn : t.nodes[i]? = some n) {depth : Nat} (hd : t.nodes.length ≤ depth) :
    t.branch depth i = t.under i := by
  obtain ⟨level, hlen, hlevel⟩ := h.forest.exists_depth
  induction depth, hd using Nat.le_induction with
  | base => rfl
  | succ depth hd ih => rw [branch_succ h hlen hlevel hn (by omega), ih]

/-! ## Folded nodes -/

/-- a position and those of all nodes below it, down to a depth, as far as no node in between is folded -/
def unfolded (t : Tree) : Nat → Nat → List Nat
  | 0, _ => []
  | depth + 1, i =>
    match t.nodes[i]? with
    | none => []
    | some n => i :: if n.collapsed then [] else (t.children n.id).flatMap (unfolded t depth)

/-- a node is folded and another one lies below it -/
def Hides (t : Tree) (a j : Nat) : Prop := (∃ m, t.nodes[a]? = some m ∧ m.collapsed) ∧ a ≠ j ∧ t.Over a j

theorem unfolded_succ_of_some (hn : t.nodes[i]? = some n) (depth : Nat) :
    t.unfolded (depth + 1) i = i :: if n.collapsed then [] else (t.children n.id).flatMap (t.unfolded depth) := by
  rw [unfolded, hn]

theorem unfolded_sublist (t : Tree) (depth i : Nat) : (t.unfolded depth i).Sublist (t.branch depth i) := by
  induction depth generalizing i with
  | zero => exact .refl _
  | succ depth ih =>
    cases hn : t.nodes[i]? with
    | none => simp [unfolded, hn]
    | some n =>
      rw [unfolded_succ_of_some hn, branch_succ_of_some hn]
      split_ifs
      · exact List.singleton_sublist.2 List.mem_cons_self
      · exact (List.Sublist.flatMap_right _ fun c _ => ih c).cons_cons i

/-- **What is listed of a branch is what no folded node hides.** -/
theorem mem_unfolded_iff (h : t.Formed) {depth : Nat} :
    j ∈ t.unfolded depth i ↔ j ∈ t.branch depth i ∧ ∀ a, t.Over i a → ¬ t.Hides a j := by
  induction depth generalizing i with
  | zero => simp [unfolded, branch]
  | succ depth ih =>
    cases hn : t.nodes[i]? with
    | none => simp [unfolded, branch, hn]
    | some n =>
      rw [unfolded_succ_of_some hn, branch_succ_of_some hn, List.mem_cons, List.mem_cons]
      constructor
      · rintro (rfl | hj)
        · refine ⟨Or.inl rfl, ?_⟩
          rintro a hia ⟨-, hne, haj⟩
          exact hne (haj.antisymm h hia)
        · split_ifs at hj with hfold
          · exact absurd hj List.not_mem_nil
          · obtain ⟨c, hc, hjc⟩ := List.mem_flatMap.1 hj
            obtain ⟨hbranch, hno⟩ := ih.1 hjc
            refine ⟨Or.inr (List.mem_flatMap.2 ⟨c, hc, hbranch⟩), ?_⟩
            rintro a hia ⟨⟨m, hm, hfolded⟩, hne, haj⟩
            -- what lies above the node and below this one lies below the child
            have hca : t.Over c a := by
              rcases (over_of_mem_branch h hbranch).total h haj with hca | hac
              · exact hca
              · rcases hac.eq_or_parent h hn hc with rfl | hai
                · exact hac
                · obtain rfl := hai.antisymm h hia
                  exact absurd (Option.some.inj (hm.symm.trans hn) ▸ hfolded) hfold
            exact hno a hca ⟨⟨m, hm, hfolded⟩, hne, haj⟩
      · rintro ⟨rfl | hj, hno⟩
        · exact Or.inl rfl
        · obtain ⟨c, hc, hjc⟩ := List.mem_flatMap.1 hj
          have hcj := over_of_mem_branch h hjc
          have hij := (over_child h hn hc).trans hcj
          have hfold : ¬ n.collapsed = true := by
            intro hfolded
            refine hno i (.refl hn) ⟨⟨n, hn, hfolded⟩, ?_, hij⟩
            rintro rfl
            exact not_over_parent h hn hc hcj
          rw [if_neg hfold]
          exact Or.inr (List.mem_flatMap.2 ⟨c, hc, ih.2 ⟨hjc, fun a hca => hno a ((over_child h hn hc).trans hca)⟩⟩)

end ByteAtlas.Tree
