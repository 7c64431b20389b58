/-
Nodes of one tree beside nodes of another. The ids may differ, so may the order in which the nodes are stored and all other
nodes of the trees; but what one node of a pair holds or refers to stands beside what the other one holds or refers to
(`Tree.Corresponds`).

The computation of sizes goes from a node to nothing but its children and what it refers to, and it carries along the ids
that are being measured. Beside each other it meets the same nodes in both trees, rings included:

- `Corresponds.measure_eq`: with corresponding ids in progress both computations give the same at every depth.
- `Corresponds.size_eq`: nodes beside each other have the same size.
-/
import ByteAtlas.Proofs.Tree.Sizing

namespace ByteAtlas.Tree

variable {t u : Tree} {P : Node → Node → Prop} {a b : Node} {l l' : List NodeId} {i j depth : Nat}

/-- Nodes of one tree beside nodes of another. They have the same ids among each other, their children stand beside each
other, and so does what they refer to. Nothing else of them differs. -/
structure Corresponds (t u : Tree) (P : Node → Node → Prop) : Prop where
  left : ∀ a b, P a b → a ∈ t.nodes
  right : ∀ a b, P a b → b ∈ u.nodes
  same : ∀ a b, P a b → b = { a with id := b.id, parent := b.parent, ref := b.ref }
  id_iff : ∀ a b a' b', P a b → P a' b' → (a.id = a'.id ↔ b.id = b'.id)
  down : ∀ a b, P a b → ∀ c ∈ t.nodes, c.parent = a.id → ∃ c', P c c' ∧ c'.parent = b.id
  back : ∀ a b, P a b → ∀ c' ∈ u.nodes, c'.parent = b.id → ∃ c, P c c' ∧ c.parent = a.id
  refer : ∀ a b, P a b → ((∀ q ∈ t.nodes, q.id ≠ a.ref) ∧ ∀ q' ∈ u.nodes, q'.id ≠ b.ref) ∨
    ∃ q q', P q q' ∧ q.id = a.ref ∧ q'.id = b.ref

/-! ## The largest of some words -/

theorem toNat_foldl_max_le_iff {ws : List UInt64} {least : UInt64} {bound : Nat} :
    (ws.foldl max least).toNat ≤ bound ↔ least.toNat ≤ bound ∧ ∀ w ∈ ws, w.toNat ≤ bound := by
  induction ws generalizing least with
  | nil => simp
  | cons w rest ih => rw [List.foldl_cons, ih, Word.toNat_max, Nat.max_le, List.forall_mem_cons, and_assoc]

theorem toNat_largest_le_iff {ws : List UInt64} {bound : Nat} :
    (largest ws).toNat ≤ bound ↔ ∀ w ∈ ws, w.toNat ≤ bound := by
  rw [largest, toNat_foldl_max_le_iff]
  exact and_iff_right (Nat.zero_le bound)

/-- the largest of some words depends neither on their order nor on how often each of them is there -/
theorem largest_congr {ws ws' : List UInt64} (h : ∀ w, w ∈ ws ↔ w ∈ ws') : largest ws = largest ws' := by
  have hsame : ∀ bound, (largest ws).toNat ≤ bound ↔ (largest ws').toNat ≤ bound := by
    intro bound
    rw [toNat_largest_le_iff, toNat_largest_le_iff]
    exact forall_congr' fun w => imp_congr_left (h w)
  exact UInt64.toNat_inj.1 (Nat.le_antisymm ((hsame _).2 (Nat.le_refl _)) ((hsame _).1 (Nat.le_refl _)))

/-! ## Depth -/

/-- the size of a node is what it measures at any depth that is enough -/
theorem size_eq_measure (hdepth : t.nodes.length < depth) (i : Nat) : t.size i = t.measure depth [] i := by
  have hmeasure : t.Measures ∅ (.size i) (t.measure depth [] i) ∅ :=
    measures_measure (l := []) (Nat.lt_of_le_of_lt (t.outside_le _) hdepth) i
  exact ((t.measures_size i).unique hmeasure).1

/-! ## Sizes -/

theorem target_eq_none (h : t.Indexed) (hno : ∀ q ∈ t.nodes, q.id ≠ a.ref) : t.target a = none := by
  unfold target
  split_ifs
  · rfl
  · rw [← Option.not_isSome_iff_eq_none, Bool.not_eq_true]
    exact (contains_eq_false_iff h).2 hno

namespace Corresponds

variable (h : t.Corresponds u P)

include h

/-- what two nodes refer to stands at positions beside each other, or neither of them refers to anything -/
theorem target (ht : t.Formed) (hu : u.Formed) (hab : P a b) :
    (t.target a = none ∧ u.target b = none) ∨ ∃ i j q q', t.target a = some i ∧ u.target b = some j ∧
      t.nodes[i]? = some q ∧ u.nodes[j]? = some q' ∧ P q q' := by
  rcases h.refer a b hab with ⟨hno, hno'⟩ | ⟨q, q', hq, hid, hid'⟩
  · exact Or.inl ⟨target_eq_none ht.indexed hno, target_eq_none hu.indexed hno'⟩
  · have hself : a.ref = a.id ↔ b.ref = b.id := by
      rw [← hid, ← hid']
      exact h.id_iff q q' a b hq hab
    by_cases hown : a.ref = a.id
    · exact Or.inl ⟨if_pos (Or.inr hown), if_pos (Or.inr (hself.1 hown))⟩
    · have hz : a.ref ≠ 0 := hid ▸ ht.forest.nonzero q (h.left q q' hq)
      have hz' : b.ref ≠ 0 := hid' ▸ hu.forest.nonzero q' (h.right q q' hq)
      obtain ⟨i, hi⟩ := List.mem_iff_getElem?.1 (h.left q q' hq)
      obtain ⟨j, hj⟩ := List.mem_iff_getElem?.1 (h.right q q' hq)
      refine Or.inr ⟨i, j, q, q', ?_, ?_, hi, hj, hq⟩
      · rw [Tree.target, if_neg (not_or.2 ⟨hz, hown⟩), ← hid, position?_of_getElem? ht.indexed hi]
      · rw [Tree.target, if_neg (not_or.2 ⟨hz', fun e => hown (hself.2 e)⟩), ← hid',
          position?_of_getElem? hu.indexed hj]

/-- if pairs have the same size, then so has what the nodes of a pair refer to -/
theorem targetSize_eq (ht : t.Formed) (hu : u.Formed) (hab : P a b) {f g : Nat → UInt64}
    (hfg : ∀ i j q q', t.nodes[i]? = some q → u.nodes[j]? = some q' → P q q' → f i = g j) :
    ((t.target a).map f).getD 0 = ((u.target b).map g).getD 0 := by
  rcases h.target ht hu hab with ⟨hno, hno'⟩ | ⟨i, j, q, q', hi, hj, hq, hq', hpair⟩
  · rw [hno, hno']
    rfl
  · rw [hi, hj]
    exact hfg i j q q' hq hq' hpair

theorem children_eq_nil_iff (hab : P a b) : t.children a.id = [] ↔ u.children b.id = [] := by
  rw [← List.isEmpty_iff, ← List.isEmpty_iff, children_isEmpty_iff, children_isEmpty_iff]
  constructor
  · intro hno c' hc' hp
    obtain ⟨c, hc, hp⟩ := h.back a b hab c' hc' hp
    exact hno c (h.left c c' hc) hp
  · intro hno c hc hp
    obtain ⟨c', hc', hp⟩ := h.down a b hab c hc hp
    exact hno c' (h.right c c' hc') hp

/-- if pairs have the same size, then the children of two nodes reach equally far -/
theorem reach_eq (hab : P a b) {f g : Nat → UInt64}
    (hfg : ∀ i j q q', t.nodes[i]? = some q → u.nodes[j]? = some q' → P q q' → f i = g j) :
    largest ((t.children a.id).map fun c => Word.satAdd (t.offsetAt c) (f c)) =
      largest ((u.children b.id).map fun c => Word.satAdd (u.offsetAt c) (g c)) := by
  have hone : ∀ {i j c c'}, t.nodes[i]? = some c → u.nodes[j]? = some c' → P c c' →
      Word.satAdd (t.offsetAt i) (f i) = Word.satAdd (u.offsetAt j) (g j) := by
    intro i j c c' hi hj hc
    have hoffset : c'.offset = c.offset := by rw [h.same c c' hc]
    rw [offsetAt, offsetAt, hi, hj, Option.map_some, Option.map_some, hoffset, hfg i j c c' hi hj hc]
  refine largest_congr fun w => ?_
  rw [List.mem_map, List.mem_map]
  constructor
  · rintro ⟨i, hi, rfl⟩
    obtain ⟨c, hc, hp⟩ := mem_children.1 hi
    obtain ⟨c', hpair, hp'⟩ := h.down a b hab c (List.mem_of_getElem? hc) hp
    obtain ⟨j, hj⟩ := List.mem_iff_getElem?.1 (h.right c c' hpair)
    exact ⟨j, mem_children.2 ⟨c', hj, hp'⟩, (hone hc hj hpair).symm⟩
  · rintro ⟨j, hj, rfl⟩
    obtain ⟨c', hc', hp'⟩ := mem_children.1 hj
    obtain ⟨c, hpair, hp⟩ := h.back a b hab c' (List.mem_of_getElem? hc') hp'
    obtain ⟨i, hi⟩ := List.mem_iff_getElem?.1 (h.left c c' hpair)
    exact ⟨i, mem_children.2 ⟨c, hi, hp⟩, hone hi hc' hpair⟩

/-- **Nodes beside each other measure the same**, whatever ids are in progress beside each other. -/
theorem measure_eq (ht : t.Formed) (hu : u.Formed) (depth : Nat)
    (hl : ∀ a b, P a b → (a.id ∈ l ↔ b.id ∈ l')) (ha : t.nodes[i]? = some a) (hb : u.nodes[j]? = some b) (hab : P a b) :
    t.measure depth l i = u.measure depth l' j := by
  induction depth generalizing l l' i j a b with
  | zero => rfl
  | succ depth ih =>
    have hsame := h.same a b hab
    have hkind : b.kind = a.kind := by rw [hsame]
    -- when both nodes are entered their ids are in progress beside each other
    have hinner : ∀ i j q q', t.nodes[i]? = some q → u.nodes[j]? = some q' → P q q' →
        t.measure depth (a.id :: l) i = u.measure depth (b.id :: l') j := by
      intro i j q q' hq hq' hpair
      refine ih (fun c c' hc => ?_) hq hq' hpair
      rw [List.mem_cons, List.mem_cons, h.id_iff c c' a b hc hab, hl c c' hc]
    have hcontains : l.contains a.id = l'.contains b.id := by
      rw [List.contains_eq_mem, List.contains_eq_mem, decide_eq_decide]
      exact hl a b hab
    by_cases hk : a.kind.canHold
    · rw [measure, measure, ha, hb]
      rcases Kind.canHold_iff.1 hk with hk | hk
      · simp only [hkind, hk, hcontains]
        split_ifs
        · rfl
        · have hreach := h.reach_eq hab hinner
          have htarget := h.targetSize_eq ht hu hab hinner
          have hempty := h.children_eq_nil_iff hab
          cases hcs : t.children a.id with
          | nil =>
            rw [hempty.1 hcs]
            exact htarget
          | cons c rest =>
            cases hcs' : u.children b.id with
            | nil => simp [hempty.2 hcs'] at hcs
            | cons c' rest' =>
              rw [hcs, hcs'] at hreach
              exact hreach
      · have hstride : t.strideWith (t.measure depth) l a = u.strideWith (u.measure depth) l' b := by
          have helement : b.elementKind = a.elementKind := by rw [hsame]
          rw [strideWith, strideWith, helement, hcontains, h.targetSize_eq ht hu hab hinner]
        have hlen : b.arrayLen = a.arrayLen := by rw [hsame]
        simp only [hkind, hk, hstride, hlen]
    · have hown : b.ownSize = a.ownSize := by rw [hsame]; rfl
      rw [measure_of_not_canHold ha hk, measure_of_not_canHold hb (hkind ▸ hk), hown]

/-- **Nodes beside each other have the same size.** -/
theorem size_eq (ht : t.Formed) (hu : u.Formed) (ha : t.nodes[i]? = some a)
    (hb : u.nodes[j]? = some b) (hab : P a b) : t.size i = u.size j := by
  have hle : t.nodes.length < t.nodes.length + u.nodes.length + 1 := by omega
  have hle' : u.nodes.length < t.nodes.length + u.nodes.length + 1 := by omega
  rw [size_eq_measure hle, size_eq_measure hle']
  exact h.measure_eq ht hu _ (fun _ _ _ => by simp) ha hb hab

end Corresponds

end ByteAtlas.Tree
