/-
Addresses, and what a move does to them. An address is a sum of offsets along the way up, modulo the number of words. The
walk that takes the sum stops after so many steps as there are nodes; in a forest it has come to its end by then.

- `Tree.Addressed`: a root is at the base and its offset, a child is at its parent and its offset further.
- `Tree.addressed_address`, `Tree.Addressed.eq_address`: addresses are so, and nothing else is.
- `Tree.climb_of_le`: more steps than there are nodes give the same sum.
- `Tree.address_moved`: if a node gets another parent and another offset and the tree stays well-formed, then all that lies
  below the node is shifted by one amount, and nothing else is shifted.
- `Edit.address_move`: all of this together, of moves as edits.
-/
import ByteAtlas.Proofs.Tree.Address
import ByteAtlas.Proofs.Tree.Subtree
import ByteAtlas.Proofs.Edit.Admitted

namespace ByteAtlas

/-- what lies above a node and is another one lies above its parent -/
theorem Forest.liesAbove_parent_iff {ns : List Node} (h : Forest ns) {n : Node} (hn : n ∈ ns) (hz : n.parent ≠ 0)
    {top : NodeId} (hne : n.id ≠ top) : LiesAbove ns top n.parent ↔ LiesAbove ns top n.id := by
  refine ⟨fun hab => .up hn hz hab, fun hab => ?_⟩
  obtain ⟨m, hm, hmid, -, hab⟩ := hab.eq_or_exists_node.resolve_left hne
  exact h.eq_of_id_eq hm hn hmid ▸ hab

namespace Tree

variable {t : Tree} {f : Nat → UInt64} {i : Nat} {n : Node} {id parent : NodeId} {offset : UInt64}

/-! ## The two laws of addresses -/

/-- positions are given the sums of the offsets on the way up from them -/
structure Addressed (t : Tree) (f : Nat → UInt64) : Prop where
  root : ∀ i n, t.nodes[i]? = some n → n.parent = 0 → f i = t.base + n.offset
  child : ∀ i n c m, t.nodes[i]? = some n → t.nodes[c]? = some m → m.parent = n.id → f c = f i + m.offset

theorem addressed_address (h : t.Formed) : t.Addressed t.address where
  root i n hn hz := by rw [address, climb_root hn hz]
  child i n c m hn hm hp := by
    rw [address_child h hn (mem_children.2 ⟨m, hm, hp⟩), offsetAt, hm]
    rfl

/-- **The two laws leave no choice**, since every way up ends at a root. -/
theorem Addressed.eq_address (h : t.Formed) (hf : t.Addressed f) (hn : t.nodes[i]? = some n) : f i = t.address i := by
  have key : ∀ {id}, Rooted t.nodes id → ∀ i n, t.nodes[i]? = some n → n.id = id → f i = t.address i := by
    intro id hr
    induction hr with
    | @root m hm hz =>
      intro i n hn e
      obtain rfl := h.forest.eq_of_id_eq (List.mem_of_getElem? hn) hm e
      rw [hf.root i n hn hz, (addressed_address h).root i n hn hz]
    | @held m hm hr ih =>
      intro i n hn e
      obtain rfl := h.forest.eq_of_id_eq (List.mem_of_getElem? hn) hm e
      obtain ⟨p, hp, hpid⟩ := hr.exists_node
      obtain ⟨j, hj⟩ := List.mem_iff_getElem?.1 hp
      rw [hf.child j p i n hj hn hpid.symm, (addressed_address h).child j p i n hj hn hpid.symm, ih j p hj hpid]
  exact key (h.forest.rooted n (List.mem_of_getElem? hn)) i n hn rfl

/-- **No way up is cut short**: steps beyond the number of nodes add nothing. -/
theorem climb_of_le (h : t.Formed) (hn : t.nodes[i]? = some n) {k : Nat} (hk : t.nodes.length ≤ k) :
    t.climb k i = t.climb t.nodes.length i := by
  obtain ⟨depth, hlen, hd⟩ := h.forest.exists_depth
  induction k, hk using Nat.le_induction with
  | base => rfl
  | succ k hk ih => rw [climb_succ h hd hn (Nat.lt_of_lt_of_le (hlen n (List.mem_of_getElem? hn)) hk), ih]

/-! ## Another parent and another offset -/

/-- from where the offsets of what an id holds are counted: its address, or the base if there is no such node -/
def origin (t : Tree) (parent : NodeId) : UInt64 := (t.addressById parent).getD t.base

theorem origin_zero (h : t.Formed) : t.origin 0 = t.base := by
  have hno : t.position? 0 = none := by
    rw [Option.eq_none_iff_forall_ne_some]
    intro i hi
    obtain ⟨n, hn, hz⟩ := Option.map_eq_some_iff.1 ((h.indexed 0 i).1 hi)
    exact h.forest.nonzero n (List.mem_of_getElem? hn) hz
  rw [origin, addressById, hno]
  rfl

theorem origin_id (h : t.Formed) (hn : t.nodes[i]? = some n) : t.origin n.id = t.address i := by
  rw [origin, addressById, position?_of_getElem? h.indexed hn]
  rfl

/-- the tree with a node held elsewhere, whatever comes of it -/
def moved (t : Tree) (id parent : NodeId) (offset : UInt64) : Tree := t.rewritten id fun n => { n with parent, offset }

/-- a node of the tree after the move is one from before it, or the moved one -/
theorem exists_of_getElem?_moved {m : Node} (hm : (t.moved id parent offset).nodes[i]? = some m) :
    ∃ n, t.nodes[i]? = some n ∧ m.id = n.id ∧ (n.id = id ∧ m.parent = parent ∧ m.offset = offset ∨ n.id ≠ id ∧ m = n) := by
  rw [moved, rewritten, List.getElem?_map] at hm
  obtain ⟨n, hn, rfl⟩ := Option.map_eq_some_iff.1 hm
  refine ⟨n, hn, ?_⟩
  by_cases e : n.id = id
  · simp [e]
  · simp [e]

/-- what lies below an id and what does not, position by position -/
theorem mem_subtree_of_getElem? (h : t.Formed) (hn : t.nodes[i]? = some n) :
    i ∈ t.subtree id ↔ LiesAbove t.nodes id n.id := by
  rw [mem_subtree_iff h, hn]
  simp

/-- the two laws in the tree after a move: below the moved node the old addresses are shifted by what the node itself is
shifted by, elsewhere they are the old ones -/
theorem addressed_moved (h : t.WellFormed) (hu : (t.moved n.id parent offset).WellFormed) (hn : t.nodes[i]? = some n) :
    (t.moved n.id parent offset).Addressed fun j =>
      if j ∈ t.subtree n.id then t.address j + (t.origin parent + offset - t.address i) else t.address j := by
  have hmem := List.mem_of_getElem? hn
  have hlaws := addressed_address h.toFormed
  -- the node does not come to lie below itself
  have hacyc : parent ≠ 0 → ¬ LiesAbove t.nodes n.id parent :=
    ((wellFormed_rewritten_iff (f := fun n => { n with parent, offset }) h (fun _ => rfl) hmem).1 hu).2.2
  have hbelow : ∀ j m, t.nodes[j]? = some m → (j ∈ t.subtree n.id ↔ LiesAbove t.nodes n.id m.id) :=
    fun j m hm => mem_subtree_of_getElem? h.toFormed hm
  have hself : i ∈ t.subtree n.id := (hbelow i n hn).2 .self
  have hplace : t.address i + (t.origin parent + offset - t.address i) = t.origin parent + offset := by
    rw [UInt64.add_comm, UInt64.sub_add_cancel]
  constructor
  · intro j m' hm' hz
    obtain ⟨m, hm, -, ⟨e, hp, ho⟩ | ⟨hne, rfl⟩⟩ := exists_of_getElem?_moved hm'
    · obtain rfl := h.indexed.eq_of_id_eq hm hn e
      rw [if_pos hself, hplace, ← hp, hz, origin_zero h.toFormed, ho]
      rfl
    · have hout : j ∉ t.subtree n.id := fun hj =>
        hne (h.forest.eq_of_liesAbove_root (List.mem_of_getElem? hm) (beq_iff_eq.2 hz) ((hbelow j m' hm).1 hj)).symm
      rw [if_neg hout, hlaws.root j m' hm hz]
      rfl
  · intro j m' c k' hm' hk' hp
    obtain ⟨m, hm, hmid, -⟩ := exists_of_getElem?_moved hm'
    obtain ⟨k, hk, -, ⟨e, hkp, ho⟩ | ⟨hne, rfl⟩⟩ := exists_of_getElem?_moved hk'
    · obtain rfl := h.indexed.eq_of_id_eq hk hn e
      have hparent : parent = m.id := by rw [← hkp, hp, hmid]
      have hz : parent ≠ 0 := hparent ▸ h.forest.nonzero m (List.mem_of_getElem? hm)
      have hout : j ∉ t.subtree n.id := fun hj => hacyc hz (hparent ▸ (hbelow j m hm).1 hj)
      rw [if_pos hself, if_neg hout, hplace, hparent, origin_id h.toFormed hm, ho]
    · rw [hmid] at hp
      have hz : k'.parent ≠ 0 := hp ▸ h.forest.nonzero m (List.mem_of_getElem? hm)
      have hiff : c ∈ t.subtree n.id ↔ j ∈ t.subtree n.id := by
        rw [hbelow c k' hk, hbelow j m hm, ← hp, h.forest.liesAbove_parent_iff (List.mem_of_getElem? hk) hz hne]
      simp only [hiff, hlaws.child j m c k' hm hk hp]
      split_ifs
      · ac_rfl
      · rfl

/-- **A move shifts what it moves, all of it by one amount, and nothing else.** -/
theorem address_moved (h : t.WellFormed) (hu : (t.moved id parent offset).WellFormed) :
    ∃ shift, ∀ x, (t.moved id parent offset).addressById x =
      (t.addressById x).map fun a => if t.liesAbove id x then a + shift else a := by
  by_cases hid : ∃ n ∈ t.nodes, n.id = id
  · obtain ⟨n, hmem, rfl⟩ := hid
    obtain ⟨i, hn⟩ := List.mem_iff_getElem?.1 hmem
    refine ⟨t.origin parent + offset - t.address i, fun x => ?_⟩
    have hsame : (t.moved n.id parent offset).position? x = t.position? x := rfl
    rw [addressById, addressById, hsame, Option.map_map]
    refine Option.map_congr fun j hj => ?_
    obtain ⟨m, hm, rfl⟩ := Option.map_eq_some_iff.1 ((h.indexed x j).1 hj)
    obtain ⟨m', hm'⟩ : ∃ m', (t.moved n.id parent offset).nodes[j]? = some m' := by
      rw [moved, rewritten, List.getElem?_map, hm]
      exact ⟨_, rfl⟩
    have hiff : j ∈ t.subtree n.id ↔ t.liesAbove n.id m.id = true := by
      rw [mem_subtree_of_getElem? h.toFormed hm, liesAbove_iff h.toFormed]
    rw [← (addressed_moved h hu hn).eq_address hu.toFormed hm']
    simp only [hiff, Function.comp_apply]
  · -- no node is moved
    refine ⟨0, fun x => ?_⟩
    have hsame : t.moved id parent offset = t := by
      have hnodes : t.nodes.map (fun n => if n.id = id then { n with parent, offset } else n) = t.nodes :=
        (List.map_congr_left fun n hn => if_neg fun e => hid ⟨n, hn, e⟩).trans (List.map_id _)
      rw [moved, rewritten, hnodes]
    simp [hsame]

end Tree

/-! ## Moves as edits -/

namespace Edit

variable {τ : Type} [Transport τ]

/-- **Addresses add up from the base, and moves shift them.** In a well-formed tree a root is at the base and its offset, and
a child is at its parent and its offset further, modulo the number of words. Nothing else is so at every node, and a walk of
any greater number of steps gives the same sums. After a move, made or refused, the tree is well-formed, and there is one
amount by which the addresses of the moved node and of all nodes below it are shifted; all others are what they were. -/
theorem address_move {s : Scene τ} (h : s.tree.WellFormed) :
    s.tree.Addressed s.tree.address ∧
    (∀ f, s.tree.Addressed f → ∀ i < s.tree.nodes.length, f i = s.tree.address i) ∧
    (∀ i < s.tree.nodes.length, ∀ k > s.tree.nodes.length, s.tree.address i = s.tree.base + s.tree.climb k i) ∧
    ∀ id old new, ((move id old new).apply s).2.tree.WellFormed ∧
      ∃ shift, ∀ x, ((move id old new).apply s).2.tree.addressById x =
        (s.tree.addressById x).map fun a => if s.tree.liesAbove id x then a + shift else a := by
  refine ⟨Tree.addressed_address h.toFormed, fun f hf i hi => ?_, fun i hi k hk => ?_, fun id old new => ?_⟩
  · exact hf.eq_address h.toFormed (List.getElem?_eq_getElem hi)
  · have hn := List.getElem?_eq_getElem hi
    rw [Tree.address, Tree.climb_of_le h.toFormed hn hk.le, Tree.climb_of_le h.toFormed hn (Nat.le_succ _)]
  · obtain ⟨hiff, hmade, hrefused⟩ := refit_admitted h (e := move id old new) rfl
    by_cases hok : ((move id old new).apply s).1 = .ok ()
    · have hu : (s.tree.moved id new.1 new.2).WellFormed := (hiff.1 hok).2
      rw [hmade hok]
      exact ⟨hu, Tree.address_moved h hu⟩
    · rw [hrefused hok]
      exact ⟨h, 0, fun x => by simp⟩

/-- the line goes from the outermost level into the shape, with the two points that it holds: they are at 24 and 32 then,
where they were at 64 and 72, and the row beside it stays -/
theorem address_move_line :
    let s : Scene Image := ⟨Tree.shapeTree, .nothing⟩
    let u := ((move 4 (0, 0x40) (7, 24)).apply s).2.tree
    s.tree.WellFormed ∧ (s.tree.addressById 6, u.addressById 6) = (some 72, some 32) ∧
      (s.tree.addressById 9, u.addressById 9) = (some 16, some 16) ∧ u.WellFormed ∧
      ∃ shift, ∀ x, u.addressById x = (s.tree.addressById x).map fun a => if s.tree.liesAbove 4 x then a + shift else a := by
  intro s u
  have h : s.tree.WellFormed :=
    Tree.wellFormed_ofNodes (show Tree.ofNodes 0 Tree.shapeNodes 1 = .ok Tree.shapeTree from rfl)
  exact ⟨h, by decide, by decide, (address_move h).2.2.2 4 (0, 0x40) (7, 24)⟩

end Edit

end ByteAtlas
