/-
Outlines: the nodes of a definition as a recursion over nodes alone, without positions or a stack.

A node comes first, and then, child by child, what lies below it. Children stand in order of their offsets, and those with
one offset in storage order: `held` is the stable sort of the library. `definition_eq_outline` says that the walk lists
the outline.

- `outline_eq_cons`: the recursion, without a bound.
- `filter_outline`: in an outline the children of a node stand in their order.
- `outline_map`: if the children of the images are the images of the children, then outlines correspond.
-/
import Mathlib
import ByteAtlas.Proofs.Tree.Subtree

namespace ByteAtlas.Tree

variable {t u : Tree}

/-- the nodes that an id holds, by offset and then by storage order -/
def held (t : Tree) (id : NodeId) : List Node :=
  (t.nodes.filter fun n => n.parent == id).insertionSort fun a b => a.offset ≤ b.offset

/-- a node and, child by child, all below it, down to a depth -/
def outlineTo (t : Tree) : Nat → Node → List Node
  | 0, _ => []
  | depth + 1, n => n :: (t.held n.id).flatMap (outlineTo t depth)

def outline (t : Tree) (n : Node) : List Node := t.outlineTo t.nodes.length n

/-! ## Children -/

theorem sortByKey_eq_insertionSort (key : Nat → UInt64) (js : List Nat) :
    sortByKey key js = js.insertionSort fun i j => key i ≤ key j := by
  induction js with
  | nil => rfl
  | cons j rest ih =>
    have hinsert : ∀ (i : Nat) (l : List Nat), insertByKey key i l = l.orderedInsert (fun i j => key i ≤ key j) i := by
      intro i l
      induction l with
      | nil => rfl
      | cons k l ihl => rw [insertByKey, List.orderedInsert, ihl]
    rw [sortByKey, ih, hinsert, List.insertionSort_cons]

/-- the offset of a node that may not be there -/
def offsetOf (n : Option Node) : UInt64 := (n.map (·.offset)).getD 0

/-- the positions of the children lead to the children, in order -/
theorem map_children (t : Tree) (id : NodeId) :
    (t.children id).map (fun i => t.nodes[i]?) = (t.held id).map some := by
  have hheld : (t.heldBy id).map (fun i => t.nodes[i]?) = (t.nodes.filter fun n => n.parent == id).map some := by
    have hall : (List.range t.nodes.length).map (fun i => t.nodes[i]?) = t.nodes.map some := by
      apply List.ext_getElem?
      intro i
      rw [List.getElem?_map, List.getElem?_map]
      by_cases hi : i < t.nodes.length
      · rw [List.getElem?_range hi, List.getElem?_eq_getElem hi]
        simp [hi]
      · simp [hi]
    have hfilter : t.heldBy id = (List.range t.nodes.length).filter
        ((fun n : Option Node => n.any fun n => n.parent == id) ∘ fun i => t.nodes[i]?) := rfl
    have hsome : (t.nodes.map some).filter (fun n => n.any fun n => n.parent == id) =
        (t.nodes.filter fun n => n.parent == id).map some := List.filter_map
    rw [hfilter, ← List.filter_map, hall, hsome]
  calc (t.children id).map (fun i => t.nodes[i]?)
      = ((t.heldBy id).insertionSort fun i j => t.offsetAt i ≤ t.offsetAt j).map (fun i => t.nodes[i]?) := by
        rw [children, sortByKey_eq_insertionSort]
    _ = ((t.heldBy id).map fun i => t.nodes[i]?).insertionSort (fun a b => offsetOf a ≤ offsetOf b) :=
        List.map_insertionSort _ _ _ _ fun _ _ _ _ => Iff.rfl
    _ = ((t.nodes.filter fun n => n.parent == id).map some).insertionSort (fun a b => offsetOf a ≤ offsetOf b) := by
        rw [hheld]
    _ = (t.held id).map some :=
        (List.map_insertionSort (fun a b : Node => a.offset ≤ b.offset) _ some _ fun _ _ _ _ => Iff.rfl).symm

theorem mem_held {id : NodeId} {n : Node} : n ∈ t.held id ↔ n ∈ t.nodes ∧ n.parent = id := by
  rw [held, List.mem_insertionSort, List.mem_filter, beq_iff_eq]

/-! ## The walk lists the outline -/

theorem filterMap_branch (t : Tree) (depth : Nat) {i : Nat} {n : Node} (hn : t.nodes[i]? = some n) :
    (t.branch depth i).filterMap (fun j => t.nodes[j]?) = t.outlineTo depth n := by
  induction depth generalizing i n with
  | zero => rfl
  | succ depth ih =>
    rw [branch_succ_of_some hn, List.filterMap_cons_some hn, outlineTo, List.filterMap_flatMap]
    congr 1
    calc (t.children n.id).flatMap (fun c => (t.branch depth c).filterMap fun j => t.nodes[j]?)
        = (t.children n.id).flatMap fun c => (t.nodes[c]?).elim [] (t.outlineTo depth) := by
          refine List.flatMap_congr fun c hc => ?_
          obtain ⟨q, hq, -⟩ := mem_children.1 hc
          rw [ih hq, hq, Option.elim_some]
      _ = ((t.children n.id).map fun c => t.nodes[c]?).flatMap fun q => q.elim [] (t.outlineTo depth) :=
          by rw [List.flatMap_map]
      _ = ((t.held n.id).map some).flatMap fun q => q.elim [] (t.outlineTo depth) := by rw [map_children]
      _ = (t.held n.id).flatMap (t.outlineTo depth) := by
          rw [List.flatMap_map]
          rfl

/-- **The walk lists the outline.** -/
theorem definition_eq_outline (h : t.Formed) {n : Node} (hn : n ∈ t.nodes) : t.definition n.id = t.outline n := by
  obtain ⟨i, hi⟩ := List.mem_iff_getElem?.1 hn
  rw [definition, subtree_eq_under h hi, under, filterMap_branch t _ hi, outline]

/-- from the number of nodes on, the depth does not matter -/
theorem outlineTo_of_le (h : t.Formed) {n : Node} (hn : n ∈ t.nodes) {depth : Nat} (hd : t.nodes.length ≤ depth) :
    t.outlineTo depth n = t.outline n := by
  obtain ⟨level, hlen, hlevel⟩ := h.forest.exists_depth
  obtain ⟨i, hi⟩ := List.mem_iff_getElem?.1 hn
  induction depth, hd using Nat.le_induction with
  | base => rfl
  | succ depth hd ih =>
    rw [← ih, ← filterMap_branch t _ hi, ← filterMap_branch t _ hi, branch_succ h hlen hlevel hi (by omega)]

theorem outline_eq_cons (h : t.Formed) {n : Node} (hn : n ∈ t.nodes) :
    t.outline n = n :: (t.held n.id).flatMap t.outline := by
  rw [← outlineTo_of_le h hn (Nat.le_succ _), outlineTo]
  rfl

theorem mem_outline (h : t.Formed) {n m : Node} (hn : n ∈ t.nodes) :
    m ∈ t.outline n ↔ m ∈ t.nodes ∧ LiesAbove t.nodes n.id m.id := by
  rw [← definition_eq_outline h hn, mem_definition_iff h]

theorem nodup_map_id_outline (h : t.Formed) {n : Node} (hn : n ∈ t.nodes) : ((t.outline n).map (·.id)).Nodup := by
  rw [← definition_eq_outline h hn]
  exact nodup_map_id_definition h n.id

theorem mem_outline_of_mem_held (h : t.Formed) {r n c : Node} (hr : r ∈ t.nodes) (hn : n ∈ t.outline r)
    (hc : c ∈ t.held n.id) : c ∈ t.outline r := by
  obtain ⟨hn, hab⟩ := (mem_outline h hr).1 hn
  obtain ⟨hc, hp⟩ := mem_held.1 hc
  exact (mem_outline h hr).2 ⟨hc, .up hc (hp ▸ h.forest.nonzero n hn) (hp ▸ hab)⟩

/-! ## Children within an outline -/

/-- outlines below a node are parts of its own -/
theorem outline_sublist (h : t.Formed) {r n : Node} (hr : r ∈ t.nodes) (hn : n ∈ t.nodes)
    (hab : LiesAbove t.nodes r.id n.id) : (t.outline n).Sublist (t.outline r) := by
  have key : ∀ {id}, LiesAbove t.nodes r.id id → ∀ n ∈ t.nodes, n.id = id → (t.outline n).Sublist (t.outline r) := by
    intro id hab
    induction hab with
    | self =>
      intro n hn e
      rw [h.forest.eq_of_id_eq hn hr e]
    | @up q hq hz _ ih =>
      intro n hn e
      obtain rfl := h.forest.eq_of_id_eq hn hq e
      obtain ⟨p, hp, hpid, -⟩ := (h.forest.held n hn).resolve_left hz
      have hheld : n ∈ t.held p.id := mem_held.2 ⟨hn, hpid.symm⟩
      refine List.Sublist.trans ?_ (ih p hp hpid)
      rw [outline_eq_cons h hp, List.flatMap_def]
      exact .cons p (List.sublist_flatten_of_mem (List.mem_map_of_mem hheld))
  exact key hab n hn rfl

/-- the children of a node stand in its outline in their order -/
theorem held_sublist_outline (h : t.Formed) {n : Node} (hn : n ∈ t.nodes) : (t.held n.id).Sublist (t.outline n) := by
  have hfirst : ∀ cs : List Node, (∀ c ∈ cs, c ∈ t.nodes) → cs.Sublist (cs.flatMap t.outline) := by
    intro cs hcs
    induction cs with
    | nil => exact .slnil
    | cons c rest ih =>
      rw [List.flatMap_cons, outline_eq_cons h (hcs c List.mem_cons_self), List.cons_append]
      exact .cons_cons c ((ih fun c hc => hcs c (List.mem_cons_of_mem _ hc)).trans (List.sublist_append_right _ _))
  rw [outline_eq_cons h hn]
  exact .cons n (hfirst _ fun c hc => (mem_held.1 hc).1)

/-- what holds a node of an outline below the first stands before it -/
theorem exists_holder_before (h : t.Formed) {r n : Node} (hr : r ∈ t.nodes) {k : Nat} (hn : (t.outline r)[k]? = some n)
    (hk : 0 < k) : ∃ p ∈ (t.outline r).take k, p.id = n.parent ∧ p.kind.canHold := by
  have hfirst : (t.outline r)[0]? = some r := by rw [outline_eq_cons h hr]; rfl
  have hlt : k < (t.outline r).length := (List.getElem?_eq_some_iff.1 hn).1
  have hnodup : (t.outline r).Nodup := (nodup_map_id_outline h hr).of_map
  obtain ⟨hmem, hab⟩ := (mem_outline h hr).1 (List.mem_of_getElem? hn)
  have hne : n.id ≠ r.id := by
    intro e
    rw [h.forest.eq_of_id_eq hmem hr e] at hn
    exact absurd ((List.getElem?_inj hlt hnodup).1 (hn.trans hfirst.symm)) (Nat.ne_of_gt hk)
  obtain ⟨q, hq, hqid, hz, hparent⟩ := hab.eq_or_exists_node.resolve_left hne
  obtain rfl := h.forest.eq_of_id_eq hq hmem hqid
  obtain ⟨p, hp, hpid, hpk⟩ := (h.forest.held q hq).resolve_left hz
  refine ⟨p, ?_, hpid, hpk⟩
  -- the holder and then the node are listed in the outline of the holder, which is a part of this one
  have hheld : q ∈ t.held p.id := mem_held.2 ⟨hq, hpid.symm⟩
  have htwo : [p, q].Sublist (t.outline r) := by
    refine List.Sublist.trans ?_ (outline_sublist h hr hp (hpid ▸ hparent))
    have hbelow : q ∈ (t.held p.id).flatMap t.outline :=
      List.mem_flatMap.2 ⟨q, hheld, (mem_outline h hq).2 ⟨hq, .self⟩⟩
    rw [outline_eq_cons h hp]
    exact .cons_cons p (List.singleton_sublist.2 hbelow)
  obtain ⟨f, hf⟩ := List.sublist_iff_exists_orderEmbedding_getElem?_eq.1 htwo
  have hp' : some p = (t.outline r)[f 0]? := hf 0
  have hq' : some q = (t.outline r)[f 1]? := hf 1
  have hplace : k = f 1 := (List.getElem?_inj hlt hnodup).1 (hn.trans hq')
  have hbefore : f 0 < k := hplace ▸ f.strictMono Nat.zero_lt_one
  refine List.mem_of_getElem? (i := f 0) ?_
  rw [List.getElem?_take, if_pos hbefore, ← hp']

/-- **Among the nodes of an outline the children of each stand in their order.** -/
theorem filter_outline (h : t.Formed) {r n : Node} (hr : r ∈ t.nodes) (hn : n ∈ t.outline r) :
    (t.outline r).filter (fun m => m.parent == n.id) = t.held n.id := by
  obtain ⟨hmem, hab⟩ := (mem_outline h hr).1 hn
  have hsub : (t.held n.id).Sublist ((t.outline r).filter fun m => m.parent == n.id) := by
    have hall : (t.held n.id).filter (fun m => m.parent == n.id) = t.held n.id :=
      List.filter_eq_self.2 fun m hm => beq_iff_eq.2 (mem_held.1 hm).2
    rw [← hall]
    exact ((held_sublist_outline h hmem).trans (outline_sublist h hr hmem hab)).filter _
  have hnodup : ((t.outline r).filter fun m => m.parent == n.id).Nodup :=
    (nodup_map_id_outline h hr).of_map.filter _
  have hperm : ((t.outline r).filter fun m => m.parent == n.id).Subperm (t.held n.id) := by
    refine hnodup.subperm fun m hm => ?_
    obtain ⟨hm, hp⟩ := List.mem_filter.1 hm
    exact mem_held.2 ⟨((mem_outline h hr).1 hm).1, beq_iff_eq.1 hp⟩
  exact (hsub.eq_of_length_le hperm.length_le).symm

/-! ## Outlines that correspond -/

/-- **If the children of the images are the images of the children, the outline of the image is the image of the
outline.** -/
theorem outline_map (ht : t.Formed) (hu : u.Formed) {σ : Node → Node} {r : Node} (hr : r ∈ t.nodes) (hσ : σ r ∈ u.nodes)
    (hheld : ∀ n ∈ t.outline r, u.held (σ n).id = (t.held n.id).map σ) : u.outline (σ r) = (t.outline r).map σ := by
  have key : ∀ depth, ∀ n ∈ t.outline r, u.outlineTo depth (σ n) = (t.outlineTo depth n).map σ := by
    intro depth
    induction depth with
    | zero => exact fun _ _ => rfl
    | succ depth ih =>
      intro n hn
      rw [outlineTo, outlineTo, List.map_cons, hheld n hn, List.flatMap_map, List.map_flatMap]
      congr 1
      exact List.flatMap_congr fun c hc => ih c (mem_outline_of_mem_held ht hr hn hc)
  have hself : r ∈ t.outline r := (mem_outline ht hr).2 ⟨hr, .self⟩
  -- a depth that is enough for both
  have hdepth := key (max t.nodes.length u.nodes.length) r hself
  rwa [outlineTo_of_le hu hσ (Nat.le_max_right _ _), outlineTo_of_le ht hr (Nat.le_max_left _ _)] at hdepth

end ByteAtlas.Tree
