/-
Replicas: the nodes of an outline once more under other ids, in the same tree or in another one.

The images of the nodes stand side by side in the order of the outline, one holds another as the originals do, and none of
them holds anything else (`Replicates`). Then the children of an image are the images of the children (`held_eq`), and the
outline of the image of the root is the image of the outline (`outline_eq`): they stand in order of their offsets already,
so sorting them once more changes nothing.
-/
import ByteAtlas.Proofs.Tree.Outline

namespace ByteAtlas.Tree

variable {t u : Tree} {r n m : Node} {σ : Node → Node}

/-- no node holds itself or what holds it: the parent of the root of an outline is not in it -/
theorem parent_ne_of_mem_outline (h : t.Formed) (hr : r ∈ t.nodes) (hn : n ∈ t.outline r) : r.parent ≠ n.id := by
  obtain ⟨hmem, hab⟩ := (mem_outline h hr).1 hn
  exact fun e => h.forest.not_liesAbove_parent hr (e ▸ h.forest.nonzero n hmem) (e ▸ hab)

theorem root_mem_outline (h : t.Formed) (hr : r ∈ t.nodes) : r ∈ t.outline r := (mem_outline h hr).2 ⟨hr, .self⟩

/-- the images of the nodes of an outline, placed in a tree in the order of the outline -/
structure Replicates (t : Tree) (r : Node) (u : Tree) (σ : Node → Node) : Prop where
  formed : u.Formed
  /-- no other node of the tree is held by one of them -/
  nodes : ∃ before after, u.nodes = before ++ ((t.outline r).map σ ++ after) ∧
    ∀ m ∈ before ++ after, ∀ n ∈ t.outline r, m.parent ≠ (σ n).id
  parents : ∀ n ∈ t.outline r, ∀ a ∈ t.outline r, (σ n).parent = (σ a).id ↔ n.parent = a.id
  offsets : ∀ n ∈ t.outline r, n.id ≠ r.id → (σ n).offset = n.offset

namespace Replicates

variable (h : Replicates t r u σ)

include h

theorem mem_nodes (hn : n ∈ t.outline r) : σ n ∈ u.nodes := by
  obtain ⟨before, after, hnodes, -⟩ := h.nodes
  rw [hnodes]
  exact List.mem_append_right _ (List.mem_append_left _ (List.mem_map_of_mem hn))

variable (ht : t.Formed) (hr : r ∈ t.nodes)

include ht hr

/-- the children of an image are the images of the children, in the same order -/
theorem held_eq (hn : n ∈ t.outline r) : u.held (σ n).id = (t.held n.id).map σ := by
  obtain ⟨before, after, hnodes, hother⟩ := h.nodes
  have hnone : ∀ ms : List Node, ms ⊆ before ++ after → ms.filter (fun m => m.parent == (σ n).id) = [] := by
    intro ms hms
    rw [List.filter_eq_nil_iff]
    exact fun m hm e => hother m (hms hm) n hn (beq_iff_eq.1 e)
  have himages : ((t.outline r).map σ).filter (fun m => m.parent == (σ n).id) = (t.held n.id).map σ := by
    rw [List.filter_map, ← filter_outline ht hr hn]
    congr 1
    refine List.filter_congr fun m hm => ?_
    rw [Function.comp_apply, Bool.eq_iff_iff, beq_iff_eq, beq_iff_eq]
    exact h.parents m hm n hn
  have hoffset : ∀ m ∈ t.held n.id, (σ m).offset = m.offset := by
    intro m hm
    refine h.offsets m (mem_outline_of_mem_held ht hr hn hm) fun e => ?_
    obtain ⟨hmem, hparent⟩ := mem_held.1 hm
    rw [ht.forest.eq_of_id_eq hmem hr e] at hparent
    exact parent_ne_of_mem_outline ht hr hn hparent
  have hsorted : (t.held n.id).Pairwise fun a b => a.offset ≤ b.offset := List.pairwise_insertionSort _ _
  rw [held, hnodes, List.filter_append, List.filter_append, hnone before (List.subset_append_left _ _),
    hnone after (List.subset_append_right _ _), himages, List.nil_append, List.append_nil]
  -- the children stand in order already
  refine List.Pairwise.insertionSort_eq (List.pairwise_map.2 (hsorted.imp_of_mem fun {a b} ha hb hle => ?_))
  rw [hoffset a ha, hoffset b hb]
  exact hle

/-- **The outline of the image of the root is the image of the outline.** -/
theorem outline_eq : u.outline (σ r) = (t.outline r).map σ :=
  outline_map ht h.formed hr (h.mem_nodes (root_mem_outline ht hr)) fun _ hn => h.held_eq ht hr hn

end Replicates

/-! ## Nodes behind the others -/

/-- nodes that are appended and not held by one of an outline leave it as it was -/
theorem outline_append (ht : t.Formed) (hu : u.Formed) (hr : r ∈ t.nodes) {ms : List Node} (hnodes : u.nodes = t.nodes ++ ms)
    (hms : ∀ m ∈ ms, ∀ n ∈ t.outline r, m.parent ≠ n.id) : u.outline r = t.outline r := by
  have hsame := outline_map (σ := id) ht hu hr (hnodes ▸ List.mem_append_left _ hr) fun n hn => ?_
  · rwa [List.map_id] at hsame
  · have hnone : ms.filter (fun m => m.parent == n.id) = [] := by
      rw [List.filter_eq_nil_iff]
      exact fun m hm e => hms m hm n hn (beq_iff_eq.1 e)
    rw [held, id_eq, hnodes, List.filter_append, hnone, List.append_nil, List.map_id, held]

end ByteAtlas.Tree
