/-
Removals. A removal names nodes together with their positions. It is made if every node is where it is said to be and if
nothing stays that one of them holds (`Tree.Removable`); otherwise it is refused, and nothing changes.

- `Edit.remove_listed`: told in ascending order of positions, the nodes that are named go, and no others.
- `Edit.remove_swapped`: out of order, other nodes go, and a node can lose its parent.
- `Edit.removal_restores`: ids, in any order and however often, stand for their nodes and all below these. The removal made of
  them is told in ascending order. It is made, and taking it back puts every node where it was.
-/
import ByteAtlas.Proofs.Edit.Sound
import ByteAtlas.Source.Image

namespace ByteAtlas

namespace Tree

variable {t u : Tree} {removed : List (Nat × Node)}

def listedIds (removed : List (Nat × Node)) : List NodeId := removed.map fun r => r.2.id

/-- nodes that may be taken out together: each is where it is said to be, and nothing stays that one of them holds -/
structure Removable (t : Tree) (removed : List (Nat × Node)) : Prop where
  placed : ∀ r ∈ removed, (t.nodes[r.1]?).map (·.id) = some r.2.id
  closed : ∀ n ∈ t.nodes, n.id ∉ listedIds removed → n.parent ∉ listedIds removed

instance (t : Tree) (removed : List (Nat × Node)) : Decidable (t.Removable removed) :=
  decidable_of_iff ((∀ r ∈ removed, (t.nodes[r.1]?).map (·.id) = some r.2.id) ∧
    ∀ n ∈ t.nodes, n.id ∉ listedIds removed → n.parent ∉ listedIds removed) ⟨fun h => ⟨h.1, h.2⟩, fun h => ⟨h.1, h.2⟩⟩

/-- a removal is made if and only if its nodes may be taken out -/
theorem removable_iff : t.Removable removed ↔ ∃ u, t.remove removed = .ok u := by
  constructor
  · exact fun h => ⟨_, remove_eq_ok_iff.2 ⟨h.placed, h.closed, rfl⟩⟩
  · rintro ⟨u, hu⟩
    obtain ⟨hplaced, hclosed, -⟩ := remove_eq_ok_iff.1 hu
    exact ⟨hplaced, hclosed⟩

section Captured

variable {ids : List NodeId}
  (hmem : ∀ n, n ∈ removed.map Prod.snd ↔ n ∈ t.nodes ∧ ∃ id ∈ ids, LiesAbove t.nodes id n.id)

include hmem

/-- the ids of what was captured are those that lie below one of the ids it was captured for -/
theorem mem_listedIds_iff {x : NodeId} :
    x ∈ listedIds removed ↔ (∃ n ∈ t.nodes, n.id = x) ∧ ∃ id ∈ ids, LiesAbove t.nodes id x := by
  rw [listedIds, ← Function.comp_def Node.id, ← List.map_map, List.mem_map]
  constructor
  · rintro ⟨n, hn, rfl⟩
    obtain ⟨hn, hab⟩ := (hmem n).1 hn
    exact ⟨⟨n, hn, rfl⟩, hab⟩
  · rintro ⟨⟨n, hn, rfl⟩, hab⟩
    exact ⟨n, (hmem n).2 ⟨hn, hab⟩, rfl⟩

/-- what was captured with all that lies below it may be taken out -/
theorem removable_of_captured (h : t.Formed) (hc : Captured removed t.nodes) : t.Removable removed where
  placed r hr := by rw [hc.stored r hr, Option.map_some]
  closed := by
    intro n hn hstays hp
    obtain ⟨⟨p, hp, hpid⟩, id, hid, hab⟩ := (mem_listedIds_iff hmem).1 hp
    have hz : n.parent ≠ 0 := hpid ▸ h.forest.nonzero p hp
    exact hstays ((mem_listedIds_iff hmem).2 ⟨⟨n, hn, rfl⟩, id, hid, .up hn hz hab⟩)

/-- once it was taken out, what is left lies below none of the ids -/
theorem mem_nodes_remove_iff (h : t.Formed) (hc : Captured removed t.nodes) (hu : t.remove removed = .ok u) {n : Node} :
    n ∈ u.nodes ↔ n ∈ t.nodes ∧ ∀ id ∈ ids, ¬ LiesAbove t.nodes id n.id := by
  rw [nodes_remove h.indexed hc.ascending hu, List.mem_filter, Bool.not_eq_true', List.contains_eq_mem,
    decide_eq_false_iff_not]
  refine and_congr_right fun hn => ?_
  rw [show (removed.map fun r => r.2.id) = listedIds removed from rfl, mem_listedIds_iff hmem, and_iff_right ⟨n, hn, rfl⟩]
  push Not
  rfl

end Captured

/-- whatever a removal names, and in whatever order, what it leaves stands in the old order under the old base -/
theorem sublist_remove (hu : t.remove removed = .ok u) : u.nodes.Sublist t.nodes ∧ u.base = t.base := by
  obtain ⟨-, -, rfl⟩ := remove_eq_ok_iff.1 hu
  rw [nodes_foldr_takeOut, base_foldr_takeOut]
  exact ⟨eraseAll_sublist _ _, rfl⟩

theorem WellFormed.remove (h : t.WellFormed) (ha : (removed.map Prod.fst).Pairwise (· < ·))
    (hu : t.remove removed = .ok u) : u.WellFormed where
  toFormed := h.toFormed.remove ha hu
  below := by
    intro n hn
    rw [nextId_remove hu]
    exact h.below n ((sublist_remove hu).1.subset hn)
  positive := nextId_remove hu ▸ h.positive

/-- in a forest every node has its parent -/
theorem exists_parent_of_mem (h : t.Formed) {n : Node} (hn : n ∈ t.nodes) :
    n.parent = 0 ∨ ∃ p ∈ t.nodes, p.id = n.parent := by
  refine (h.forest.held n hn).imp_right ?_
  rintro ⟨p, hp, hpid, -⟩
  exact ⟨p, hp, hpid⟩

/-! ## Ids that are put back -/

/-- an id below the next new one does not move it -/
theorem nextId_putAt_of_lt {n : Node} (hn : n.id < t.nextId) (i : Nat) : (t.putAt i n).nextId = t.nextId := by
  rw [UInt64.lt_iff_toNat_lt] at hn
  have hstep : (Word.satAdd n.id 1).toNat = min (n.id.toNat + 1) Word.top := Word.toNat_satAdd n.id 1
  apply UInt64.toNat_inj.1
  rw [show (t.putAt i n).nextId = max t.nextId (Word.satAdd n.id 1) from rfl, Word.toNat_max]
  omega

theorem nextId_foldl_putAt (hbelow : ∀ r ∈ removed, r.2.id < t.nextId) :
    (removed.foldl (fun t r => t.putAt r.1 r.2) t).nextId = t.nextId := by
  induction removed generalizing t with
  | nil => rfl
  | cons r rest ih =>
    rw [List.forall_mem_cons] at hbelow
    have hone := nextId_putAt_of_lt hbelow.1 r.1
    rw [List.foldl_cons, ih (hone ▸ hbelow.2), hone]

end Tree

namespace Edit

open ByteAtlas.Tree (listedIds)

variable {τ : Type} [Transport τ] {s : Scene τ} {removed : List (Nat × Node)}

/-! ## Nodes told with their positions -/

theorem apply_remove_of_ok {u : Tree} (hu : s.tree.remove removed = .ok u) :
    (remove removed).apply s = (.ok (), { s with tree := u }) := by
  rw [apply, Scene.onTree, hu]

/-- **A removal that is told in order takes out what it names.** One whose nodes may not be taken out is refused and changes
nothing. One whose nodes may is made, and what it leaves stands in the old order. If positions are told in ascending order,
it leaves exactly the nodes that it does not name, every one of them with its parent. -/
theorem remove_listed (hs : s.tree.WellFormed) (removed : List (Nat × Node)) :
    (¬ s.tree.Removable removed → ∃ err, (remove removed).apply s = (.error err, s)) ∧
    (s.tree.Removable removed → ∃ u, (remove removed).apply s = (.ok (), { s with tree := u }) ∧
      u.nodes.Sublist s.tree.nodes ∧ u.base = s.tree.base ∧ u.nextId = s.tree.nextId ∧
      ((removed.map Prod.fst).Pairwise (· < ·) →
        u.nodes = s.tree.nodes.filter (fun n => !(listedIds removed).contains n.id) ∧
        (∀ n ∈ u.nodes, n.parent = 0 ∨ ∃ p ∈ u.nodes, p.id = n.parent) ∧ u.WellFormed)) := by
  constructor
  · intro hno
    cases hu : s.tree.remove removed with
    | ok u => exact absurd (Tree.removable_iff.2 ⟨u, hu⟩) hno
    | error err => exact ⟨err, by rw [apply, Scene.onTree, hu]⟩
  · intro hyes
    obtain ⟨u, hu⟩ := Tree.removable_iff.1 hyes
    obtain ⟨hsub, hbase⟩ := Tree.sublist_remove hu
    refine ⟨u, apply_remove_of_ok hu, hsub, hbase, Tree.nextId_remove hu, fun ha => ?_⟩
    have hwf := hs.remove ha hu
    exact ⟨Tree.nodes_remove hs.indexed ha hu, fun n hn => Tree.exists_parent_of_mem hwf.toFormed hn, hwf⟩

/-- the line of the shapes is taken out with its ends; told without them it is not -/
theorem remove_listed_line :
    let s : Scene Image := ⟨Tree.shapeTree, .nothing⟩
    let line := [(3, Tree.shapeNodes[3]), (4, Tree.shapeNodes[4]), (5, Tree.shapeNodes[5])]
    (∃ u, (remove line).apply s = (.ok (), { s with tree := u }) ∧ u.nodes.map (·.id) = [1, 2, 3, 7, 8, 9] ∧
      u.WellFormed) ∧
    ∃ err, (remove [(3, Tree.shapeNodes[3])]).apply s = (.error err, s) := by
  intro s line
  have hs : s.tree.WellFormed :=
    Tree.wellFormed_ofNodes (show Tree.ofNodes 0 Tree.shapeNodes 1 = .ok Tree.shapeTree from rfl)
  obtain ⟨u, happ, -, -, -, hasc⟩ := (remove_listed hs line).2 (by decide)
  obtain ⟨hnodes, -, hwf⟩ := hasc (by decide)
  exact ⟨⟨u, happ, hnodes ▸ by decide, hwf⟩, (remove_listed hs _).1 (by decide)⟩

/-- two bytes, and a struct that holds a third -/
def bytesNodes : List Node :=
  [{ Node.ofKind .uint8 "low" with id := 1 }, { Node.ofKind .uint8 "high" with id := 2, offset := 1 },
    { Node.rootStruct "box" "Box" with id := 3, offset := 2 }, { Node.field 3 0 .uint8 "inner" with id := 4 }]

def bytesTree : Tree := bytesNodes.foldl Tree.push (Tree.empty 0)

/-- **Out of order, other nodes go.** The two bytes are named with their positions, the second first. The removal is made,
but the second byte stays, the struct that was not named is gone, and what it held has lost its parent. -/
theorem remove_swapped :
    bytesTree.WellFormed ∧ bytesTree.Removable [(1, bytesNodes[1]), (0, bytesNodes[0])] ∧
    ∃ u, (remove [(1, bytesNodes[1]), (0, bytesNodes[0])]).apply (⟨bytesTree, .nothing⟩ : Scene Image) =
        (.ok (), ⟨u, .nothing⟩) ∧
      bytesNodes[1] ∈ u.nodes ∧ bytesNodes[2] ∉ u.nodes ∧
      ∃ n ∈ u.nodes, n.parent ≠ 0 ∧ ∀ p ∈ u.nodes, p.id ≠ n.parent := by
  have hwf := Tree.wellFormed_ofNodes (show Tree.ofNodes 0 bytesNodes 1 = .ok bytesTree from rfl)
  exact ⟨hwf, by decide, (bytesTree.takeOut 0).takeOut 1, by rfl, by decide, by decide, bytesNodes[3], by decide⟩

/-! ## Nodes told by their ids -/

/-- **Ids of nodes can be removed and put back.** They may be told in any order, more than once, and together with ids that lie
below them. What is left are the nodes that lie below none of them, in the old order. Taking the removal back puts every
node where it was. -/
theorem removal_restores (hs : s.tree.WellFormed) {ids : List NodeId} (hids : ∀ id ∈ ids, s.tree.contains id = true) :
    ∃ e u v, removal s.tree ids = .ok e ∧
      e.apply s = (.ok (), { s with tree := u }) ∧ u.nodes.Sublist s.tree.nodes ∧
      (∀ n, n ∈ u.nodes ↔ n ∈ s.tree.nodes ∧ ∀ id ∈ ids, ¬ LiesAbove s.tree.nodes id n.id) ∧ u.WellFormed ∧
      e.retract { s with tree := u } = (.ok (), { s with tree := v }) ∧
      v.nodes = s.tree.nodes ∧ (∀ id, v.position? id = s.tree.position? id) ∧ v.base = s.tree.base ∧
      v.nextId = s.tree.nextId := by
  obtain ⟨e, he⟩ := Tree.exists_removal hs.indexed fun id hid => (Tree.contains_iff hs.indexed).1 (hids id hid)
  obtain ⟨removed, rfl, hc, hmem⟩ := Tree.removal_ok hs.toFormed he
  obtain ⟨u, hu⟩ := Tree.removable_iff.1 (Tree.removable_of_captured hmem hs.toFormed hc)
  obtain ⟨v, hv, hnodes, hbase⟩ := Tree.exists_putBack hs.toFormed hc hu
  have hwf := hs.remove hc.ascending hu
  have halike := (hwf.toFormed.putBack hc hs.forest hv).alike hs.toFormed hbase hnodes
  refine ⟨_, u, v, he, apply_remove_of_ok hu, (Tree.sublist_remove hu).1, ?_, hwf, ?_, hnodes, halike.position, hbase, ?_⟩
  · exact fun n => Tree.mem_nodes_remove_iff hmem hs.toFormed hc hu
  · simp only [retract, Scene.onTree, hv]
  · obtain ⟨-, rfl⟩ := Tree.putBack_eq_ok_iff.1 hv
    rw [Tree.nextId_foldl_putAt, Tree.nextId_remove hu]
    intro r hr
    rw [Tree.nextId_remove hu]
    exact hs.below r.2 (List.mem_of_getElem? (hc.stored r hr))

/-- the last of the shapes is told twice, and an end of the line both by itself and with the line -/
theorem removal_restores_shapes :
    let s : Scene Image := ⟨Tree.shapeTree, .nothing⟩
    ∃ e u v, removal s.tree [9, 5, 4, 9] = .ok e ∧ e.apply s = (.ok (), { s with tree := u }) ∧
      u.nodes.map (·.id) = [1, 2, 3, 7, 8] ∧ u.WellFormed ∧
      e.retract { s with tree := u } = (.ok (), { s with tree := v }) ∧ v.nodes = s.tree.nodes := by
  intro s
  have hs : s.tree.WellFormed :=
    Tree.wellFormed_ofNodes (show Tree.ofNodes 0 Tree.shapeNodes 1 = .ok Tree.shapeTree from rfl)
  have hids : ∀ id ∈ ([9, 5, 4, 9] : List NodeId), s.tree.contains id = true := List.all_eq_true.1 (by decide)
  obtain ⟨e, u, v, he, happ, -, -, hwf, hback, hnodes, -⟩ := removal_restores hs hids
  have hmade : removal s.tree [9, 5, 4, 9] =
      .ok (remove ([3, 4, 5, 8].filterMap fun i => (Tree.shapeNodes[i]?).map fun n => (i, n))) := by rfl
  obtain rfl := Except.ok.inj (he.symm.trans hmade)
  have hu : u.nodes.map (·.id) = [1, 2, 3, 7, 8] := by
    rw [show u = _ from congrArg (fun o => o.2.tree) happ.symm]
    decide
  exact ⟨_, u, v, he, happ, hu, hwf, hback, hnodes⟩

end Edit

end ByteAtlas
