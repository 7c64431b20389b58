/-
Edits that rewrite one node in its place: moves and changes of shape. Each looks at the tree before it writes. What it
looks at is enough and not too much.

- `Forest.replace_iff`: what has to hold of a node and of the nodes around it for the forest to stay one when the node
  takes the place of another. The first direction is `Forest.replace`; the other one reads the three conditions off the
  forest that comes out.
- `Tree.wellFormed_rewritten_iff`: the same of a tree.
- `Edit.refit_admitted`: a move or a change of shape is made if and only if its node is there and the tree with the new
  fields written in is well-formed. It then gives that tree; otherwise it changes nothing.
-/
import ByteAtlas.Proofs.Tree.InPlace
import ByteAtlas.Proofs.Tree.Building
import ByteAtlas.Edit.Apply
import ByteAtlas.Source.Image

namespace ByteAtlas

namespace Forest

variable {ns ms : List Node} {n n' : Node}

/-- what lies above something still does when other nodes than itself are rewritten -/
theorem liesAbove_of_others {top : NodeId} (hother : ∀ m ∈ ns, m.id ≠ top → m ∈ ms) {id : NodeId}
    (hab : LiesAbove ns top id) : LiesAbove ms top id := by
  induction hab with
  | self => exact .self
  | @up m hm hz _ ih =>
    by_cases e : m.id = top
    · exact e ▸ .self
    · exact .up (hother m hm e) hz ih

/-- **When a node may take the place of another.** It has to be able to hold what is held there, what is to hold it has
to be there already, and it must not come to lie below itself. -/
theorem replace_iff (h : Forest ns) (hn : n ∈ ns) (hid : n'.id = n.id) (hms : ms.map (·.id) = ns.map (·.id))
    (hmem : ∀ m, m ∈ ms ↔ m = n' ∨ m ∈ ns ∧ m.id ≠ n.id) :
    Forest ms ↔ (n'.kind.canHold ∨ ∀ m ∈ ns, m.parent ≠ n.id) ∧ CanHold ns n'.parent ∧
      (n'.parent ≠ 0 → ¬ LiesAbove ns n.id n'.parent) := by
  refine ⟨fun h' => ?_, fun ⟨hk, hp, ha⟩ => h.replace hn hid hms hmem hk hp ha⟩
  have hn' : n' ∈ ms := (hmem n').2 (Or.inl rfl)
  have hother : ∀ m ∈ ns, m.id ≠ n.id → m ∈ ms := fun m hm e => (hmem m).2 (Or.inr ⟨hm, e⟩)
  refine ⟨(h'.canHold_or_childless hn').imp_right fun hno m hm e => ?_, ?_, fun hz hab => ?_⟩
  · by_cases hmid : m.id = n.id
    -- the node that was there does not hold itself
    · obtain rfl := h.eq_of_id_eq hm hn hmid
      exact h.not_liesAbove_parent hn (e.trans_ne (h.nonzero _ hn)) (e ▸ .self)
    · exact hno m (hother m hm hmid) (e.trans hid.symm)
  · rcases h'.held n' hn' with hz | ⟨p, hp, hpid, hpk⟩
    · exact Or.inl hz
    · rcases (hmem p).1 hp with rfl | ⟨hp', -⟩
      · exact absurd (hpid ▸ .self) (h'.not_liesAbove_parent hp (hpid ▸ h'.nonzero _ hp))
      · exact Or.inr ⟨p, hp', hpid, hpk⟩
  · exact h'.not_liesAbove_parent hn' hz (hid ▸ liesAbove_of_others hother hab)

end Forest

namespace Tree

variable {t u : Tree} {id : NodeId} {f : Node → Node}

/-- the tree with the node of an id rewritten in its place, whatever comes of it -/
def rewritten (t : Tree) (id : NodeId) (f : Node → Node) : Tree :=
  { t with nodes := t.nodes.map fun n => if n.id = id then f n else n }

theorem mem_rewritten {m : Node} (hmem : m ∈ (t.rewritten id f).nodes) :
    ∃ n ∈ t.nodes, (if n.id = id then f n else n) = m :=
  List.mem_map.1 hmem

theorem Indexed.modify_eq_map (h : t.Indexed) {i : Nat} (hi : t.position? id = some i) :
    t.nodes.modify i f = t.nodes.map fun n => if n.id = id then f n else n := by
  apply List.ext_getElem?
  intro j
  rw [List.getElem?_modify, List.getElem?_map]
  cases hj : t.nodes[j]? with
  | none => rfl
  | some n =>
    have hiff : i = j ↔ n.id = id := by
      constructor
      · rintro rfl
        simpa [hj] using (h id i).1 hi
      · rintro rfl
        exact Option.some.inj (hi.symm.trans (position?_of_getElem? h hj))
    simp [hiff]

/-- a change in place needs nothing but the node -/
theorem modify_eq_rewritten_iff (h : t.Indexed) :
    t.modify id f = .ok u ↔ (∃ n ∈ t.nodes, n.id = id) ∧ u = t.rewritten id f := by
  rw [modify_eq_ok_iff, ← contains_iff h, contains, Option.isSome_iff_exists]
  constructor
  · rintro ⟨i, hi, rfl⟩
    exact ⟨⟨i, hi⟩, by rw [rewritten, h.modify_eq_map hi]⟩
  · rintro ⟨⟨i, hi⟩, rfl⟩
    exact ⟨i, hi, by rw [rewritten, h.modify_eq_map hi]⟩

/-- a tree with one node rewritten is well-formed if the new node may take the place of the old one -/
theorem wellFormed_rewritten_iff (h : t.WellFormed) (hf : ∀ n, (f n).id = n.id) {n : Node} (hn : n ∈ t.nodes) :
    (t.rewritten n.id f).WellFormed ↔ ((f n).kind.canHold ∨ ∀ m ∈ t.nodes, m.parent ≠ n.id) ∧
      CanHold t.nodes (f n).parent ∧ ((f n).parent ≠ 0 → ¬ LiesAbove t.nodes n.id (f n).parent) := by
  have hu : t.modify n.id f = .ok (t.rewritten n.id f) := (modify_eq_rewritten_iff h.indexed).2 ⟨⟨n, hn, rfl⟩, rfl⟩
  constructor
  · intro h'
    obtain ⟨i, m, hi, hmid, -, heq⟩ := modify_ok h.indexed hu
    obtain rfl := h.forest.eq_of_id_eq (List.mem_of_getElem? hi) hn hmid
    have hnodes : (t.rewritten m.id f).nodes = t.nodes.modify i f := by rw [heq]
    have hids : (t.rewritten m.id f).nodes.map (·.id) = t.nodes.map (·.id) := by
      rw [rewritten, List.map_map]
      refine List.map_congr_left fun k _ => ?_
      rw [Function.comp_apply]
      split_ifs
      exacts [hf k, rfl]
    exact (h.forest.replace_iff hn (hf m) hids (hnodes ▸ mem_modify_iff h.indexed.nodup hi f)).1 h'.forest
  · intro hplace
    have hformed := h.toFormed.modify hu hf fun m hm e => by
      obtain rfl := h.forest.eq_of_id_eq hm hn e
      exact hplace
    refine ⟨hformed, fun m hm => ?_, h.positive⟩
    obtain ⟨k, hk, rfl⟩ := mem_rewritten hm
    split_ifs
    exacts [hf k ▸ h.below k hk, h.below k hk]

/-- a check before a change in place that asks for just this much lets the change through exactly when it leaves a
well-formed tree -/
theorem checked_iff (h : t.WellFormed) (hf : ∀ n, (f n).id = n.id) {check : Prop} (hcheck : ∀ n ∈ t.nodes, n.id = id →
    (check ↔ ((f n).kind.canHold ∨ ∀ m ∈ t.nodes, m.parent ≠ n.id) ∧ CanHold t.nodes (f n).parent ∧
      ((f n).parent ≠ 0 → ¬ LiesAbove t.nodes n.id (f n).parent))) :
    check ∧ t.modify id f = .ok u ↔
      ((∃ n ∈ t.nodes, n.id = id) ∧ (t.rewritten id f).WellFormed) ∧ u = t.rewritten id f := by
  rw [modify_eq_rewritten_iff h.indexed, and_left_comm, ← and_assoc]
  refine and_congr_left fun _ => and_congr_right fun ⟨n, hn, hid⟩ => ?_
  rw [hcheck n hn hid, ← hid, wellFormed_rewritten_iff h hf hn]

theorem reshape_eq_rewritten_iff (h : t.WellFormed) {s : Shape} : t.reshape id s = .ok u ↔
    ((∃ n ∈ t.nodes, n.id = id) ∧ (t.rewritten id fun n => n.withShape s).WellFormed) ∧
      u = t.rewritten id fun n => n.withShape s := by
  rw [reshape_eq_ok_iff]
  refine checked_iff h (f := fun n => n.withShape s) (fun _ => rfl) fun n hn hid => ?_
  -- the parent is the one there was
  have hstay : CanHold t.nodes n.parent ∧ (n.parent ≠ 0 → ¬ LiesAbove t.nodes n.id n.parent) :=
    ⟨h.forest.held n hn, h.forest.not_liesAbove_parent hn⟩
  exact hid ▸ (and_iff_left hstay).symm

theorem move_eq_rewritten_iff (h : t.WellFormed) {parent : NodeId} {offset : UInt64} : t.move id parent offset = .ok u ↔
    ((∃ n ∈ t.nodes, n.id = id) ∧ (t.rewritten id fun n => { n with parent, offset }).WellFormed) ∧
      u = t.rewritten id fun n => { n with parent, offset } := by
  rw [move_eq_ok_iff h.toFormed, ← and_assoc]
  refine checked_iff h (f := fun n => { n with parent, offset }) (fun _ => rfl) fun n hn hid => ?_
  -- the kind is the one there was
  exact hid ▸ (and_iff_right (h.forest.canHold_or_childless hn)).symm

end Tree

/-! ## Moves and changes of shape -/

namespace Edit

variable {τ : Type}

/-- the node that a move or a change of shape names, and the fields that it writes there -/
def refit? : Edit → Option (NodeId × (Node → Node))
  | reshape id _ new => some (id, fun n => n.withShape new)
  | move id _ new => some (id, fun n => { n with parent := new.1, offset := new.2 })
  | _ => none

/-- what an edit of the tree comes to when it can give one tree only -/
theorem onTree_of_iff {s : Scene τ} {change : Tree → Except EditError Tree} {P : Prop} {v : Tree}
    (h : ∀ u, change s.tree = .ok u ↔ P ∧ u = v) :
    ((s.onTree change).1 = .ok () ↔ P) ∧ ((s.onTree change).1 = .ok () → (s.onTree change).2 = { s with tree := v }) ∧
      ((s.onTree change).1 ≠ .ok () → (s.onTree change).2 = s) := by
  unfold Scene.onTree
  cases hc : change s.tree with
  | ok u =>
    obtain ⟨hp, rfl⟩ := (h u).1 hc
    simp [hp]
  | error e =>
    have hno : ¬ P := fun hp => by simpa [hc] using (h v).2 ⟨hp, rfl⟩
    simp [hno]

/-- **Moves and changes of shape are refused exactly when they would spoil the tree.** One is made if and only if the
node it names is there and the tree with the new fields written in is well-formed. Made, it leaves that tree; refused, it
leaves the one there was. -/
theorem refit_admitted [Transport τ] {s : Scene τ} (h : s.tree.WellFormed) {e : Edit} {id : NodeId} {f : Node → Node}
    (he : e.refit? = some (id, f)) :
    ((e.apply s).1 = .ok () ↔ (∃ n ∈ s.tree.nodes, n.id = id) ∧ (s.tree.rewritten id f).WellFormed) ∧
      ((e.apply s).1 = .ok () → (e.apply s).2 = { s with tree := s.tree.rewritten id f }) ∧
      ((e.apply s).1 ≠ .ok () → (e.apply s).2 = s) := by
  cases e with
  | reshape id old new =>
    obtain ⟨rfl, rfl⟩ := Prod.mk.inj (Option.some.inj he)
    rw [apply]
    exact onTree_of_iff fun u => Tree.reshape_eq_rewritten_iff h
  | move id old new =>
    obtain ⟨rfl, rfl⟩ := Prod.mk.inj (Option.some.inj he)
    rw [apply]
    exact onTree_of_iff fun u => Tree.move_eq_rewritten_iff h
  | _ => cases he

/-- the line inside the shape goes below the row beside it; the shape cannot go below that line, and the line that holds
two points cannot become a number -/
theorem refit_admitted_shapes :
    let s : Scene Image := ⟨Tree.shapeTree, .nothing⟩
    let down : Node → Node := fun n => { n with parent := 9, offset := 32 }
    let under : Node → Node := fun n => { n with parent := 8, offset := 0 }
    let number : Shape := ⟨.uint32, 0, .hex8, 0⟩
    (move 8 (7, 0) (9, 32)).apply s = (.ok (), { s with tree := s.tree.rewritten 8 down }) ∧
      (s.tree.rewritten 8 down).WellFormed ∧
      (move 7 (0, 0) (8, 0)).apply s = (.error (.wouldCreateCycle 7 8), s) ∧
      ¬ (s.tree.rewritten 7 under).WellFormed ∧
      (reshape 4 ⟨.struct, 0, .hex8, 0⟩ number).apply s = (.error (.orphanedChildren 4), s) ∧
      ¬ (s.tree.rewritten 4 fun n => n.withShape number).WellFormed := by
  intro s down under number
  have h : s.tree.WellFormed :=
    Tree.wellFormed_ofNodes (show Tree.ofNodes 0 Tree.shapeNodes 1 = .ok Tree.shapeTree from rfl)
  have hdown : (move 8 (7, 0) (9, 32)).refit? = some (8, down) := rfl
  have hunder : (move 7 (0, 0) (8, 0)).refit? = some (7, under) := rfl
  have hnumber : (reshape 4 ⟨.struct, 0, .hex8, 0⟩ number).refit? = some (4, fun n => n.withShape number) := rfl
  refine ⟨rfl, ((refit_admitted h hdown).1.1 rfl).2, rfl, fun hwf => ?_, rfl, fun hwf => ?_⟩
  · have hok := (refit_admitted h hunder).1.2 ⟨⟨Tree.shapeNodes[6], by decide, rfl⟩, hwf⟩
    exact absurd hok (by decide)
  · have hok := (refit_admitted h hnumber).1.2 ⟨⟨Tree.shapeNodes[3], by decide, rfl⟩, hwf⟩
    exact absurd hok (by decide)

end Edit

end ByteAtlas
