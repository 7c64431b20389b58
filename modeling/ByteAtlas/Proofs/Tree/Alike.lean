/-
Trees that are alike: the same nodes in the same order under the same base. They may differ in how their positions are
kept and in the next new id, which is all that undoing an edit does not bring back.

Every function that looks into a tree answers the same on alike trees, and every edit of the tree either is refused on
both for one reason or makes them alike again (`Alike.insert`, `Alike.remove`, `Alike.putBack`, `Alike.removeIds`,
`Alike.modify`, `Alike.reshape`, `Alike.move`). None of this needs the trees to be formed. Formed trees with the same
nodes are alike (`Formed.alike`).
-/
import ByteAtlas.Proofs.Tree.Restore

namespace ByteAtlas

namespace Places

variable {ps qs : Places}

theorem get?_put_congr (h : ∀ k, ps.get? k = qs.get? k) (id : NodeId) (i : Nat) (k : NodeId) :
    (ps.put id i).get? k = (qs.put id i).get? k := by
  rw [get?_put, get?_put, h]

theorem get?_erase_congr (h : ∀ k, ps.get? k = qs.get? k) (id k : NodeId) :
    (ps.erase id).get? k = (qs.erase id).get? k := by
  rw [get?_erase, get?_erase, h]

theorem get?_putAll_congr (h : ∀ k, ps.get? k = qs.get? k) (i : Nat) (ns : List Node) (k : NodeId) :
    (ps.putAll i ns).get? k = (qs.putAll i ns).get? k := by
  induction ns generalizing ps qs i with
  | nil => exact h k
  | cons n rest ih => exact ih (get?_put_congr h n.id i) (i + 1)

end Places

namespace Tree

/-- the same but for how positions are kept and for the next new id -/
structure Alike (t u : Tree) : Prop where
  base : t.base = u.base
  nodes : t.nodes = u.nodes
  position : ∀ id, t.position? id = u.position? id

/-- both refused for one reason, or both done with alike results -/
def Agree : Except EditError Tree → Except EditError Tree → Prop
  | .ok t, .ok u => t.Alike u
  | .error e, .error f => e = f
  | _, _ => False

variable {t u v : Tree}

theorem Alike.refl (t : Tree) : t.Alike t := ⟨rfl, rfl, fun _ => rfl⟩

theorem Alike.symm (h : t.Alike u) : u.Alike t := ⟨h.base.symm, h.nodes.symm, fun id => (h.position id).symm⟩

theorem Alike.trans (h : t.Alike u) (h' : u.Alike v) : t.Alike v :=
  ⟨h.base.trans h'.base, h.nodes.trans h'.nodes, fun id => (h.position id).trans (h'.position id)⟩

theorem Formed.alike (ht : t.Formed) (hu : u.Formed) (hb : t.base = u.base) (hn : t.nodes = u.nodes) : t.Alike u := by
  refine ⟨hb, hn, fun id => Option.ext fun i => ?_⟩
  rw [ht.indexed id i, hu.indexed id i, hn]

namespace Alike

theorem formed (h : t.Alike u) (ht : t.Formed) : u.Formed where
  indexed id i := by
    rw [← h.position, ← h.nodes]
    exact ht.indexed id i
  forest := h.nodes ▸ ht.forest

/-! ## Looking -/

theorem find? (h : t.Alike u) (id : NodeId) : t.find? id = u.find? id := by
  rw [Tree.find?, Tree.find?, h.position, h.nodes]

theorem contains (h : t.Alike u) (id : NodeId) : t.contains id = u.contains id := by
  rw [Tree.contains, Tree.contains, h.position]

theorem checkHolder (h : t.Alike u) (parent : NodeId) : t.checkHolder parent = u.checkHolder parent := by
  rw [Tree.checkHolder, Tree.checkHolder, h.find?]

theorem children (h : t.Alike u) (parent : NodeId) : t.children parent = u.children parent := by
  have hkey : t.offsetAt = u.offsetAt := funext fun i => by rw [offsetAt, offsetAt, h.nodes]
  rw [Tree.children, Tree.children, heldBy, heldBy, h.nodes, hkey]

theorem meets (h : t.Alike u) (above : NodeId) (steps : Nat) (id : NodeId) :
    t.meets above steps id = u.meets above steps id := by
  induction steps generalizing id with
  | zero => rfl
  | succ steps ih => simp only [Tree.meets, h.find?, ih]

theorem liesAbove (h : t.Alike u) (above id : NodeId) : t.liesAbove above id = u.liesAbove above id := by
  rw [Tree.liesAbove, Tree.liesAbove, h.meets, h.nodes]

theorem unstack (h : t.Alike u) (steps : Nat) (stack : List Nat) (seen : List NodeId) :
    t.unstack steps stack seen = u.unstack steps stack seen := by
  induction steps generalizing stack seen with
  | zero => rfl
  | succ steps ih =>
    cases stack with
    | nil => rfl
    | cons i stack => simp only [Tree.unstack, h.nodes, h.children, ih]

theorem subtree (h : t.Alike u) (id : NodeId) : t.subtree id = u.subtree id := by
  simp only [Tree.subtree, h.position, h.nodes, h.unstack]

theorem removal (h : t.Alike u) (ids : List NodeId) : Edit.removal t ids = Edit.removal u ids := by
  have hsub : ids.map t.subtree = ids.map u.subtree := List.map_congr_left fun id _ => h.subtree id
  simp only [Edit.removal, h.contains, h.nodes, hsub]

/-! ## Changing -/

theorem push (h : t.Alike u) (n : Node) : (t.push n).Alike (u.push n) := by
  refine ⟨h.base, ?_, fun id => ?_⟩
  · rw [nodes_push, nodes_push, h.nodes]
  · simp only [position?, Tree.push, h.nodes]
    exact Places.get?_put_congr h.position n.id _ id

theorem putAt (h : t.Alike u) (i : Nat) (n : Node) : (t.putAt i n).Alike (u.putAt i n) := by
  refine ⟨h.base, ?_, fun id => ?_⟩
  · rw [nodes_putAt', nodes_putAt', h.nodes]
  · simp only [position?, Tree.putAt, h.nodes]
    exact Places.get?_putAll_congr h.position _ _ id

theorem takeOut (h : t.Alike u) (i : Nat) : (t.takeOut i).Alike (u.takeOut i) := by
  refine ⟨?_, ?_, fun id => ?_⟩
  · rw [base_takeOut, base_takeOut, h.base]
  · rw [nodes_takeOut, nodes_takeOut, h.nodes]
  · unfold Tree.takeOut
    rw [h.nodes]
    cases u.nodes[i]? with
    | none => exact h.position id
    | some n => exact Places.get?_putAll_congr (Places.get?_erase_congr h.position n.id) _ _ id

theorem modify (h : t.Alike u) (id : NodeId) (f : Node → Node) : Agree (t.modify id f) (u.modify id f) := by
  unfold Tree.modify
  rw [h.position]
  cases u.position? id with
  | none => exact rfl
  | some i => exact ⟨h.base, congrArg (fun ns => ns.modify i f) h.nodes, h.position⟩

theorem reshape (h : t.Alike u) (id : NodeId) (s : Shape) : Agree (t.reshape id s) (u.reshape id s) := by
  unfold Tree.reshape
  rw [h.children]
  split
  · exact rfl
  · exact h.modify id _

theorem move (h : t.Alike u) (id parent : NodeId) (offset : UInt64) :
    Agree (t.move id parent offset) (u.move id parent offset) := by
  unfold Tree.move
  rw [h.contains, h.checkHolder, h.liesAbove]
  split
  · exact rfl
  · cases u.checkHolder parent with
    | error e => exact rfl
    | ok _ =>
      simp only
      split
      · exact rfl
      · exact h.modify id _

theorem foldl_push (h : t.Alike u) (ns : List Node) : (ns.foldl Tree.push t).Alike (ns.foldl Tree.push u) := by
  induction ns generalizing t u with
  | nil => exact h
  | cons n rest ih => exact ih (h.push n)

theorem checkInsert (h : t.Alike u) (all before ns : List Node) :
    t.checkInsert all before ns = u.checkInsert all before ns := by
  induction ns generalizing before with
  | nil => rfl
  | cons n rest ih => simp only [Tree.checkInsert, h.contains, h.checkHolder, ih]

theorem insert (h : t.Alike u) (ns : List Node) : Agree (t.insert ns) (u.insert ns) := by
  unfold Tree.insert
  rw [h.checkInsert]
  cases u.checkInsert ns [] ns with
  | error e => exact rfl
  | ok _ => exact h.foldl_push ns

theorem foldr_takeOut (h : t.Alike u) (removed : List (Nat × Node)) :
    (removed.foldr (fun r t => t.takeOut r.1) t).Alike (removed.foldr (fun r t => t.takeOut r.1) u) := by
  induction removed with
  | nil => exact h
  | cons r rest ih => exact ih.takeOut r.1

theorem remove (h : t.Alike u) (removed : List (Nat × Node)) : Agree (t.remove removed) (u.remove removed) := by
  unfold Tree.remove
  simp only [h.nodes]
  split
  · exact rfl
  · split
    · exact rfl
    · exact h.foldr_takeOut removed

theorem foldl_putAt (h : t.Alike u) (removed : List (Nat × Node)) :
    (removed.foldl (fun t r => t.putAt r.1 r.2) t).Alike (removed.foldl (fun t r => t.putAt r.1 r.2) u) := by
  induction removed generalizing t u with
  | nil => exact h
  | cons r rest ih => exact ih (h.putAt r.1 r.2)

theorem checkPutBack (h : t.Alike u) (ids : List NodeId) (removed : List (Nat × Node)) :
    t.checkPutBack ids removed = u.checkPutBack ids removed := by
  induction removed with
  | nil => rfl
  | cons r rest ih => simp only [Tree.checkPutBack, h.contains, h.checkHolder, ih]

theorem putBack (h : t.Alike u) (removed : List (Nat × Node)) : Agree (t.putBack removed) (u.putBack removed) := by
  unfold Tree.putBack
  rw [h.checkPutBack]
  cases u.checkPutBack (removed.map fun r => r.2.id) removed with
  | error e => exact rfl
  | ok _ => exact h.foldl_putAt removed

theorem removeIds (h : t.Alike u) (ids : List NodeId) : Agree (t.removeIds ids) (u.removeIds ids) := by
  unfold Tree.removeIds
  rw [h.removal]
  cases Edit.removal u ids with
  | error e => exact rfl
  | ok e =>
    cases e with
    | remove removed => exact h.remove removed
    | _ => exact h

end Alike

end Tree

end ByteAtlas
