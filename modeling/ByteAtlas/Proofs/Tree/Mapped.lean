/-
Trees at other addresses. No change of a tree asks for the address of its outermost level: wherever the tree is mapped, it
is refused for the same reason or comes to the same nodes (`Portable`).
-/
import ByteAtlas.Proofs.Tree.WellFormed
import ByteAtlas.Edit.OnTree

namespace ByteAtlas.Tree

variable {t u : Tree}

/-- the tree with another address for its outermost level -/
def mapped (t : Tree) (base : UInt64) : Tree := { t with base }

@[simp] theorem base_mapped (t : Tree) (base : UInt64) : (t.mapped base).base = base := rfl

@[simp] theorem nodes_mapped (t : Tree) (base : UInt64) : (t.mapped base).nodes = t.nodes := rfl

theorem Formed.mapped (h : t.Formed) (base : UInt64) : (t.mapped base).Formed := ⟨h.indexed, h.forest⟩

theorem formed_of_mapped {base : UInt64} (h : (t.mapped base).Formed) : t.Formed := ⟨h.indexed, h.forest⟩

/-! ## Looking -/

section Looking

variable (t : Tree) (base : UInt64)

@[simp] theorem find?_mapped (id : NodeId) : (t.mapped base).find? id = t.find? id := rfl

@[simp] theorem contains_mapped (id : NodeId) : (t.mapped base).contains id = t.contains id := rfl

@[simp] theorem checkHolder_mapped (parent : NodeId) : (t.mapped base).checkHolder parent = t.checkHolder parent := rfl

@[simp] theorem children_mapped (parent : NodeId) : (t.mapped base).children parent = t.children parent := rfl

theorem meets_mapped (above : NodeId) (steps : Nat) (id : NodeId) :
    (t.mapped base).meets above steps id = t.meets above steps id := by
  induction steps generalizing id with
  | zero => rfl
  | succ steps ih => simp only [meets, find?_mapped, ih]

@[simp] theorem liesAbove_mapped (above id : NodeId) : (t.mapped base).liesAbove above id = t.liesAbove above id :=
  t.meets_mapped base above _ id

theorem unstack_mapped (steps : Nat) (stack : List Nat) (seen : List NodeId) :
    (t.mapped base).unstack steps stack seen = t.unstack steps stack seen := by
  induction steps generalizing stack seen with
  | zero => rfl
  | succ steps ih =>
    cases stack with
    | nil => rfl
    | cons i stack => simp only [unstack, nodes_mapped, children_mapped, ih]

@[simp] theorem subtree_mapped (id : NodeId) : (t.mapped base).subtree id = t.subtree id := by
  simp only [subtree, unstack_mapped, nodes_mapped]
  rfl

@[simp] theorem removal_mapped (ids : List NodeId) : Edit.removal (t.mapped base) ids = Edit.removal t ids := by
  have hsub : (t.mapped base).subtree = t.subtree := funext (t.subtree_mapped base)
  simp only [Edit.removal, contains_mapped, nodes_mapped, hsub]

theorem checkInsert_mapped (all before ns : List Node) :
    (t.mapped base).checkInsert all before ns = t.checkInsert all before ns := by
  induction ns generalizing before with
  | nil => rfl
  | cons n rest ih => simp only [checkInsert, contains_mapped, checkHolder_mapped, ih]

theorem checkPutBack_mapped (ids : List NodeId) (removed : List (Nat × Node)) :
    (t.mapped base).checkPutBack ids removed = t.checkPutBack ids removed := by
  induction removed with
  | nil => rfl
  | cons r rest ih => simp only [checkPutBack, contains_mapped, checkHolder_mapped, ih]

end Looking

/-! ## Changing -/

theorem takeOut_mapped (t : Tree) (base : UInt64) (i : Nat) : (t.mapped base).takeOut i = (t.takeOut i).mapped base := by
  unfold takeOut
  rw [nodes_mapped]
  cases t.nodes[i]? <;> rfl

theorem foldl_push_mapped (t : Tree) (base : UInt64) (ns : List Node) :
    ns.foldl push (t.mapped base) = (ns.foldl push t).mapped base := by
  induction ns generalizing t with
  | nil => rfl
  | cons n rest ih => exact ih (t.push n)

theorem foldl_putAt_mapped (t : Tree) (base : UInt64) (removed : List (Nat × Node)) :
    removed.foldl (fun t r => t.putAt r.1 r.2) (t.mapped base) =
      (removed.foldl (fun t r => t.putAt r.1 r.2) t).mapped base := by
  induction removed generalizing t with
  | nil => rfl
  | cons r rest ih => exact ih (t.putAt r.1 r.2)

theorem foldr_takeOut_mapped (t : Tree) (base : UInt64) (removed : List (Nat × Node)) :
    removed.foldr (fun r t => t.takeOut r.1) (t.mapped base) =
      (removed.foldr (fun r t => t.takeOut r.1) t).mapped base := by
  induction removed with
  | nil => rfl
  | cons r rest ih => rw [List.foldr_cons, List.foldr_cons, ih, takeOut_mapped]

/-- a change that comes to the same wherever the tree is mapped -/
def Portable (f : Tree → Except EditError Tree) : Prop :=
  ∀ t base, f (t.mapped base) = (f t).map fun u => u.mapped base

/-- such a change leaves the tree where it is mapped -/
theorem Portable.base_eq {f : Tree → Except EditError Tree} (hf : Portable f) (hu : f t = .ok u) : u.base = t.base := by
  have hsame : f t = (f t).map fun u => u.mapped t.base := hf t t.base
  rw [hu] at hsame
  have hmapped : u = u.mapped t.base := Except.ok.inj hsame
  calc u.base = (u.mapped t.base).base := congrArg Tree.base hmapped
    _ = t.base := base_mapped u t.base

theorem portable_modify (id : NodeId) (f : Node → Node) : Portable fun t => t.modify id f := by
  intro t base
  simp only [modify]
  rw [show (t.mapped base).position? id = t.position? id from rfl]
  cases t.position? id <;> rfl

theorem portable_insert (ns : List Node) : Portable fun t => t.insert ns := by
  intro t base
  simp only [insert, checkInsert_mapped, foldl_push_mapped]
  cases t.checkInsert ns [] ns <;> rfl

theorem portable_remove (removed : List (Nat × Node)) : Portable fun t => t.remove removed := by
  intro t base
  simp only [remove, nodes_mapped, foldr_takeOut_mapped]
  split
  · rfl
  · split <;> rfl

theorem portable_putBack (removed : List (Nat × Node)) : Portable fun t => t.putBack removed := by
  intro t base
  simp only [putBack, checkPutBack_mapped, foldl_putAt_mapped]
  cases t.checkPutBack (removed.map fun r => r.2.id) removed <;> rfl

theorem portable_removeIds (ids : List NodeId) : Portable fun t => t.removeIds ids := by
  intro t base
  simp only [removeIds, removal_mapped]
  cases Edit.removal t ids with
  | error e => rfl
  | ok e =>
    cases e with
    | remove removed => exact portable_remove removed t base
    | _ => rfl

theorem portable_reshape (id : NodeId) (s : Shape) : Portable fun t => t.reshape id s := by
  intro t base
  change (t.mapped base).reshape id s = (t.reshape id s).map _
  rw [reshape, reshape, children_mapped]
  split
  · rfl
  · exact portable_modify id _ t base

theorem portable_move (id parent : NodeId) (offset : UInt64) : Portable fun t => t.move id parent offset := by
  intro t base
  simp only [move, contains_mapped, checkHolder_mapped, liesAbove_mapped]
  split
  · rfl
  · cases t.checkHolder parent with
    | error e => rfl
    | ok _ =>
      simp only
      split
      · rfl
      · exact portable_modify id _ t base

end ByteAtlas.Tree
