/-
The block of rows of one node, taken apart. A struct or an array has what it holds inside or, if it holds nothing, what it
refers to: the members of a definition, or a row of elements. Addresses and levels are handed down only, so a block that is
laid out elsewhere is the same block moved (`block_moved`); and nothing but the addresses of the roots depends on where the
tree is mapped (`listing_mapped`).
-/
import ByteAtlas.Proofs.Listing.Rows
import ByteAtlas.Proofs.Tree.Mapped

namespace ByteAtlas

theorem Word.add_right_comm (a b c : UInt64) : a + b + c = a + c + b := by ac_rfl

namespace Listing

/-- the row further on in memory, and on a deeper level -/
def Row.moved (address : UInt64) (depth : Nat) (r : Row) : Row :=
  { r with address := r.address + address, depth := r.depth + depth }

/-- what holds of no rows, and of rows side by side if it holds of each -/
theorem flatMap_induction {α : Type*} {motive : List Row → Prop} (nil : motive [])
    (append : ∀ rows rows', motive rows → motive rows' → motive (rows ++ rows')) {xs : List α} {f : α → List Row}
    (hf : ∀ a ∈ xs, motive (f a)) : motive (xs.flatMap f) := by
  induction xs with
  | nil => exact nil
  | cons a xs ih => exact append _ _ (hf a List.mem_cons_self) (ih fun b hb => hf b (List.mem_cons_of_mem a hb))

end Listing

namespace Tree

open Listing

variable {t : Tree} {o : Options} {i depth : Nat} {n : Node} {address : UInt64}

/-! ## What is inside a block -/

/-- the definition that is shown inside a node without members, or inside each of its elements -/
def definitionIn (t : Tree) (o : Options) (opened : List NodeId) (n : Node) : Option NodeId :=
  if n.kind = .array ∧ n.elementKind ≠ .struct then none else t.opening o opened n

/-- the members of a definition that is opened, if there is one -/
def definitionRows (t : Tree) (o : Options) (fuel : Nat) (opened : List NodeId) (d : Option NodeId) (address : UInt64)
    (depth : Nat) : List Row :=
  match d with
  | some d => t.heldRows (t.block o fuel (d :: opened)) d address depth
  | none => []

/-- what is shown inside the node at a position: what it holds, or elements with a definition in each, or a definition -/
def insideRows (t : Tree) (o : Options) (fuel : Nat) (opened : List NodeId) (i : Nat) (n : Node) (address : UInt64)
    (depth : Nat) : List Row :=
  if (t.children n.id).isEmpty then
    if n.kind = .array then
      t.elementRows o n (t.stride i) address depth fun element =>
        t.definitionRows o fuel opened (t.definitionIn o opened n) element (depth + 1)
    else t.definitionRows o fuel opened (t.definitionIn o opened n) address depth
  else t.heldRows (t.block o fuel opened) n.id address depth

/-- what is opened inside a node is a struct that it refers to and that is not open -/
theorem definitionIn_eq_some {d : NodeId} {opened : List NodeId} (hd : t.definitionIn o opened n = some d) :
    n.ref = d ∧ (n.kind = .array → n.elementKind = .struct) ∧ d ∉ opened ∧ ∃ m, t.find? d = some m ∧ m.kind = .struct := by
  unfold definitionIn opening at hd
  split_ifs at hd with hkind hno hdef
  obtain rfl := Option.some.inj hd
  simp only [Bool.or_eq_true, List.contains_eq_mem, decide_eq_true_eq, not_or] at hno
  obtain ⟨m, hm, hk⟩ := (Option.any_eq_true _ _).1 hdef
  refine ⟨rfl, ?_, hno.1.2, m, hm, by simpa using hk⟩
  intro harray
  by_contra helement
  exact hkind ⟨harray, helement⟩

/-- **The block of a struct or an array**: its own row, what is inside, and the closing row. -/
theorem block_of_canHold (hn : t.nodes[i]? = some n) (hk : n.kind.canHold) (fuel : Nat) (opened : List NodeId)
    (address : UInt64) (depth : Nat) : t.block o (fuel + 1) opened i address depth =
      t.bracket n n.kind.role address (t.size i) depth (t.insideRows o fuel opened i n address (depth + 1)) := by
  rw [block, hn]
  rcases Kind.canHold_iff.1 hk with hk | hk
  · simp only [hk, insideRows, definitionIn, definitionRows, reduceCtorEq, false_and, if_false]
    rfl
  · by_cases he : n.elementKind = .struct <;>
      simp only [hk, he, insideRows, definitionIn, definitionRows, ne_eq, not_true_eq_false, not_false_eq_true, and_false,
        and_true, if_true, if_false] <;> rfl

/-! ## Blocks elsewhere -/

theorem heldRows_moved {rows : Nat → UInt64 → Nat → List Row} {by' : UInt64} {down : Nat}
    (hrows : ∀ c address depth, (rows c address depth).map (Row.moved by' down) = rows c (address + by') (depth + down))
    (parent : NodeId) (address : UInt64) (depth : Nat) :
    (t.heldRows rows parent address depth).map (Row.moved by' down) =
      t.heldRows rows parent (address + by') (depth + down) := by
  rw [heldRows, heldRows, List.map_flatMap]
  refine List.flatMap_congr fun c _ => ?_
  rw [hrows, Word.add_right_comm]

theorem elementRow_moved (n : Node) (k address stride : UInt64) (depth : Nat) (by' : UInt64) (down : Nat) :
    (t.elementRow n k address stride depth).moved by' down = t.elementRow n k (address + by') stride (depth + down) := rfl

theorem elementRows_moved {inside : UInt64 → Nat → List Row} {by' : UInt64} {down : Nat}
    (hinside : ∀ address depth, (inside address depth).map (Row.moved by' down) = inside (address + by') (depth + down))
    (n : Node) (stride address : UInt64) (depth : Nat) :
    (t.elementRows o n stride address depth fun element => inside element (depth + 1)).map (Row.moved by' down) =
      t.elementRows o n stride (address + by') (depth + down) fun element => inside element (depth + down + 1) := by
  rw [elementRows, elementRows, List.map_append, List.map_flatMap]
  congr 1
  · refine List.flatMap_congr fun k _ => ?_
    simp only [List.map_cons, elementRow_moved, hinside, Nat.add_right_comm depth 1 down,
      Word.add_right_comm address (_ * stride)]
  · split_ifs
    · rw [List.map_singleton, Word.add_right_comm address by']
      rfl
    · rfl

theorem bracket_moved (by' : UInt64) (down : Nat) (n : Node) (role : Role) (address size : UInt64) (depth : Nat)
    (inside : List Row) : (t.bracket n role address size depth inside).map (Row.moved by' down) =
      t.bracket n role (address + by') size (depth + down) (inside.map (Row.moved by' down)) := by
  unfold bracket
  split_ifs
  · rfl
  · rw [List.map_cons, List.map_append, Word.add_right_comm address by']
    rfl

/-- **A block that is laid out elsewhere is the same block moved.** -/
theorem block_moved (by' : UInt64) (down fuel : Nat) (opened : List NodeId) (i : Nat) (address : UInt64) (depth : Nat) :
    (t.block o fuel opened i address depth).map (Row.moved by' down) =
      t.block o fuel opened i (address + by') (depth + down) := by
  induction fuel generalizing opened i address depth with
  | zero => rfl
  | succ fuel ih =>
    cases hn : t.nodes[i]? with
    | none => simp [block, hn]
    | some n =>
      have hdefinition : ∀ d address depth, (t.definitionRows o fuel opened d address depth).map (Row.moved by' down) =
          t.definitionRows o fuel opened d (address + by') (depth + down) := by
        rintro (_ | d) address depth
        · rfl
        · exact heldRows_moved (ih _) d address depth
      have hinside : ∀ depth, (t.insideRows o fuel opened i n address depth).map (Row.moved by' down) =
          t.insideRows o fuel opened i n (address + by') (depth + down) := by
        intro depth
        unfold insideRows
        split_ifs
        · exact elementRows_moved (hdefinition _) n _ address depth
        · exact hdefinition _ address depth
        · exact heldRows_moved (ih _) _ address depth
      by_cases hk : n.kind.canHold
      · rw [block_of_canHold hn hk, block_of_canHold hn hk, bracket_moved, hinside, Nat.add_right_comm depth 1 down]
      · rw [block_of_not_canHold hn hk, block_of_not_canHold hn hk]
        rfl

/-! ## The base -/

section Base

variable (t : Tree) (base : UInt64)

theorem measure_mapped (depth : Nat) (measuring : List NodeId) (i : Nat) :
    (t.mapped base).measure depth measuring i = t.measure depth measuring i := by
  induction depth generalizing measuring i with
  | zero => rfl
  | succ depth ih =>
    have hsizes : (t.mapped base).measure depth = t.measure depth := funext fun l => funext fun i => ih l i
    rw [measure, measure, hsizes]
    rfl

@[simp] theorem size_mapped (i : Nat) : (t.mapped base).size i = t.size i := t.measure_mapped base _ [] i

@[simp] theorem stride_mapped (i : Nat) : (t.mapped base).stride i = t.stride i := by
  have hsizes : (t.mapped base).measure t.depthBound = t.measure t.depthBound :=
    funext fun l => funext fun i => t.measure_mapped base _ l i
  rw [stride, stride, show (t.mapped base).depthBound = t.depthBound from rfl, hsizes]
  rfl

@[simp] theorem opening_mapped (opened : List NodeId) (n : Node) :
    (t.mapped base).opening o opened n = t.opening o opened n := by
  rw [opening, opening, liesAbove_mapped, find?_mapped]

/-- rows are laid out without regard to the base -/
theorem block_mapped (fuel : Nat) (opened : List NodeId) (i : Nat) (address : UInt64) (depth : Nat) :
    (t.mapped base).block o fuel opened i address depth = t.block o fuel opened i address depth := by
  induction fuel generalizing opened i address depth with
  | zero => rfl
  | succ fuel ih =>
    have hblocks : (t.mapped base).block o fuel = t.block o fuel :=
      funext fun l => funext fun i => funext fun a => funext fun k => ih l i a k
    rw [block, block, nodes_mapped]
    simp only [hblocks, size_mapped, stride_mapped, opening_mapped]
    rfl

theorem address_mapped (i : Nat) : (t.mapped base).address i = t.address i + (base - t.base) := by
  have hclimb : ∀ steps i, (t.mapped base).climb steps i = t.climb steps i := by
    intro steps
    induction steps with
    | zero => intro i; rfl
    | succ steps ih =>
      intro i
      rw [climb, climb]
      simp only [ih]
      rfl
  calc (t.mapped base).address i = base + t.climb (t.nodes.length + 1) i := by rw [address, hclimb]; rfl
    _ = t.base + (base - t.base) + t.climb (t.nodes.length + 1) i := by rw [UInt64.add_comm t.base, UInt64.sub_add_cancel]
    _ = t.address i + (base - t.base) := by rw [Word.add_right_comm, address]

/-- **A tree that is mapped elsewhere has the same listing, moved as far as the base.** -/
theorem listing_mapped : (t.mapped base).listing o = (t.listing o).map (Row.moved (base - t.base) 0) := by
  rw [listing, listing, List.map_flatMap]
  refine List.flatMap_congr fun i _ => ?_
  rw [block_mapped, address_mapped, block_moved]
  rfl

end Base

end Tree

end ByteAtlas
