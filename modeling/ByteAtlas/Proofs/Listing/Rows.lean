/-
The rows of a listing that follows no references: which nodes have one, in what order, and what stands in it.

A listing works addresses and levels out on its way down. The tree tells both from below, by the way up from each node, and
both come to the same.

- `filter_block`: without closing rows, what is listed of a node is what each node of the unfolded branch has by itself.
- `listing_rows`: every node without a folded one above it has one row, and no other node has any. Rows stand in order and
  carry the address, the size and the level of their nodes; so do the rows of elements.
-/
import ByteAtlas.Proofs.Tree.Address
import ByteAtlas.Proofs.Tree.Building
import ByteAtlas.Proofs.Tree.Preorder
import ByteAtlas.Listing.Basic

namespace ByteAtlas

/-- what the row of a node of a kind stands for -/
def Kind.role : Kind → Listing.Role
  | .struct => .structHeader
  | .array => .arrayHeader
  | .padding => .padding
  | _ => .field

def Listing.Role.isNode : Listing.Role → Bool
  | .structHeader | .field | .arrayHeader | .padding => true
  | .arrayElement | .footer | .truncated => false

namespace Tree

variable {t : Tree} {o : Listing.Options} {i : Nat} {n : Node}

/-- the row of the node at a position: where it is, what it covers and how many nodes are above it -/
def rowAt (t : Tree) (i : Nat) : Option Listing.Row :=
  (t.nodes[i]?).map fun n => t.row n n.kind.role (t.address i) (t.size i) (t.level n.id)

/-- whether elements of the node at a position are shown: it is an array that is not folded and holds no nodes -/
def showsElements (t : Tree) (n : Node) : Bool := n.kind == .array && !n.collapsed && (t.children n.id).isEmpty

/-- rows of the elements of the node at a position, as many as are shown -/
def elementsAt (t : Tree) (o : Listing.Options) (i : Nat) : List Listing.Row :=
  match t.nodes[i]? with
  | none => []
  | some n =>
    if t.showsElements n then
      (List.range (min n.arrayLen o.maxElements).toNat).map fun k =>
        t.elementRow n (UInt64.ofNat k) (t.addressOfElement i (UInt64.ofNat k)) (t.stride i) (t.level n.id + 1)
    else []

/-- the rows that the node at a position has by itself, its closing row apart -/
def ownRows (t : Tree) (o : Listing.Options) (i : Nat) : List Listing.Row :=
  match t.nodes[i]? with
  | none => []
  | some n =>
    t.row n n.kind.role (t.address i) (t.size i) (t.level n.id) ::
      if t.showsElements n then t.elementRows o n (t.stride i) (t.address i) (t.level n.id + 1) fun _ => [] else []

theorem opening_of_not_expand (ho : o.expand = false) (opened : List NodeId) (n : Node) : t.opening o opened n = none := by
  simp [opening, ho]

theorem filter_elementRows (n : Node) (stride address : UInt64) (depth : Nat) :
    (t.elementRows o n stride address depth fun _ => []).filter (·.role != .footer) =
      t.elementRows o n stride address depth fun _ => [] := by
  rw [List.filter_eq_self]
  intro r hr
  rcases List.mem_append.1 hr with hr | hr
  · obtain ⟨k, -, hk⟩ := List.mem_flatMap.1 hr
    rw [List.mem_singleton.1 hk]
    rfl
  · split_ifs at hr
    · rw [List.mem_singleton.1 hr]
      rfl
    · exact absurd hr List.not_mem_nil

theorem filter_bracket {role : Listing.Role} (hrole : role ≠ .footer) (address size : UInt64) (depth : Nat)
    (inside : List Listing.Row) :
    (t.bracket n role address size depth inside).filter (·.role != .footer) =
      t.row n role address size depth :: if n.collapsed then [] else inside.filter (·.role != .footer) := by
  rw [bracket, List.filter_cons_of_pos (by simpa [row] using hrole)]
  split_ifs <;> simp [row]

/-- a node that can hold no others has one row -/
theorem block_of_not_canHold (hn : t.nodes[i]? = some n) (hk : ¬ n.kind.canHold) (fuel : Nat) (opened : List NodeId)
    (address : UInt64) (depth : Nat) :
    t.block o (fuel + 1) opened i address depth = [t.row n n.kind.role address (t.size i) depth] := by
  cases hkind : n.kind <;> simp_all [block, Kind.role, Kind.canHold]

/-- **Without closing rows, a block is what each node of the unfolded branch has by itself.** -/
theorem filter_block (h : t.Formed) (ho : o.expand = false) (fuel : Nat) (opened : List NodeId)
    (hn : t.nodes[i]? = some n) :
    (t.block o fuel opened i (t.address i) (t.level n.id)).filter (·.role != .footer) =
      (t.unfolded fuel i).flatMap (t.ownRows o) := by
  induction fuel generalizing i n with
  | zero => rfl
  | succ fuel ih =>
    have hmem := List.mem_of_getElem? hn
    have hheld : (t.heldRows (t.block o fuel opened) n.id (t.address i) (t.level n.id + 1)).filter (·.role != .footer) =
        ((t.children n.id).flatMap (t.unfolded fuel)).flatMap (t.ownRows o) := by
      rw [heldRows, List.filter_flatMap, List.flatMap_assoc]
      refine List.flatMap_congr fun c hc => ?_
      obtain ⟨m, hm, hp⟩ := mem_children.1 hc
      rw [← address_child h hn hc, ← level_child h hmem (List.mem_of_getElem? hm) hp]
      exact ih hm
    have hown : t.ownRows o i = t.row n n.kind.role (t.address i) (t.size i) (t.level n.id) ::
        if t.showsElements n then t.elementRows o n (t.stride i) (t.address i) (t.level n.id + 1) fun _ => [] else [] := by
      rw [ownRows, hn]
    rw [unfolded_succ_of_some hn, List.flatMap_cons, hown, List.cons_append]
    by_cases hk : n.kind.canHold
    · have hsplit := Kind.canHold_iff.1 hk
      have hempty : (t.children n.id).isEmpty → (t.children n.id).flatMap (t.unfolded fuel) = [] := by
        intro he
        rw [List.isEmpty_iff.1 he, List.flatMap_nil]
      rw [block, hn]
      -- a folded node and one without children list nothing below themselves
      rcases hsplit with hk | hk
      · have hshows : t.showsElements n = false := by simp [showsElements, hk]
        simp only [hk, opening_of_not_expand ho]
        rw [filter_bracket (by decide), hshows]
        refine congrArg (List.cons _) ?_
        by_cases hfold : n.collapsed <;> by_cases he : (t.children n.id).isEmpty <;> simp [hfold, he, hempty, hheld]
      · have hshows : t.showsElements n = (!n.collapsed && (t.children n.id).isEmpty) := by simp [showsElements, hk]
        simp only [hk, opening_of_not_expand ho, ite_self]
        rw [filter_bracket (by decide), hshows]
        refine congrArg (List.cons _) ?_
        by_cases hfold : n.collapsed <;> by_cases he : (t.children n.id).isEmpty <;>
          simp [hfold, he, hempty, hheld, filter_elementRows]
    · have hnone : t.children n.id = [] := by
        rw [← List.isEmpty_iff, children_isEmpty_iff]
        exact (h.forest.canHold_or_childless hmem).resolve_left hk
      have hshows : t.showsElements n = false := by cases hkind : n.kind <;> simp_all [showsElements, Kind.canHold]
      have hrole : n.kind.role ≠ .footer := by cases n.kind <;> decide
      rw [block_of_not_canHold hn hk, hshows, hnone]
      simp [row, hrole]

/-! ## What a node has by itself -/

theorem elementRows_eq (n : Node) (stride address : UInt64) (depth : Nat) :
    t.elementRows o n stride address depth (fun _ => []) =
      ((List.range (min n.arrayLen o.maxElements).toNat).map fun k =>
        t.elementRow n (UInt64.ofNat k) (address + UInt64.ofNat k * stride) stride depth) ++
      if min n.arrayLen o.maxElements < n.arrayLen then
        [truncatedRow n (n.arrayLen - min n.arrayLen o.maxElements) (address + min n.arrayLen o.maxElements * stride)
          (Word.satMul (n.arrayLen - min n.arrayLen o.maxElements) stride) depth]
      else [] := by
  rw [elementRows, List.map_eq_flatMap]

/-- one row stands for the node as a whole -/
theorem filter_isNode_ownRows (hn : t.nodes[i]? = some n) :
    ((t.ownRows o i).filter (·.role.isNode)).map some = [t.rowAt i] := by
  have hrole : n.kind.role.isNode = true := by cases n.kind <;> rfl
  have hrest : ∀ r ∈ t.elementRows o n (t.stride i) (t.address i) (t.level n.id + 1) fun _ => [],
      r.role.isNode = false := by
    intro r hr
    rw [elementRows_eq, List.mem_append, List.mem_map] at hr
    rcases hr with ⟨k, -, rfl⟩ | hr
    · rfl
    · split_ifs at hr
      · rw [List.mem_singleton.1 hr]
        rfl
      · exact absurd hr List.not_mem_nil
  rw [ownRows, rowAt, hn]
  simp only [Option.map_some]
  rw [List.filter_cons_of_pos (by simpa [row] using hrole)]
  split_ifs
  · rw [List.filter_eq_nil_iff.2 fun r hr => by simp [hrest r hr]]
    rfl
  · rfl

/-- the rest are its elements, and the row in place of those that are not shown -/
theorem filter_arrayElement_ownRows (hn : t.nodes[i]? = some n) :
    (t.ownRows o i).filter (·.role == .arrayElement) = t.elementsAt o i := by
  have hrole : n.kind.role ≠ .arrayElement := by cases n.kind <;> decide
  rw [ownRows, elementsAt, hn]
  simp only
  rw [List.filter_cons_of_neg (by simpa [row] using hrole)]
  by_cases hshows : t.showsElements n
  · rw [if_pos hshows, if_pos hshows, elementRows_eq, List.filter_append]
    have hall : ∀ (f : Nat → UInt64) (ks : List Nat) (depth : Nat),
        (ks.map fun k => t.elementRow n (UInt64.ofNat k) (f k) (t.stride i) depth).filter (·.role == .arrayElement) =
          ks.map fun k => t.elementRow n (UInt64.ofNat k) (f k) (t.stride i) depth := by
      intro f ks depth
      simp [elementRow]
    rw [hall]
    split_ifs <;> simp [truncatedRow, addressOfElement]
  · rw [if_neg hshows, if_neg hshows, List.filter_nil]

/-! ## The listing -/

def shown (t : Tree) : List Nat := t.roots.flatMap (t.unfolded t.nestingBound)

theorem filter_listing (h : t.Formed) (ho : o.expand = false) :
    (t.listing o).filter (·.role != .footer) = t.shown.flatMap (t.ownRows o) := by
  rw [listing, shown, List.filter_flatMap, List.flatMap_assoc]
  refine List.flatMap_congr fun i hi => ?_
  obtain ⟨n, hn, hp⟩ := mem_children.1 hi
  rw [← level_root h (List.mem_of_getElem? hn) hp]
  exact filter_block h ho _ [] hn

theorem length_le_nestingBound (t : Tree) : t.nodes.length ≤ t.nestingBound :=
  calc t.nodes.length ≤ t.nodes.length + 1 := Nat.le_succ _
    _ ≤ t.nestingBound := Nat.le_mul_of_pos_right _ (Nat.succ_pos _)

/-- the nodes that no folded node hides -/
theorem mem_shown_iff (h : t.Formed) : i ∈ t.shown ↔ (∃ n, t.nodes[i]? = some n) ∧ ∀ a, ¬ t.Hides a i := by
  have hdepth := t.length_le_nestingBound
  rw [shown, List.mem_flatMap]
  constructor
  · rintro ⟨r, hr, hi⟩
    obtain ⟨hbranch, hno⟩ := (mem_unfolded_iff h).1 hi
    have hri := over_of_mem_branch h hbranch
    have hn : ∃ n, t.nodes[i]? = some n := hri.elim fun _ ⟨n, _, hn, _⟩ => ⟨n, hn⟩
    refine ⟨hn, ?_⟩
    intro a hhides
    rcases hri.total h hhides.2.2 with hra | har
    · exact hno a hra hhides
    · obtain rfl := har.eq_of_root h hr
      exact hno a har hhides
  · rintro ⟨⟨n, hn⟩, hno⟩
    obtain ⟨r, hr, hri⟩ := exists_root_over h hn
    obtain ⟨p, n', hp, hn', hpn⟩ := hri
    refine ⟨r, hr, (mem_unfolded_iff h).2 ⟨?_, fun a _ => hno a⟩⟩
    rw [branch_of_le h hp hdepth, mem_under_iff h hp]
    exact ⟨n', hn', hpn⟩

theorem pairwise_shown (h : t.Formed) : t.shown.Pairwise t.InPreorder :=
  (pairwise_flatMap_children h (pairwise_branch h _) 0).sublist
    (List.Sublist.flatMap_right _ fun i _ => t.unfolded_sublist _ i)

/-- **Every node that no folded node hides has one row, and no other node has any.** Without the rows of elements, those
in place of elements and closing rows, the rows are those of the nodes shown: a node before what lies below it, siblings
by offset and then in storage order. A row has the address and the size of its node and the number of nodes above it. The
rows of elements have the addresses of the elements and their distance as size. -/
theorem listing_rows (h : t.Formed) (ho : o.expand = false) :
    ∃ shown : List Nat, (∀ i, i ∈ shown ↔ (∃ n, t.nodes[i]? = some n) ∧ ∀ a, ¬ t.Hides a i) ∧ shown.Nodup ∧
      shown.Pairwise t.InPreorder ∧
      ((t.listing o).filter (·.role.isNode)).map some = shown.map t.rowAt ∧
      (t.listing o).filter (·.role == .arrayElement) = shown.flatMap (t.elementsAt o) := by
  have hnode : ∀ i ∈ t.shown, ∃ n, t.nodes[i]? = some n := fun i hi => ((mem_shown_iff h).1 hi).1
  -- neither kind of row is a closing one
  have hopen : ∀ keep : Listing.Role → Bool, keep .footer = false →
      (t.listing o).filter (fun r => keep r.role) = t.shown.flatMap fun i => (t.ownRows o i).filter fun r => keep r.role := by
    intro keep hkeep
    rw [← List.filter_flatMap, ← filter_listing h ho, List.filter_filter]
    refine List.filter_congr fun r _ => ?_
    by_cases hr : r.role = .footer <;> simp [hr, hkeep]
  refine ⟨t.shown, fun i => mem_shown_iff h, (pairwise_shown h).imp (·.ne h), pairwise_shown h, ?_, ?_⟩
  · rw [hopen Listing.Role.isNode rfl, List.map_flatMap, List.map_eq_flatMap]
    refine List.flatMap_congr fun i hi => ?_
    obtain ⟨n, hn⟩ := hnode i hi
    exact filter_isNode_ownRows hn
  · rw [hopen (· == .arrayElement) rfl]
    refine List.flatMap_congr fun i hi => ?_
    obtain ⟨n, hn⟩ := hnode i hi
    exact filter_arrayElement_ownRows hn

/-- two root structs, the second of them in front: one holds an array of numbers and a folded struct, the other an array of
one member -/
def foldedNodes : List Node :=
  [{ Node.rootStruct "a" "A" with id := 1, offset := 0x40 }, { Node.rootStruct "b" "B" with id := 2 },
    { Node.array 1 8 "numbers" .uint16 3 with id := 3 }, { Node.field 1 0 .struct "inner" with id := 4, collapsed := true },
    { Node.field 4 4 .uint8 "hidden" with id := 5 }, { Node.array 2 4 "one" .struct 1 with id := 6 },
    { Node.field 6 2 .uint32 "member" with id := 7 }]

def foldedTree : Tree := foldedNodes.foldl push (empty 0x1000)

/-- the folded struct is shown, and its member is not -/
theorem listing_rows_folded : ∃ shown : List Nat, 3 ∈ shown ∧ 4 ∉ shown ∧ shown.Nodup ∧
    shown.Pairwise foldedTree.InPreorder ∧
    ((foldedTree.listing ⟨2, false⟩).filter (·.role.isNode)).map some = shown.map foldedTree.rowAt ∧
    (foldedTree.listing ⟨2, false⟩).filter (·.role == .arrayElement) = shown.flatMap (foldedTree.elementsAt ⟨2, false⟩) := by
  have h : foldedTree.Formed :=
    (wellFormed_ofNodes (show ofNodes 0x1000 foldedNodes 1 = .ok foldedTree from rfl)).toFormed
  have hoptions : (⟨2, false⟩ : Listing.Options).expand = false := rfl
  obtain ⟨shown, hmem, hnodup, horder, hrows, helements⟩ := listing_rows h hoptions
  refine ⟨shown, (hmem 3).2 ⟨⟨_, rfl⟩, ?_⟩, ?_, hnodup, horder, hrows, helements⟩
  · -- no other node is folded
    rintro a ⟨⟨m, hm, hfolded⟩, hne, -⟩
    have hone : ∀ a < 7, (foldedTree.nodes[a]?).any (·.collapsed) → a = 3 := by decide
    exact hne (hone a (List.getElem?_eq_some_iff.1 hm).1 (by rw [hm]; exact hfolded))
  · intro hin
    have hover : foldedTree.Over 3 4 := ⟨_, _, rfl, rfl, (liesAbove_iff h).1 (by decide)⟩
    exact ((hmem 4).1 hin).2 3 ⟨⟨_, rfl, rfl⟩, by decide, hover⟩

end Tree

end ByteAtlas
