/-
The rows of a listing as brackets. The row of a container that is not folded opens, its closing row closes, and all rows
between them are deeper. What a listing opens in between, definitions included, makes no difference: blocks are put side by
side and inside each other, and both keep brackets in place.

- `Tree.Bracketed`: rows on a level, with deeper ones inside and brackets in place. This is the grammar of listings.
- `bracketed_block`: the block of a node is of this form, whatever is open and however deep it may go.
- `Bracketed.placed`: what the form says of each row and of the rows after it.
- `Bracketed.follow_eq`: every closing row closes the container that was opened last.
- `listing_bracketed`: both, for the listing of a tree.
-/
import ByteAtlas.Proofs.Listing.Openings

namespace ByteAtlas

namespace Listing

/-- whether the row is that of a container -/
def Row.Heads (r : Row) : Prop := r.role = .structHeader ∨ r.role = .arrayHeader

instance (r : Row) : Decidable r.Heads := inferInstanceAs (Decidable (_ ∨ _))

/-- a closing row of the container of another row: for the same node and level, of no size, and where the container ends -/
structure Row.Closes (x r : Row) : Prop where
  role : x.role = .footer
  node : x.node = r.node
  depth : x.depth = r.depth
  size : x.size = 0
  address : x.address = r.address + r.size

instance (x r : Row) : Decidable (x.Closes r) :=
  decidable_of_iff (x.role = .footer ∧ x.node = r.node ∧ x.depth = r.depth ∧ x.size = 0 ∧ x.address = r.address + r.size)
    ⟨fun ⟨hr, hn, hd, hs, ha⟩ => ⟨hr, hn, hd, hs, ha⟩, fun h => ⟨h.role, h.node, h.depth, h.size, h.address⟩⟩

/-- rows that do not go on below a level: the first of them is not deeper, and it closes nothing on this level -/
def Leaves (depth : Nat) (rows : List Row) : Prop :=
  ∀ x ∈ rows.head?, x.depth ≤ depth ∧ (x.role = .footer → x.depth < depth)

/-- a property of rows, each with the rows after it; behind all of them come the rows of `rest` -/
def Placed (P : Row → List Row → Prop) (rows rest : List Row) : Prop :=
  ∀ before r after, rows = before ++ r :: after → P r (after ++ rest)

variable {P : Row → List Row → Prop} {r : Row} {rows rows' rest : List Row} {depth : Nat}

theorem leaves_nil (depth : Nat) : Leaves depth [] := fun _ hx => absurd hx (Option.not_mem_none _)

theorem Leaves.deeper (hrest : Leaves depth rest) : Leaves (depth + 1) rest := fun x hx =>
  ⟨Nat.le_succ_of_le (hrest x hx).1, fun _ => Nat.lt_succ_of_le (hrest x hx).1⟩

theorem placed_nil : Placed P [] rest := fun before r after e => by simp at e

theorem placed_cons (hr : P r (rows ++ rest)) (hrows : Placed P rows rest) : Placed P (r :: rows) rest := by
  intro before x after e
  cases before with
  | nil =>
    obtain ⟨rfl, rfl⟩ := List.cons.inj e
    exact hr
  | cons y before => exact hrows before x after (List.cons.inj e).2

theorem placed_append (hrows : Placed P rows (rows' ++ rest)) (hrows' : Placed P rows' rest) :
    Placed P (rows ++ rows') rest := by
  induction rows with
  | nil => exact hrows'
  | cons r rows ih =>
    have hr : P r (rows ++ (rows' ++ rest)) := hrows [] r rows rfl
    refine placed_cons ?_ (ih fun before x after e => hrows (r :: before) x after (by rw [e, List.cons_append]))
    rwa [← List.append_assoc] at hr

end Listing

namespace Tree

open Listing

/-- the rows between those of an array without children and its closing row: one for each element that is shown, in order
and with deeper rows inside, and then the one in place of elements that are not shown, if there are any -/
def ListsElements (t : Tree) (o : Options) (i : Nat) (n : Node) (address : UInt64) (depth : Nat) (inside : List Row) :
    Prop :=
  ∃ shown, inside = shown ++ restRow o n (t.stride i) address depth ∧
    shown.filter (·.depth = depth) = (List.range (min n.arrayLen o.maxElements).toNat).map fun k =>
      t.elementRow n (UInt64.ofNat k) (address + UInt64.ofNat k * t.stride i) (t.stride i) depth

/-- rows on a level, each with deeper ones inside, and with brackets in place -/
inductive Bracketed (t : Tree) (o : Options) : Nat → List Row → Prop
  | nil {depth : Nat} : Bracketed t o depth []
  | plain {depth : Nat} {r : Row} {inside rest : List Row} : ¬ r.Heads → r.role ≠ .footer → r.depth = depth →
      Bracketed t o (depth + 1) inside → Bracketed t o depth rest → Bracketed t o depth (r :: (inside ++ rest))
  | folded {depth i : Nat} {n : Node} {address : UInt64} {rest : List Row} : t.nodes[i]? = some n → n.kind.canHold →
      n.collapsed → Bracketed t o depth rest →
      Bracketed t o depth (t.row n n.kind.role address (t.size i) depth :: rest)
  | unfolded {depth i : Nat} {n : Node} {address : UInt64} {inside rest : List Row} : t.nodes[i]? = some n →
      n.kind.canHold → ¬ n.collapsed → Bracketed t o (depth + 1) inside →
      (n.kind = .array → t.children n.id = [] → t.ListsElements o i n address (depth + 1) inside) →
      Bracketed t o depth rest →
      Bracketed t o depth (t.row n n.kind.role address (t.size i) depth ::
        (inside ++ t.row n .footer (address + t.size i) 0 depth :: rest))

variable {t : Tree} {o : Options} {i depth : Nat} {n : Node} {address : UInt64} {r : Row} {rows rows' : List Row}

/-! ## Side by side and inside -/

theorem Bracketed.append (hrows : t.Bracketed o depth rows) (hrows' : t.Bracketed o depth rows') :
    t.Bracketed o depth (rows ++ rows') := by
  induction hrows with
  | nil => exact hrows'
  | plain hhead hfoot hdepth hinside _ _ ih =>
    rw [List.cons_append, List.append_assoc]
    exact .plain hhead hfoot hdepth hinside (ih hrows')
  | folded hn hk hfold _ ih => exact .folded hn hk hfold (ih hrows')
  | unfolded hn hk hopen hinside helements _ _ ih =>
    rw [List.cons_append, List.append_assoc, List.cons_append]
    exact .unfolded hn hk hopen hinside helements (ih hrows')

theorem Bracketed.flatMap {α : Type*} {xs : List α} {f : α → List Row} (hf : ∀ a ∈ xs, t.Bracketed o depth (f a)) :
    t.Bracketed o depth (xs.flatMap f) := flatMap_induction .nil (fun _ _ => .append) hf

/-- a row that heads nothing, with deeper rows after it -/
theorem Bracketed.beneath (hhead : ¬ r.Heads) (hfoot : r.role ≠ .footer) (hdepth : r.depth = depth)
    (hrows : t.Bracketed o (depth + 1) rows) : t.Bracketed o depth (r :: rows) := by
  have hplain := Bracketed.plain hhead hfoot hdepth hrows .nil
  rwa [List.append_nil] at hplain

theorem Bracketed.deep (hrows : t.Bracketed o depth rows) : ∀ x ∈ rows, depth ≤ x.depth := by
  induction hrows with
  | nil => exact fun x hx => absurd hx List.not_mem_nil
  | plain _ _ hdepth _ _ ih ih' =>
    intro x hx
    rcases List.mem_cons.1 hx with rfl | hx
    · exact hdepth.ge
    · rcases List.mem_append.1 hx with hx | hx
      exacts [Nat.le_of_succ_le (ih x hx), ih' x hx]
  | folded _ _ _ _ ih =>
    intro x hx
    rcases List.mem_cons.1 hx with rfl | hx
    exacts [Nat.le_refl _, ih x hx]
  | unfolded _ _ _ _ _ _ ih ih' =>
    intro x hx
    rcases List.mem_cons.1 hx with rfl | hx
    · exact Nat.le_refl _
    · rcases List.mem_append.1 hx with hx | hx
      · exact Nat.le_of_succ_le (ih x hx)
      · rcases List.mem_cons.1 hx with rfl | hx
        exacts [Nat.le_refl _, ih' x hx]

/-- the row of a struct or an array is that of a container -/
theorem heads_row (hk : n.kind.canHold) (address size : UInt64) (depth : Nat) :
    (t.row n n.kind.role address size depth).Heads := by
  rcases Kind.canHold_iff.1 hk with hk | hk
  · exact .inl (by rw [hk]; rfl)
  · exact .inr (by rw [hk]; rfl)

/-- the row of a node closes nothing -/
theorem row_not_footer (n : Node) (address size : UInt64) (depth : Nat) :
    (t.row n n.kind.role address size depth).role ≠ .footer := by
  show n.kind.role ≠ .footer
  cases n.kind <;> decide

/-- the first of some rows is on their level and closes nothing -/
theorem Bracketed.head (hrows : t.Bracketed o depth rows) : ∀ x ∈ rows.head?, x.depth = depth ∧ x.role ≠ .footer := by
  cases hrows with
  | nil => simp
  | plain _ hfoot hdepth => simpa using ⟨hdepth, hfoot⟩
  | folded | unfolded =>
    rintro x ⟨⟩
    exact ⟨rfl, row_not_footer _ _ _ _⟩

/-! ## The rows of a node -/

/-- what is shown of an array without children, if what is shown inside the elements is in place -/
theorem bracketed_elementRows {inside : UInt64 → List Row} (hinside : ∀ element, t.Bracketed o (depth + 1) (inside element))
    (i : Nat) (n : Node) (address : UInt64) : t.Bracketed o depth (t.elementRows o n (t.stride i) address depth inside) ∧
      t.ListsElements o i n address depth (t.elementRows o n (t.stride i) address depth inside) := by
  have helement : ∀ k, t.Bracketed o depth (t.elementRow n (UInt64.ofNat k) (address + UInt64.ofNat k * t.stride i)
      (t.stride i) depth :: inside (address + UInt64.ofNat k * t.stride i)) := fun k =>
    .beneath (by simp [Row.Heads, elementRow]) (by simp [elementRow]) rfl (hinside _)
  have hshown : t.Bracketed o depth ((List.range (min n.arrayLen o.maxElements).toNat).flatMap fun k =>
      t.elementRow n (UInt64.ofNat k) (address + UInt64.ofNat k * t.stride i) (t.stride i) depth ::
        inside (address + UInt64.ofNat k * t.stride i)) := .flatMap fun k _ => helement k
  refine ⟨hshown.append ?_, _, rfl, ?_⟩
  · split_ifs
    · exact .beneath (by simp [Row.Heads, truncatedRow]) (by simp [truncatedRow]) rfl .nil
    · exact .nil
  · rw [List.filter_flatMap, List.map_eq_flatMap]
    refine List.flatMap_congr fun k _ => ?_
    have hnone : (inside (address + UInt64.ofNat k * t.stride i)).filter (·.depth = depth) = [] := by
      rw [List.filter_eq_nil_iff]
      intro x hx
      have hdeep := (hinside _).deep x hx
      simp only [decide_eq_true_eq]
      omega
    rw [List.filter_cons_of_pos (by simp [elementRow]), hnone]

/-- what is shown inside a node, if the blocks of all nodes are in place -/
theorem bracketed_insideRows {fuel : Nat}
    (hblocks : ∀ opened i address depth, t.Bracketed o depth (t.block o fuel opened i address depth)) (opened : List NodeId)
    (i : Nat) (n : Node) (address : UInt64) (depth : Nat) :
    t.Bracketed o depth (t.insideRows o fuel opened i n address depth) ∧ (n.kind = .array → t.children n.id = [] →
      t.ListsElements o i n address depth (t.insideRows o fuel opened i n address depth)) := by
  have hdefinition : ∀ d address depth, t.Bracketed o depth (t.definitionRows o fuel opened d address depth) := by
    rintro (_ | d) address depth
    · exact .nil
    · exact .flatMap fun c _ => hblocks _ c _ depth
  unfold insideRows
  by_cases hempty : (t.children n.id).isEmpty
  · rw [if_pos hempty]
    by_cases harray : n.kind = .array
    · rw [if_pos harray]
      have helements := bracketed_elementRows (hdefinition (t.definitionIn o opened n) · (depth + 1)) i n address
      exact ⟨helements.1, fun _ _ => helements.2⟩
    · rw [if_neg harray]
      exact ⟨hdefinition _ _ _, fun h => absurd h harray⟩
  · rw [if_neg hempty]
    exact ⟨.flatMap fun c _ => hblocks _ c _ depth, fun _ hnil => absurd (List.isEmpty_iff.2 hnil) hempty⟩

/-- **The block of a node is on one level with its brackets in place.** -/
theorem bracketed_block (fuel : Nat) (opened : List NodeId) (i : Nat) (address : UInt64) (depth : Nat) :
    t.Bracketed o depth (t.block o fuel opened i address depth) := by
  induction fuel generalizing opened i address depth with
  | zero => exact .nil
  | succ fuel ih =>
    cases hn : t.nodes[i]? with
    | none =>
      rw [block, hn]
      exact .nil
    | some n =>
      by_cases hk : n.kind.canHold
      · rw [block_of_canHold hn hk, bracket]
        by_cases hfold : n.collapsed
        · rw [if_pos hfold]
          exact .folded hn hk hfold .nil
        · rw [if_neg hfold]
          obtain ⟨hinside, helements⟩ := bracketed_insideRows ih opened i n address (depth + 1)
          exact .unfolded hn hk hfold hinside helements .nil
      · rw [block_of_not_canHold hn hk]
        refine .beneath ?_ (row_not_footer _ _ _ _) rfl .nil
        cases hkind : n.kind <;> simp_all [Row.Heads, row, Kind.role, Kind.canHold]

/-! ## Each row and the rows after it -/

/-- A row in its place before others. The next one is at most one level deeper. The row of a folded container has nothing
inside and no closing row; that of an unfolded one has deeper rows after it and then its closing row, but no other. -/
structure WellPlaced (t : Tree) (o : Options) (r : Row) (after : List Row) : Prop where
  step : ∀ x ∈ after.head?, x.depth ≤ r.depth + 1
  header : r.Heads → ∃ i n, t.nodes[i]? = some n ∧ r = t.row n n.kind.role r.address (t.size i) r.depth ∧
    (n.collapsed → Leaves r.depth after) ∧
    (¬ n.collapsed → ∃ inside footer rest, after = inside ++ footer :: rest ∧ (∀ x ∈ inside, r.depth < x.depth) ∧
      footer.Closes r ∧ Leaves r.depth rest ∧
      (n.kind = .array → t.children n.id = [] → t.ListsElements o i n r.address (r.depth + 1) inside))

/-- rows on a level do not go on below it, nor does what comes after them -/
theorem Bracketed.leaves {rest : List Row} (hrows : t.Bracketed o depth rows) (hrest : Leaves depth rest) :
    Leaves depth (rows ++ rest) := by
  intro x hx
  cases hhead : rows.head? with
  | none =>
    rw [List.head?_eq_none_iff.1 hhead] at hx
    exact hrest x hx
  | some y =>
    rw [List.head?_append, hhead, Option.some_or] at hx
    obtain rfl := Option.some.inj hx
    obtain ⟨hdepth, hfoot⟩ := hrows.head y hhead
    exact ⟨hdepth.le, fun hrole => absurd hrole hfoot⟩

/-- **In rows with their brackets in place, each row is in its place.** -/
theorem Bracketed.placed {rest : List Row} (hrows : t.Bracketed o depth rows) (hrest : Leaves depth rest) :
    Placed (t.WellPlaced o) rows rest := by
  induction hrows generalizing rest with
  | nil => exact placed_nil
  | @plain depth r inside rows hhead _ hdepth hinside hrows ih ih' =>
    have hafter : Leaves (depth + 1) (rows ++ rest) := (hrows.leaves hrest).deeper
    refine placed_cons ⟨fun x hx => ?_, fun h => absurd h hhead⟩ (placed_append (ih hafter) (ih' hrest))
    rw [List.append_assoc] at hx
    exact hdepth ▸ (hinside.leaves hafter x hx).1
  | @folded depth i n address rows hn hk hfold hrows ih =>
    have hafter : Leaves depth (rows ++ rest) := hrows.leaves hrest
    refine placed_cons ⟨fun x hx => Nat.le_succ_of_le (hafter x hx).1, fun _ => ?_⟩ (ih hrest)
    exact ⟨i, n, hn, rfl, fun _ => hafter, fun hopen => absurd hfold hopen⟩
  | @unfolded depth i n address inside rows hn hk hopen hinside helements hrows ih ih' =>
    have hafter : Leaves depth (rows ++ rest) := hrows.leaves hrest
    have hfooter : ∀ xs, Leaves (depth + 1) (t.row n .footer (address + t.size i) 0 depth :: xs) := by
      intro xs x hx
      obtain rfl := Option.some.inj hx
      exact ⟨Nat.le_succ _, fun _ => Nat.lt_succ_self _⟩
    refine placed_cons ⟨fun x hx => ?_, fun _ => ?_⟩ (placed_append (ih (hfooter _)) (placed_cons ?_ (ih' hrest)))
    · rw [List.append_assoc] at hx
      exact (hinside.leaves (hfooter _) x hx).1
    · refine ⟨i, n, hn, rfl, fun hfold => absurd hfold hopen, fun _ => ⟨inside,
        t.row n .footer (address + t.size i) 0 depth, rows ++ rest, ?_, ?_, ?_, hafter, helements⟩⟩
      · rw [List.append_assoc, List.cons_append]
      · exact fun x hx => Nat.lt_of_succ_le (hinside.deep x hx)
      · exact ⟨rfl, rfl, rfl, rfl, rfl⟩
    · refine ⟨fun x hx => Nat.le_succ_of_le (hafter x hx).1, fun hhead => ?_⟩
      rcases hhead with hhead | hhead <;> cases hhead

/-! ## What is open -/

/-- the containers that are open after a row, the last one first: a closing row has to close the last one -/
def follow (t : Tree) (stack : List Row) (r : Row) : Option (List Row) :=
  if r.role = .footer then stack.head?.bind fun last => if r.Closes last then some stack.tail else none
  else if r.Heads ∧ (t.find? r.node).any fun n => !n.collapsed then some (r :: stack) else some stack

variable {stack : List Row}

theorem follow_plain (hfoot : r.role ≠ .footer) (hopen : ¬ (r.Heads ∧ (t.find? r.node).any fun n => !n.collapsed)) :
    t.follow stack r = some stack := by
  rw [follow, if_neg hfoot, if_neg hopen]

theorem follow_opens (hfoot : r.role ≠ .footer) (hhead : r.Heads) (hopen : (t.find? r.node).any fun n => !n.collapsed) :
    t.follow stack r = some (r :: stack) := by
  rw [follow, if_neg hfoot, if_pos ⟨hhead, hopen⟩]

theorem follow_closes {x : Row} (hx : x.Closes r) : t.follow (r :: stack) x = some stack := by
  rw [follow, if_pos hx.role]
  exact if_pos hx

/-- **Rows with their brackets in place close what they open, and nothing else.** -/
theorem Bracketed.follow_eq (h : t.Indexed) (hrows : t.Bracketed o depth rows) (stack : List Row) :
    rows.foldlM t.follow stack = some stack := by
  have hfind : ∀ {i n}, t.nodes[i]? = some n → t.find? n.id = some n := fun hn =>
    (find?_eq_some_iff h).2 ⟨List.mem_of_getElem? hn, rfl⟩
  induction hrows generalizing stack with
  | nil => rfl
  | plain hhead hfoot _ _ _ ih ih' =>
    rw [List.foldlM_cons, follow_plain hfoot fun hopen => hhead hopen.1, Option.bind_eq_bind, Option.bind_some,
      List.foldlM_append, ih, Option.bind_eq_bind, Option.bind_some, ih']
  | @folded depth i n address rows hn _ hfold _ ih =>
    have hclosed : ¬ (t.find? n.id).any fun n => !n.collapsed := by simp [hfind hn, hfold]
    rw [List.foldlM_cons, follow_plain (row_not_footer _ _ _ _) fun hopen => hclosed hopen.2, Option.bind_eq_bind,
      Option.bind_some, ih]
  | @unfolded depth i n address inside rows hn hk hfold _ _ _ ih ih' =>
    have hopen : (t.find? n.id).any fun n => !n.collapsed := by simp [hfind hn, hfold]
    have hcloses : (t.row n .footer (address + t.size i) 0 depth).Closes (t.row n n.kind.role address (t.size i) depth) :=
      ⟨rfl, rfl, rfl, rfl, rfl⟩
    rw [List.foldlM_cons, follow_opens (row_not_footer _ _ _ _) (heads_row hk _ _ _) hopen, Option.bind_eq_bind,
      Option.bind_some, List.foldlM_append, ih, Option.bind_eq_bind, Option.bind_some, List.foldlM_cons,
      follow_closes hcloses, Option.bind_eq_bind, Option.bind_some, ih']

/-- **Listings are well bracketed.** A listing starts on the outermost level. Each of its rows is in its place before those
that come after it, and every closing row closes the container that was opened last, until none is open. -/
theorem listing_bracketed (h : t.WellFormed) (o : Options) :
    (∀ r ∈ (t.listing o).head?, r.depth = 0) ∧
    (∀ before r after, t.listing o = before ++ r :: after → t.WellPlaced o r after) ∧
    (t.listing o).foldlM t.follow [] = some [] := by
  have hrows : t.Bracketed o 0 (t.listing o) := .flatMap fun i _ => bracketed_block _ _ i _ 0
  refine ⟨fun r hr => (hrows.head r hr).1, fun before r after e => ?_, hrows.follow_eq h.indexed []⟩
  have hplaced := hrows.placed (leaves_nil 0) before r after e
  rwa [List.append_nil] at hplaced

/-- two structs inside each other: the first has the second inside, the second a row of three of the first and a folded
struct -/
def crossNodes : List Node :=
  [{ Node.rootStruct "a" "A" with id := 1 }, { Node.rootStruct "b" "B" with id := 2, offset := 0x20 },
    { Node.field 1 0 .struct "inner" with id := 3, ref := 2 }, { Node.array 2 0 "row" .struct 3 with id := 4, ref := 1 },
    { Node.field 2 0x18 .struct "note" with id := 5, collapsed := true }, { Node.field 5 0 .uint8 "hidden" with id := 6 }]

def crossTree : Tree := crossNodes.foldl push (empty 0)

/-- of the row of three in the first struct two elements are listed, and then that one is left; its closing row follows -/
theorem listing_bracketed_cross : ∃ row inside footer rest,
    (crossTree.listing ⟨2, true⟩).drop 2 = row :: (inside ++ footer :: rest) ∧ (row.name, row.depth) = ("row", 2) ∧
    (∀ x ∈ inside, 2 < x.depth) ∧ footer.Closes row ∧ Leaves 2 rest ∧
    (inside.filter (·.depth = 3)).map (·.name) = ["[0]", "[1]", "... 1 more"] ∧
    (crossTree.listing ⟨2, true⟩).foldlM crossTree.follow [] = some [] := by
  have h : crossTree.WellFormed := wellFormed_ofNodes (show ofNodes 0 crossNodes 1 = .ok crossTree from rfl)
  obtain ⟨-, hplaced, hfollow⟩ := listing_bracketed h ⟨2, true⟩
  have hget : (crossTree.listing ⟨2, true⟩)[2]? =
      some (crossTree.row crossNodes[3] .arrayHeader 0 (crossTree.size 3) 2) := by decide
  obtain ⟨hlong, hget⟩ := List.getElem?_eq_some_iff.1 hget
  have hdrop := List.drop_eq_getElem_cons hlong
  rw [hget] at hdrop
  have hsplit := (List.take_append_drop 2 (crossTree.listing ⟨2, true⟩)).symm
  rw [hdrop] at hsplit
  obtain ⟨i, n, hn, hrow, -, hopen⟩ := (hplaced _ _ _ hsplit).header (by decide)
  -- the row tells which node it is the row of
  have harray : crossTree.nodes[3]? = some crossNodes[3] := rfl
  obtain rfl : i = 3 := h.indexed.eq_of_id_eq hn harray (congrArg Row.node hrow).symm
  obtain rfl := Option.some.inj (harray.symm.trans hn)
  obtain ⟨inside, footer, rest, hafter, hdeep, hcloses, hrest, helements⟩ := hopen (by decide)
  obtain ⟨shown, rfl, hshown⟩ := helements rfl (by decide)
  refine ⟨_, _, footer, rest, hdrop.trans (congrArg _ hafter), rfl, hdeep, hcloses, hrest, ?_, hfollow⟩
  have hshown' : shown.filter (·.depth = 3) = _ := hshown
  rw [List.filter_append, hshown', List.map_append, List.map_map]
  rfl

end Tree

end ByteAtlas
