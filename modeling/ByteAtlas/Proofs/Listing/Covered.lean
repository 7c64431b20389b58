/-
Rows beneath a struct and the size of the struct. Sizes and listings follow references each in their own way: the size of a
struct without members is that of what it refers to, which may again be without members and refer to something else; a listing
opens what a struct refers to if that is a struct, and lists the members of this one, but opens no other in its place.

- `placed_block`: in a listing without rings, what follows the row of an unfolded container is what is inside it.
- `isGreatest_stop_memberRows`: where the members of a struct end in memory the rows of its members end.
- `listing_covered_iff`: so the rows one level beneath a struct reach as far as its size says if and only if the struct has
  members, or refers to a struct that has.
-/
import ByteAtlas.Proofs.Listing.Brackets
import ByteAtlas.Proofs.Listing.Embedded
import ByteAtlas.Proofs.Tree.Corresponding
import ByteAtlas.Proofs.Tree.PlainSize

namespace ByteAtlas

theorem Kind.eq_struct_of_role {k : Kind} (hk : k.role = .structHeader) : k = .struct := by
  revert hk
  cases k <;> decide

namespace Listing

def Row.stop (r : Row) : Nat := r.address.toNat + r.size.toNat

end Listing

namespace Tree

open Listing Relation

variable {t : Tree} {o : Options} {i j c depth : Nat} {n m d : Node} {address : UInt64} {r x : Row} {rest : List Row}

/-! ## The inside of each container -/

/-- a row before others: that of an unfolded container has what is inside the container after it, and then a closing row -/
def Fills (t : Tree) (o : Options) (r : Row) (after : List Row) : Prop :=
  ∀ n ∈ t.nodes, n.id = r.node → r.Heads → n.collapsed = false → ∃ i footer rest, t.nodes[i]? = some n ∧
    r.role = n.kind.role ∧ r.size = t.size i ∧ footer.Closes r ∧
    after = t.insideRows o t.nestingBound [] i n r.address (r.depth + 1) ++ footer :: rest

theorem fills_of_not_heads (hr : ¬ r.Heads) (after : List Row) : t.Fills o r after :=
  fun _ _ _ hheads => absurd hheads hr

section Placed

variable (h : t.Formed) (hacyclic : t.Acyclic) (ho : o.expand)

include h hacyclic ho

/-- **In a block, what follows the row of an unfolded container is what is inside it.** -/
theorem placed_block (hn : t.nodes[i]? = some n) (address : UInt64) (depth : Nat) :
    ∀ rest, Placed (t.Fills o) (t.block o t.nestingBound [] i address depth) rest := by
  refine block_induction (motive := fun _ rows => ∀ rest, Placed (t.Fills o) rows rest) h hacyclic ho
    (fun _ _ => placed_nil) (fun _ _ _ hrows hrows' rest => placed_append (hrows _) (hrows' rest)) ?element ?truncated ?leaf
    ?container hn address depth
  case element =>
    exact fun n _ _ k address stride depth hrows rest =>
      placed_cons (fills_of_not_heads (by simp [Row.Heads, elementRow]) _) (hrows rest)
  case truncated =>
    exact fun n _ address size depth rest =>
      placed_cons (fills_of_not_heads (by simp [Row.Heads, truncatedRow]) _) placed_nil
  case leaf =>
    refine fun i n _ hk address depth rest => placed_cons (fills_of_not_heads ?_ _) placed_nil
    cases hkind : n.kind <;> simp_all [Row.Heads, row, Kind.role, Kind.canHold]
  case container =>
    intro i n hn hk address depth hinside rest
    have hnode : ∀ m ∈ t.nodes, m.id = n.id → m = n := fun m hm hid =>
      h.forest.eq_of_id_eq hm (List.mem_of_getElem? hn) hid
    unfold bracket
    by_cases hfold : n.collapsed
    · rw [if_pos hfold]
      refine placed_cons (fun m hm hid _ hopen => ?_) placed_nil
      obtain rfl := hnode m hm hid
      simp [hfold] at hopen
    · rw [if_neg hfold]
      refine placed_cons (fun m hm hid _ _ => ?_) (placed_append (hinside _) (placed_cons ?_ placed_nil))
      · obtain rfl := hnode m hm hid
        exact ⟨i, t.row m .footer (address + t.size i) 0 depth, rest, hn, rfl, rfl, ⟨rfl, rfl, rfl, rfl, rfl⟩, by simp [row]⟩
      · exact fills_of_not_heads (by simp [Row.Heads, row]) _

/-- what follows the row of an unfolded container in a listing is what is inside it -/
theorem listing_fills {before after : List Row} (he : t.listing o = before ++ r :: after) : t.Fills o r after := by
  have hplaced : ∀ rest, Placed (t.Fills o) (t.listing o) rest := by
    refine flatMap_induction (motive := fun rows => ∀ rest, Placed (t.Fills o) rows rest) (fun _ => placed_nil)
      (fun _ _ hrows hrows' rest => placed_append (hrows _) (hrows' rest)) fun i hi => ?_
    obtain ⟨n, hn, -⟩ := mem_children.1 hi
    exact placed_block h hacyclic ho hn _ 0
  have hfills := hplaced [] before r after he
  rwa [List.append_nil] at hfills

end Placed

/-! ## Where rows end -/

/-- the rows on the level of a block end where the node ends: its own row and the closing one -/
theorem stop_of_mem_block (hn : t.nodes[c]? = some n) (hfits : address.toNat + (t.size c).toNat < UInt64.size)
    (hx : x ∈ t.block o t.nestingBound [] c address depth) (hdepth : x.depth = depth) :
    x.stop = address.toNat + (t.size c).toNat := by
  obtain ⟨fuel, hfuel⟩ := t.exists_nestingBound
  rw [hfuel] at hx
  by_cases hk : n.kind.canHold
  · rw [block_of_canHold hn hk, bracket] at hx
    rcases List.mem_cons.1 hx with rfl | hx
    · rfl
    · split_ifs at hx
      · exact absurd hx List.not_mem_nil
      · rcases List.mem_append.1 hx with hx | hx
        · have hdeep := (bracketed_insideRows (t.bracketed_block (o := o) fuel) [] c n address (depth + 1)).1.deep x hx
          omega
        · obtain rfl := List.mem_singleton.1 hx
          show (address + t.size c).toNat = _
          rw [UInt64.toNat_add, Nat.mod_eq_of_lt hfits]
  · rw [block_of_not_canHold hn hk, List.mem_singleton] at hx
    subst hx
    rfl

/-- and there is one -/
theorem exists_mem_block (hn : t.nodes[c]? = some n) (address : UInt64) (depth : Nat) :
    ∃ x ∈ t.block o t.nestingBound [] c address depth, x.depth = depth ∧ x.stop = address.toNat + (t.size c).toNat := by
  obtain ⟨fuel, hfuel⟩ := t.exists_nestingBound
  refine ⟨t.row n n.kind.role address (t.size c) depth, ?_, rfl, rfl⟩
  by_cases hk : n.kind.canHold
  · rw [hfuel, block_of_canHold hn hk]
    exact List.mem_cons_self
  · rw [hfuel, block_of_not_canHold hn hk]
    exact List.mem_cons_self

theorem offsetAt_of_getElem? (hn : t.nodes[c]? = some n) : t.offsetAt c = n.offset := by
  rw [offsetAt, hn, Option.map_some, Option.getD_some]

theorem isGreatest_largest {ws : List UInt64} (hne : ws ≠ []) :
    IsGreatest { e | ∃ w ∈ ws, w.toNat = e } (largest ws).toNat := by
  have hle : ∀ w ∈ ws, w.toNat ≤ (largest ws).toNat := toNat_largest_le_iff.1 (le_refl _)
  refine ⟨?_, fun e ⟨w, hw, he⟩ => he ▸ hle w hw⟩
  by_contra hno
  -- words that all lie below the largest one have a smaller one above them
  have hbelow : (largest ws).toNat ≤ (largest ws).toNat - 1 := toNat_largest_le_iff.2 fun w hw => by
    have hlt := lt_of_le_of_ne (hle w hw) fun e => hno ⟨w, hw, e⟩
    omega
  obtain ⟨w, hw⟩ := List.exists_mem_of_ne_nil ws hne
  have hzero := hle w hw
  exact hno ⟨w, hw, by omega⟩

/-- the members of an id, counted from its start, and where each of them ends -/
theorem isGreatest_extentOfChildren {id : NodeId} (hm : m ∈ t.nodes) (hp : m.parent = id)
    (hfits : ∀ i n, t.nodes[i]? = some n → n.offset.toNat + (t.size i).toNat < UInt64.size) :
    IsGreatest { e | ∃ c n, t.nodes[c]? = some n ∧ n.parent = id ∧ n.offset.toNat + (t.size c).toNat = e }
      (t.extentOfChildren id).toNat := by
  have hsum : ∀ c n, t.nodes[c]? = some n →
      (Word.satAdd (t.offsetAt c) (t.size c)).toNat = n.offset.toNat + (t.size c).toNat := by
    intro c n hn
    have hlt := hfits c n hn
    rw [Word.toNat_satAdd, offsetAt_of_getElem? hn, Word.top]
    omega
  have hne : t.children id ≠ [] := fun e => children_isEmpty_iff.1 (List.isEmpty_iff.2 e) m hm hp
  obtain ⟨⟨w, hw, hlargest⟩, hmax⟩ := isGreatest_largest (mt List.map_eq_nil_iff.1 hne)
  obtain ⟨c, hc, rfl⟩ := List.mem_map.1 hw
  obtain ⟨n, hn, hnp⟩ := mem_children.1 hc
  refine ⟨⟨c, n, hn, hnp, (hsum c n hn).symm.trans hlargest⟩, ?_⟩
  rintro e ⟨c, n, hn, hnp, rfl⟩
  rw [← hsum c n hn]
  exact hmax ⟨_, List.mem_map_of_mem (mem_children.2 ⟨n, hn, hnp⟩), rfl⟩

/-- **Where the members of an id end, the rows of its members end**, if none of them goes past the end of memory. -/
theorem isGreatest_stop_memberRows {id : NodeId} (hm : m ∈ t.nodes) (hp : m.parent = id)
    (hfits : ∀ i n, t.nodes[i]? = some n → n.offset.toNat + (t.size i).toNat < UInt64.size)
    (hend : address.toNat + (t.extentOfChildren id).toNat < UInt64.size) :
    IsGreatest { e | ∃ x ∈ t.memberRows o id address depth, x.depth = depth ∧ x.stop = e }
      (address.toNat + (t.extentOfChildren id).toNat) := by
  obtain ⟨⟨c, n, hn, hnp, hreach⟩, hmax⟩ := isGreatest_extentOfChildren hm hp hfits
  have hplace : ∀ c n, t.nodes[c]? = some n → n.parent = id →
      (address + t.offsetAt c).toNat = address.toNat + n.offset.toNat := by
    intro c n hn hp
    have hle := hmax ⟨c, n, hn, hp, rfl⟩
    rw [offsetAt_of_getElem? hn, UInt64.toNat_add]
    exact Nat.mod_eq_of_lt (lt_of_le_of_lt (by omega) hend)
  refine ⟨?_, ?_⟩
  · obtain ⟨x, hx, hdepth, hstop⟩ := exists_mem_block (o := o) hn (address + t.offsetAt c) depth
    refine ⟨x, List.mem_flatMap.2 ⟨c, mem_children.2 ⟨n, hn, hnp⟩, hx⟩, hdepth, ?_⟩
    rw [hstop, hplace c n hn hnp]
    omega
  · rintro e ⟨x, hx, hdepth, rfl⟩
    obtain ⟨c, hc, hx⟩ := List.mem_flatMap.1 hx
    obtain ⟨n, hn, hnp⟩ := mem_children.1 hc
    have hle := hmax ⟨c, n, hn, hnp, rfl⟩
    have hat := hplace c n hn hnp
    rw [stop_of_mem_block hn (by omega) hx hdepth, hat]
    omega

/-! ## Sizes of structs -/

theorem size_of_member (h : t.WellFormed) (hn : t.nodes[i]? = some n) (hk : n.kind = .struct) (hcalm : t.Calm n.id)
    (hm : m ∈ t.nodes) (hp : m.parent = n.id) : t.size i = t.extentOfChildren n.id := by
  rw [(size_eq_plainSize h hn hcalm).1, plainSize, hk]
  cases hc : t.children n.id with
  | nil => exact absurd hp (children_isEmpty_iff.1 (List.isEmpty_iff.2 hc) m hm)
  | cons c cs => simp only [extentOfChildren, hc]

theorem size_of_filledBy (h : t.WellFormed) (hn : t.nodes[i]? = some n) (hk : n.kind = .struct) (hcalm : t.Calm n.id)
    (hfill : t.FilledBy n d) (hother : d.id ≠ n.id) (hd : t.nodes[j]? = some d) : t.size i = t.size j := by
  have hempty : t.children n.id = [] := List.isEmpty_iff.1 (children_isEmpty_iff.2 hfill.empty)
  have hnonzero : n.ref ≠ 0 := hfill.ref ▸ h.forest.nonzero d hfill.mem
  have htarget : t.target n = some j := by
    rw [target, if_neg (not_or.2 ⟨hnonzero, fun e => hother (hfill.ref.symm.trans e)⟩), hfill.ref,
      position?_of_getElem? h.indexed hd]
  rw [(size_eq_plainSize h hn hcalm).1, plainSize, hk]
  simp only [hempty, htarget, Option.map_some, Option.getD_some]

/-! ## Structs and what they refer to -/

section Structs

variable (h : t.WellFormed) (hacyclic : t.Acyclic) (ho : o.expand)

include h hacyclic ho

/-- beneath a struct are its members or those of the struct that it refers to, and its size is how far these reach -/
theorem insideRows_of_member (hn : t.nodes[i]? = some n) (hk : n.kind = .struct) (hcalm : t.Calm n.id) {k : Node}
    (hshown : k = n ∨ t.FilledBy n k) (hm : m ∈ t.nodes) (hp : m.parent = k.id) (address : UInt64) (depth : Nat) :
    t.insideRows o t.nestingBound [] i n address depth = t.memberRows o k.id address depth ∧
      t.size i = t.extentOfChildren k.id := by
  have hmem := List.mem_of_getElem? hn
  rcases hshown with rfl | hfill
  · exact ⟨insideRows_of_held hm hp address depth, size_of_member h hn hk hcalm hm hp⟩
  · obtain ⟨j, hj⟩ := List.getElem?_of_mem hfill.mem
    have hleads : t.Leads n.id k.id := .filled hmem hfill
    have hother : k.id ≠ n.id := fun e => hacyclic n.id (.single (e ▸ hleads))
    have hspans : t.Spans n.id k.id := .sized hmem ⟨.inl ⟨hk, hfill.empty⟩, hfill.ref, hfill.mem, hother⟩
    have hhold : n.kind.canHold := Kind.canHold_iff.2 (.inl hk)
    refine ⟨?_, ?_⟩
    · rw [insideRows_of_empty hfill.empty hk, definitionRows_eq h.toFormed hacyclic ho hmem hhold hfill]
    · rw [size_of_filledBy h hn hk hcalm hfill hother hj, size_of_member h hj hfill.kind (hcalm.step hspans) hm hp]

/-- without members of either there is nothing beneath a struct -/
theorem insideRows_eq_nil (hn : t.nodes[i]? = some n) (hk : n.kind = .struct)
    (hnone : ∀ k m, k = n ∨ t.FilledBy n k → m ∈ t.nodes → m.parent ≠ k.id) (address : UInt64) (depth : Nat) :
    t.insideRows o t.nestingBound [] i n address depth = [] := by
  have hmem := List.mem_of_getElem? hn
  have hempty : ∀ m ∈ t.nodes, m.parent ≠ n.id := fun m hm => hnone n m (.inl rfl) hm
  have hhold : n.kind.canHold := Kind.canHold_iff.2 (.inl hk)
  rw [insideRows_of_empty hempty hk]
  rcases definitionIn_cases h.toFormed hacyclic ho hmem hhold hempty (within_nil _) with ⟨d, hfill, -⟩ | ⟨-, hd⟩
  · have hchildren : t.children d.id = [] :=
      List.isEmpty_iff.1 (children_isEmpty_iff.2 fun m hm => hnone d m (.inr hfill) hm)
    rw [definitionRows_eq h.toFormed hacyclic ho hmem hhold hfill, memberRows, heldRows, hchildren, List.flatMap_nil]
  · rw [hd]
    rfl

/-- **The rows beneath a struct reach as far as its size says if and only if the struct has members, or refers to a struct
that has.** Let no way of holding and being filled lead back to where it started, and let the size of the struct be made up of
no ring, as is so where holding and referring run in no ring at all (`acyclic_of_noRing`, `calm_of_noRing`); and let no extent
go past the end of memory. Between the row of an unfolded struct and its closing row there are only deeper ones. If the struct
or what it refers to has members, the last of those one level deeper to end ends where the struct ends. If neither has, there
are none. -/
theorem listing_covered_iff (hfits : ∀ i n, t.nodes[i]? = some n → n.offset.toNat + (t.size i).toNat < UInt64.size)
    {before after : List Row} (he : t.listing o = before ++ r :: after) (hrole : r.role = .structHeader) (hn : n ∈ t.nodes)
    (hid : n.id = r.node) (hopen : n.collapsed = false) (hcalm : t.Calm n.id) (hend : r.stop < UInt64.size) :
    ∃ inside footer rest, after = inside ++ footer :: rest ∧ footer.Closes r ∧ (∀ x ∈ inside, r.depth < x.depth) ∧
      (IsGreatest { e | ∃ x ∈ inside, x.depth = r.depth + 1 ∧ x.stop = e } r.stop ↔
        ∃ k m, (k = n ∨ t.FilledBy n k) ∧ m ∈ t.nodes ∧ m.parent = k.id) := by
  obtain ⟨i, footer, rest, hi, hkind, hsize, hcloses, hafter⟩ :=
    listing_fills h.toFormed hacyclic ho he n hn hid (.inl hrole) hopen
  have hk := Kind.eq_struct_of_role (hkind.symm.trans hrole)
  have hdeep := (bracketed_insideRows (t.bracketed_block (o := o) t.nestingBound) [] i n r.address (r.depth + 1)).1.deep
  refine ⟨_, footer, rest, hafter, hcloses, fun x hx => hdeep x hx, ?_⟩
  constructor
  · rintro ⟨⟨x, hx, -, -⟩, -⟩
    by_contra hnone
    rw [insideRows_eq_nil h hacyclic ho hi hk fun k m hshown hm hp => hnone ⟨k, m, hshown, hm, hp⟩] at hx
    exact List.not_mem_nil hx
  · rintro ⟨k, m, hshown, hm, hp⟩
    obtain ⟨hinside, hextent⟩ := insideRows_of_member h hacyclic ho hi hk hcalm hshown hm hp r.address (r.depth + 1)
    rw [Row.stop, hsize, hextent] at hend ⊢
    rw [hinside]
    exact isGreatest_stop_memberRows hm hp hfits hend

end Structs

/-- a struct that refers to a second one, which refers to a third one, which has a number -/
def aliasNodes : List Node :=
  [{ Node.rootStruct "a" "" with id := 1, ref := 2 }, { Node.rootStruct "b" "" with id := 2, offset := 0x10, ref := 3 },
    { Node.rootStruct "c" "" with id := 3, offset := 0x20 }, { Node.field 3 0 .uint32 "x" with id := 4 }]

def aliasTree : Tree := aliasNodes.foldl push (empty 0)

/-- how far a node of it is from the number -/
def aliasRank (id : NodeId) : Nat := (4 - id).toNat

theorem aliasTree_noRing : ∀ id, ¬ TransGen aliasTree.Uses id id := by
  have hrank : ∀ n ∈ aliasNodes, ∀ m ∈ aliasNodes, m.parent = n.id ∨ n.ref = m.id → aliasRank m.id < aliasRank n.id := by
    decide
  have hdown : ∀ a b, aliasTree.Uses a b → aliasRank b < aliasRank a := by
    rintro a b ⟨n, hn, m, hm, rfl, rfl, huses⟩
    exact hrank n hn m hm huses
  exact noRing_of_rank hdown

theorem aliasTree_fits (i : Nat) (n : Node) (hn : aliasTree.nodes[i]? = some n) :
    n.offset.toNat + (aliasTree.size i).toNat < UInt64.size := by
  have hi : i < 4 := (List.getElem?_eq_some_iff.1 hn).1
  obtain rfl | rfl | rfl | rfl : i = 0 ∨ i = 1 ∨ i = 2 ∨ i = 3 := by omega
  all_goals
    cases hn
    decide

/-- beneath the second struct is the number of the third one, and the two end in the same place -/
theorem listing_covered_iff_alias : let b := aliasTree.row aliasNodes[1] .structHeader 0x10 4 0
    ∃ inside footer rest, aliasTree.listing .standard = (aliasTree.listing .standard).take 2 ++ b :: (inside ++ footer :: rest) ∧
      footer.Closes b ∧ (∀ x ∈ inside, 0 < x.depth) ∧ IsGreatest { e | ∃ x ∈ inside, x.depth = 1 ∧ x.stop = e } 0x14 := by
  intro b
  have h : aliasTree.WellFormed := wellFormed_ofNodes (show ofNodes 0 aliasNodes 1 = .ok aliasTree from rfl)
  have he : aliasTree.listing .standard =
      (aliasTree.listing .standard).take 2 ++ b :: (aliasTree.listing .standard).drop 3 := by decide
  have hfill : aliasTree.FilledBy aliasNodes[1] aliasNodes[2] := ⟨.inl rfl, by decide, rfl, by decide, rfl⟩
  obtain ⟨inside, footer, rest, hafter, hcloses, hdeep, hiff⟩ := listing_covered_iff (n := aliasNodes[1]) h
    (acyclic_of_noRing aliasTree_noRing) rfl aliasTree_fits he rfl (by decide) rfl rfl (calm_of_noRing aliasTree_noRing _)
    (by decide)
  refine ⟨inside, footer, rest, hafter ▸ he, hcloses, hdeep, ?_⟩
  exact hiff.2 ⟨aliasNodes[2], aliasNodes[3], .inr hfill, by decide, rfl⟩

/-- the first struct is as large as the others, and its closing row follows at once -/
theorem not_covered_alias : aliasTree.WellFormed ∧ (∀ id, ¬ TransGen aliasTree.Uses id id) ∧
    (∀ i n, aliasTree.nodes[i]? = some n → n.offset.toNat + (aliasTree.size i).toNat < UInt64.size) ∧
    ∃ a footer rest, aliasTree.listing .standard = a :: footer :: rest ∧ a.role = .structHeader ∧ a.node = 1 ∧
      (aliasTree.find? 1).any (fun n => !n.collapsed) ∧ a.size = 4 ∧ footer.Closes a :=
  ⟨wellFormed_ofNodes (show ofNodes 0 aliasNodes 1 = .ok aliasTree from rfl), aliasTree_noRing, aliasTree_fits,
    _, _, _, rfl, rfl, rfl, by decide, by decide, by decide⟩

end Tree

end ByteAtlas
