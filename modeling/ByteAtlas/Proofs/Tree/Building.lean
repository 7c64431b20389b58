/-
Trees that are built up: from a list of nodes, all at once (`wellFormed_ofNodes`), and by adding one node after the other
(`Steady.add`). Both ask of every node what a well-formed tree needs.

Every id is below the next new one unless the ids have run out, in which case the largest word is given out over and over.
`Tree.Steady` is what holds of a tree either way; it is the invariant of whole runs, and it is well-formedness as long as
there are ids (`Steady.wellFormed`).
-/
import ByteAtlas.Proofs.Tree.Structure

namespace ByteAtlas.Tree

variable {t u : Tree}

/-- a well-formed tree, or one that would be if its ids had not run out -/
structure Steady (t : Tree) : Prop extends Formed t where
  below : t.nextId.toNat < Word.top → ∀ n ∈ t.nodes, n.id < t.nextId
  positive : 0 < t.nextId

theorem WellFormed.steady (h : t.WellFormed) : t.Steady := ⟨h.toFormed, fun _ => h.below, h.positive⟩

theorem Steady.wellFormed (h : t.Steady) (htop : t.nextId.toNat < Word.top) : t.WellFormed :=
  ⟨h.toFormed, h.below htop, h.positive⟩

/-! ## Room for new ids -/

theorem toNat_lt_top {id : NodeId} (h : ¬ maxId < id) : id.toNat < Word.top := by
  rw [UInt64.lt_iff_toNat_lt] at h
  have hmax : maxId.toNat < Word.top := by decide
  omega

theorem toNat_satAdd_one {id : NodeId} (htop : id.toNat < Word.top) : (Word.satAdd id 1).toNat = id.toNat + 1 := by
  rw [Word.toNat_satAdd, show (1 : UInt64).toNat = 1 from rfl]
  omega

/-- an id that was stepped over is below the next new one -/
theorem lt_of_satAdd_le {id next : NodeId} (h : Word.satAdd id 1 ≤ next) (htop : next.toNat < Word.top) : id < next := by
  rw [UInt64.le_iff_toNat_le, Word.toNat_satAdd] at h
  rw [UInt64.lt_iff_toNat_lt]
  have hone : (1 : UInt64).toNat = 1 := rfl
  omega

theorem satAdd_le_advance (t : Tree) (id : NodeId) : Word.satAdd id 1 ≤ t.advance id := by
  rw [UInt64.le_iff_toNat_le, advance, Word.toNat_max]
  exact Nat.le_max_right _ _

theorem nextId_le_push (t : Tree) (n : Node) : t.nextId ≤ (t.push n).nextId := le_advance t n.id

/-- what a change has to see to: the tree is formed, no id comes back, and ids of new nodes are stepped over -/
theorem Steady.advanced (h : t.Steady) (hu : u.Formed) (hle : t.nextId ≤ u.nextId)
    (hnew : ∀ n ∈ u.nodes, (∃ m ∈ t.nodes, m.id = n.id) ∨ Word.satAdd n.id 1 ≤ u.nextId) : u.Steady where
  toFormed := hu
  below := by
    intro htop n hn
    rcases hnew n hn with ⟨m, hm, hid⟩ | hstep
    · have hlt := h.below (Nat.lt_of_le_of_lt (UInt64.le_iff_toNat_le.1 hle) htop) m hm
      exact hid ▸ UInt64.lt_of_lt_of_le hlt hle
    · exact lt_of_satAdd_le hstep htop
  positive := UInt64.lt_of_lt_of_le h.positive hle

theorem Steady.push (h : t.Steady) {n : Node} (h0 : n.id ≠ 0) (hid : ∀ m ∈ t.nodes, m.id ≠ n.id)
    (hp : CanHold t.nodes n.parent) : (t.push n).Steady := by
  refine h.advanced (h.toFormed.push h0 hid hp) (nextId_le_push t n) ?_
  intro m hm
  rcases List.mem_append.1 hm with hm | hm
  · exact Or.inl ⟨m, hm, rfl⟩
  · rw [List.mem_singleton.1 hm]
    exact Or.inr (satAdd_le_advance t n.id)

/-! ## Adding a node -/

theorem nextId_le_reserve (t : Tree) : t.nextId ≤ t.reserve.2.nextId := by
  rw [UInt64.le_iff_toNat_le, reserve, Word.toNat_satAdd]
  have hle := Word.toNat_le_top t.nextId
  omega

theorem Steady.reserve (h : t.Steady) : t.reserve.2.Steady :=
  h.advanced ⟨h.indexed, h.forest⟩ (nextId_le_reserve t) fun n hn => Or.inl ⟨n, hn, rfl⟩

theorem Steady.accept (h : t.Steady) {n : Node} (h0 : n.id ≠ 0)
    (hid : ¬ maxId < n.id → ∀ m ∈ t.nodes, m.id ≠ n.id) : (t.accept n).2.Steady := by
  unfold Tree.accept checkRoom
  by_cases hroom : maxId < n.id
  · rw [if_pos hroom]
    exact h
  · rw [if_neg hroom]
    cases hc : t.checkHolder n.parent with
    | error e => exact h
    | ok _ => exact h.push h0 (hid hroom) ((checkHolder_eq_ok_iff h.indexed).1 hc)

theorem nextId_le_accept (t : Tree) (n : Node) : t.nextId ≤ (t.accept n).2.nextId := by
  unfold Tree.accept
  split
  · exact UInt64.le_refl _
  · exact UInt64.le_refl _
  · exact nextId_le_push t n

/-- adding a node keeps a tree steady; an id that it gives out itself is new, or else too large to be let in -/
theorem Steady.add (h : t.Steady) (n : Node) : (t.add n).2.Steady := by
  unfold Tree.add
  by_cases h0 : n.id = 0
  · rw [if_pos h0]
    refine h.reserve.accept (UInt64.ne_of_lt h.positive).symm ?_
    intro hroom m hm
    exact UInt64.ne_of_lt (h.below (toNat_lt_top hroom) m hm)
  · rw [if_neg h0]
    cases hc : t.contains n.id with
    | true => exact h
    | false => exact h.accept h0 fun _ => (contains_eq_false_iff h.indexed).1 hc

theorem nextId_le_add (t : Tree) (n : Node) : t.nextId ≤ (t.add n).2.nextId := by
  unfold Tree.add
  split
  · exact UInt64.le_trans (nextId_le_reserve t) (nextId_le_accept _ _)
  · split
    · exact UInt64.le_refl _
    · exact nextId_le_accept t n

/-! ## A list of nodes at once -/

/-- what pushing nodes that carry ids of their own keeps right; their parents are looked at later -/
structure Loaded (t : Tree) : Prop where
  indexed : t.Indexed
  nonzero : ∀ n ∈ t.nodes, n.id ≠ 0
  below : ∀ n ∈ t.nodes, n.id < t.nextId
  positive : 0 < t.nextId

theorem loaded_empty (base : UInt64) : (empty base).Loaded :=
  ⟨(wellFormed_empty base).indexed, by simp [empty], by simp [empty], (wellFormed_empty base).positive⟩

theorem Loaded.push (h : t.Loaded) {n : Node} (h0 : n.id ≠ 0) (hid : ∀ m ∈ t.nodes, m.id ≠ n.id)
    (htop : n.id.toNat < Word.top) : (t.push n).Loaded where
  indexed := h.indexed.push hid
  nonzero := by
    intro m hm
    rcases List.mem_append.1 hm with hm | hm
    · exact h.nonzero m hm
    · exact List.mem_singleton.1 hm ▸ h0
  below := by
    intro m hm
    rcases List.mem_append.1 hm with hm | hm
    · exact UInt64.lt_of_lt_of_le (h.below m hm) (nextId_le_push t n)
    · rw [List.mem_singleton.1 hm]
      exact lt_advance t htop
  positive := UInt64.lt_of_lt_of_le h.positive (nextId_le_push t n)

theorem Loaded.pushAll (h : t.Loaded) {ns : List Node} (hu : t.pushAll ns = .ok u) : u.Loaded := by
  induction ns generalizing t with
  | nil =>
    obtain rfl := Except.ok.inj hu
    exact h
  | cons n rest ih =>
    rw [Tree.pushAll] at hu
    by_cases h0 : n.id = 0
    · simp [h0] at hu
    rw [if_neg h0] at hu
    cases hc : t.contains n.id with
    | true => simp [hc] at hu
    | false =>
      rw [hc, if_neg Bool.false_ne_true] at hu
      by_cases hroom : maxId < n.id
      · simp [hroom] at hu
      · rw [if_neg hroom] at hu
        exact ih (h.push h0 ((contains_eq_false_iff h.indexed).1 hc) (toNat_lt_top hroom)) hu

theorem forall_of_checkHolders {ns : List Node} (h : t.checkHolders ns = .ok ()) :
    ∀ n ∈ ns, t.checkHolder n.parent = .ok () ∧ t.isOnRing n.id = false := by
  induction ns with
  | nil => simp
  | cons n rest ih =>
    rw [checkHolders] at h
    cases hc : t.checkHolder n.parent with
    | error e => simp [hc] at h
    | ok _ =>
      simp only [hc] at h
      cases hr : t.isOnRing n.id with
      | true => simp [hr] at h
      | false =>
        rw [hr, if_neg Bool.false_ne_true] at h
        exact List.forall_mem_cons.2 ⟨⟨hc, hr⟩, ih h⟩

theorem exists_of_bind_eq_ok {α β : Type} {x : Except EditError α} {f : α → Except EditError β} {b : β}
    (h : x >>= f = .ok b) : ∃ a, x = .ok a ∧ f a = .ok b := by
  cases x with
  | error e => cases h
  | ok a => exact ⟨a, rfl, h⟩

/-- the steps of building a tree at once -/
theorem ofNodes_ok {base nextId : UInt64} {ns : List Node} (hu : ofNodes base ns nextId = .ok u) :
    ∃ v, (empty base).pushAll ns = .ok v ∧ u = { v with nextId := max v.nextId nextId } ∧
      u.checkHolders u.nodes = .ok () := by
  unfold ofNodes at hu
  obtain ⟨v, hv, hu⟩ := exists_of_bind_eq_ok hu
  refine ⟨v, hv, ?_⟩
  by_cases hmax : maxId + 1 < nextId
  · rw [if_pos hmax] at hu
    obtain ⟨_, hthrow, -⟩ := exists_of_bind_eq_ok hu
    cases hthrow
  · rw [if_neg hmax] at hu
    obtain ⟨_, hc, hu⟩ := exists_of_bind_eq_ok hu
    obtain rfl := Except.ok.inj hu
    exact ⟨rfl, hc⟩

/-- **A list of nodes that is accepted gives a well-formed tree.** -/
theorem wellFormed_ofNodes {base nextId : UInt64} {ns : List Node} (hu : ofNodes base ns nextId = .ok u) :
    u.WellFormed := by
  obtain ⟨v, hpush, hu, hcheck⟩ := ofNodes_ok hu
  have hv := (loaded_empty base).pushAll hpush
  have hle : v.nextId ≤ u.nextId := by
    rw [hu, UInt64.le_iff_toNat_le, Word.toNat_max]
    exact Nat.le_max_left _ _
  have hnodes : u.nodes = v.nodes := by rw [hu]
  have hindexed : u.Indexed := by
    rw [hu]
    exact hv.indexed
  have hall := forall_of_checkHolders hcheck
  have hheld : ∀ n ∈ u.nodes, CanHold u.nodes n.parent := fun n hn =>
    (checkHolder_eq_ok_iff hindexed).1 (hall n hn).1
  refine ⟨⟨hindexed, hnodes ▸ hv.nonzero, hindexed.nodup, hheld, fun n hn => ?_⟩, fun n hn => ?_, ?_⟩
  · exact rooted_of_climbsTo_eq_false hindexed hheld hn (hall n hn).2
  · exact UInt64.lt_of_lt_of_le (hv.below n (hnodes ▸ hn)) hle
  · exact UInt64.lt_of_lt_of_le hv.positive hle

/-! ## Small trees -/

def pairNodes : List Node :=
  [{ Node.rootStruct "pair" "Pair" with id := 1 }, { Node.field 1 0 .uint8 "first" with id := 2 },
    { Node.field 1 1 .uint8 "second" with id := 3 }]

def pair : Tree := pairNodes.foldl push (empty 0x1000)

theorem ofNodes_pair : ofNodes 0x1000 pairNodes 1 = .ok pair := rfl

/-- a point with two numbers, a line between two points, and a shape that has a line and a row of two lines inside -/
def shapeNodes : List Node :=
  [{ Node.rootStruct "point" "Point" with id := 1, offset := 0x100 }, { Node.field 1 0 .float "x" with id := 2 },
    { Node.field 1 4 .float "y" with id := 3 }, { Node.rootStruct "line" "Line" with id := 4, offset := 0x40 },
    { Node.field 4 0 .struct "from" with id := 5, ref := 1 }, { Node.field 4 8 .struct "to" with id := 6, ref := 1 },
    { Node.rootStruct "shape" "Shape" with id := 7 }, { Node.field 7 0 .struct "edge" with id := 8, ref := 4 },
    { Node.array 7 16 "row" .struct 2 with id := 9, ref := 4 }]

def shapeTree : Tree := shapeNodes.foldl push (empty 0)

/-- how far a node of it is from those that neither hold nor refer to anything -/
def shapeRank (id : NodeId) : Nat := [0, 1, 0, 0, 3, 2, 2, 5, 4, 4].getD id.toNat 0

theorem shapeRank_lt : ∀ n ∈ shapeNodes, ∀ m ∈ shapeNodes, m.parent = n.id ∨ n.ref = m.id →
    shapeRank m.id < shapeRank n.id := by
  decide

end ByteAtlas.Tree
