/-
Which lists of nodes are trees. Building a tree from stored nodes looks at one node after the other and walks up from each of
them, over no more steps than there are nodes. What this comes to is said here of the list alone (`Acceptable`): ids are
distinct, not zero and leave room for new ones, what holds a node is in the list, before it or after it, and no node holds
itself through others.

- `Forest.noRing`, `rooted_of_noRing`: on a finite list, ways up without rings are ways up to roots.
- `Tree.exists_ofNodes`: an acceptable list is built. No walk up is cut short, or taken for a ring.
- `Tree.accepted_iff`: no other list is, what is built is the list as it stands, and every text that is read comes to a
  well-formed tree.
-/
import ByteAtlas.Proofs.Stored.Reopen
import ByteAtlas.Proofs.Tree.Acyclic

namespace ByteAtlas

open Relation

/-! ## Rings of parents -/

def HasParent (ns : List Node) (id parent : NodeId) : Prop := ∃ n ∈ ns, n.id = id ∧ n.parent = parent

variable {ns : List Node}

theorem Forest.liesAbove_of_way (h : Forest ns) {a id : NodeId} (ha : a ≠ 0) (hway : ReflTransGen (HasParent ns) id a) :
    LiesAbove ns a id ∧ id ≠ 0 := by
  induction hway using ReflTransGen.head_induction_on with
  | refl => exact ⟨.self, ha⟩
  | head hstep _ ih =>
    obtain ⟨n, hn, rfl, rfl⟩ := hstep
    exact ⟨.up hn ih.2 ih.1, h.nonzero n hn⟩

/-- no node of a forest holds itself through others -/
theorem Forest.noRing (h : Forest ns) (id : NodeId) : ¬ TransGen (HasParent ns) id id := by
  intro hring
  obtain ⟨p, ⟨n, hn, rfl, rfl⟩, hback⟩ := TransGen.head'_iff.1 hring
  obtain ⟨habove, hp⟩ := h.liesAbove_of_way (h.nonzero n hn) hback
  exact h.not_liesAbove_parent hn hp habove

/-- ways up without rings end at roots, since there are only so many ids -/
theorem rooted_of_noRing (hheld : ∀ n ∈ ns, CanHold ns n.parent) (hring : ∀ id, ¬ TransGen (HasParent ns) id id) :
    ∀ n ∈ ns, Rooted ns n.id := by
  have key : ∀ {id}, Acc (fun b a => HasParent ns a b) id → ∀ n ∈ ns, n.id = id → Rooted ns id := by
    intro id hacc
    induction hacc with
    | intro id _ ih =>
      rintro n hn rfl
      rcases hheld n hn with hroot | ⟨p, hp, hpid, -⟩
      · exact .root hn hroot
      · exact .held hn (ih n.parent ⟨n, hn, rfl, rfl⟩ p hp hpid)
  exact fun n hn => key (acc_of_noRing fun b _ => hring b) n hn rfl

/-! ## What is accepted -/

/-- what is asked of a list of nodes and a next new id -/
structure Acceptable (ns : List Node) (nextId : NodeId) : Prop where
  nonzero : ∀ n ∈ ns, n.id ≠ 0
  distinct : (ns.map (·.id)).Nodup
  room : ∀ n ∈ ns, n.id ≤ Tree.maxId
  nextRoom : nextId ≤ Tree.maxId + 1
  held : ∀ n ∈ ns, CanHold ns n.parent
  noRing : ∀ id, ¬ TransGen (HasParent ns) id id

theorem Acceptable.forest {nextId : NodeId} (h : Acceptable ns nextId) : Forest ns :=
  ⟨h.nonzero, h.distinct, h.held, rooted_of_noRing h.held h.noRing⟩

namespace Tree

variable {t : Tree} {base nextId : UInt64}

/-- a tree that is built has the base and the nodes that were given -/
theorem built_ofNodes (ht : ofNodes base ns nextId = .ok t) : t.base = base ∧ t.nodes = ns := by
  obtain ⟨v, hpush, rfl, -⟩ := ofNodes_ok ht
  obtain ⟨hbase, hnodes, -⟩ := pushAll_ok hpush
  exact ⟨hbase, hnodes⟩

theorem acceptable_of_ofNodes (ht : ofNodes base ns nextId = .ok t) : Acceptable ns nextId := by
  obtain ⟨-, rfl⟩ := built_ofNodes ht
  have h := wellFormed_ofNodes ht
  have hroom : ¬ ((∃ n ∈ t.nodes, maxId < n.id) ∨ maxId + 1 < nextId) := by
    intro hno
    obtain ⟨id, -, herror⟩ := (ofNodes_of_formed h.toFormed base nextId).2 hno
    rw [ht] at herror
    cases herror
  push Not at hroom
  exact ⟨h.forest.nonzero, h.forest.distinct, fun n hn => UInt64.not_lt.1 (hroom.1 n hn), UInt64.not_lt.1 hroom.2,
    h.forest.held, h.forest.noRing⟩

/-- an acceptable list is built, with the next new id past all of its nodes and not before the one that was given -/
theorem exists_ofNodes (h : Acceptable ns nextId) (base : UInt64) :
    ∃ t, ofNodes base ns nextId = .ok t ∧ t.nextId = max (ns.foldl push (empty base)).nextId nextId := by
  have hroom : ∀ n ∈ ns, ¬ maxId < n.id := fun n hn => UInt64.not_lt.2 (h.room n hn)
  have hpush := (pushAll_of_nodup (t := empty base) (loaded_empty base).indexed h.nonzero h.distinct).1 hroom
  have hnodes : (ns.foldl push (empty base)).nodes = ns := nodes_foldl_push _ _
  have hformed : (ns.foldl push (empty base)).Formed :=
    ⟨((loaded_empty base).pushAll hpush).indexed, by rw [hnodes]; exact h.forest⟩
  obtain ⟨hok, -⟩ := ofNodes_of_formed hformed base nextId
  rw [hnodes] at hok
  obtain ⟨t, ht, -, -, hnext⟩ := hok hroom (UInt64.not_lt.2 h.nextRoom)
  exact ⟨t, ht, hnext⟩

/-! ## The next new id -/

/-- pushing nodes leaves the next new id alone or puts it right after one of them -/
theorem nextId_foldl_push_cases (t : Tree) (hroom : ∀ n ∈ ns, n.id ≤ maxId) :
    (ns.foldl push t).nextId = t.nextId ∨ ∃ n ∈ ns, (ns.foldl push t).nextId.toNat = n.id.toNat + 1 := by
  induction ns generalizing t with
  | nil => exact Or.inl rfl
  | cons n rest ih =>
    obtain ⟨hn, hrest⟩ := List.forall_mem_cons.1 hroom
    have htop := toNat_lt_top (UInt64.not_lt.2 hn)
    have hadvance : (t.push n).nextId.toNat = max t.nextId.toNat (n.id.toNat + 1) := by
      rw [← toNat_satAdd_one htop]
      exact Word.toNat_max _ _
    rw [List.foldl_cons]
    rcases ih (t.push n) hrest with hkept | ⟨m, hm, hstep⟩
    · rw [hkept]
      rcases le_total (n.id.toNat + 1) t.nextId.toNat with hle | hle
      · rw [max_eq_left hle] at hadvance
        exact Or.inl (UInt64.toNat_inj.1 hadvance)
      · rw [max_eq_right hle] at hadvance
        exact Or.inr ⟨n, List.mem_cons_self, hadvance⟩
    · exact Or.inr ⟨m, List.mem_cons_of_mem _ hm, hstep⟩

/-- the next new id of a tree that is built is the greatest of one, the one that was given, and those after its nodes -/
theorem isGreatest_nextId (ht : ofNodes base ns nextId = .ok t) :
    IsGreatest {k | k = 1 ∨ k = nextId.toNat ∨ ∃ n ∈ ns, k = n.id.toNat + 1} t.nextId.toNat := by
  have h := acceptable_of_ofNodes ht
  obtain ⟨u, hu, hnext⟩ := exists_ofNodes h base
  obtain rfl := Except.ok.inj (ht.symm.trans hu)
  rw [hnext, Word.toNat_max]
  constructor
  · rcases le_total nextId.toNat (ns.foldl push (empty base)).nextId.toNat with hle | hle
    · rw [max_eq_left hle]
      rcases nextId_foldl_push_cases (empty base) h.room with hkept | ⟨n, hn, hstep⟩
      · exact Or.inl (congrArg UInt64.toNat hkept)
      · exact Or.inr (Or.inr ⟨n, hn, hstep⟩)
    · rw [max_eq_right hle]
      exact Or.inr (Or.inl rfl)
  · rintro k (rfl | rfl | ⟨n, hn, rfl⟩)
    · exact le_max_of_le_left (UInt64.le_iff_toNat_le.1 (nextId_le_foldl_push (empty base) ns))
    · exact le_max_right _ _
    · have hstep := UInt64.le_iff_toNat_le.1 (satAdd_le_foldl_push (empty base) hn)
      rw [toNat_satAdd_one (toNat_lt_top (UInt64.not_lt.2 (h.room n hn)))] at hstep
      exact le_max_of_le_left hstep

/-! ## Building and reading -/

/-- **A list of nodes is built if and only if it is acceptable.** What is built has the nodes in their order, and its next
new id is the greatest of one, the one that was given, and those after the nodes. So whatever text is read, it is read as a
well-formed tree. -/
theorem accepted_iff :
    (∀ base ns nextId, ((∃ t, ofNodes base ns nextId = .ok t) ↔ Acceptable ns nextId) ∧
      ∀ t, ofNodes base ns nextId = .ok t → t.base = base ∧ t.nodes = ns ∧
        IsGreatest {k | k = 1 ∨ k = nextId.toNat ∨ ∃ n ∈ ns, k = n.id.toNat + 1} t.nextId.toNat) ∧
    ∀ text t, ofText text = .ok t → t.WellFormed := by
  refine ⟨fun base ns nextId => ⟨⟨fun ⟨t, ht⟩ => acceptable_of_ofNodes ht, fun h => ?_⟩, fun t ht => ?_⟩, ?_⟩
  · obtain ⟨t, ht, -⟩ := exists_ofNodes h base
    exact ⟨t, ht⟩
  · obtain ⟨hbase, hnodes⟩ := built_ofNodes ht
    exact ⟨hbase, hnodes, isGreatest_nextId ht⟩
  · intro text t ht
    obtain ⟨base, ns, nextId, hns⟩ := ofNodes_of_ofText ht
    exact wellFormed_ofNodes hns

/-- a byte that is stored before the struct that holds it -/
def childFirstNodes : List Node :=
  [{ Node.field 4 0 .uint8 "byte" with id := 5 }, { Node.rootStruct "late" "Late" with id := 4 }]

/-- a struct below two others that hold each other -/
def belowRingNodes : List Node :=
  [{ Node.field 2 0 .struct "below" with id := 1 }, { Node.field 3 0 .struct "front" with id := 2 },
    { Node.field 2 0 .struct "back" with id := 3 }]

/-- a parent may come after what it holds; a struct below a ring is refused like those on it -/
theorem accepted_iff_crossed :
    (∃ t, ofNodes 0 childFirstNodes 2 = .ok t ∧ t.nodes = childFirstNodes ∧ 6 ≤ t.nextId.toNat) ∧
      Acceptable childFirstNodes 2 ∧ ¬ ∃ t, ofNodes 0 belowRingNodes 1 = .ok t := by
  obtain ⟨t, ht⟩ : ∃ t, ofNodes 0 childFirstNodes 2 = .ok t := ⟨_, rfl⟩
  obtain ⟨hiff, hbuilt⟩ := accepted_iff.1 0 childFirstNodes 2
  obtain ⟨-, hnodes, hgreatest⟩ := hbuilt t ht
  have hsix := hgreatest.2 (Or.inr (Or.inr ⟨_, List.mem_cons_self, rfl⟩))
  refine ⟨⟨t, ht, hnodes, hsix⟩, hiff.1 ⟨t, ht⟩, fun hring => ?_⟩
  have hfront : HasParent belowRingNodes 2 3 := ⟨{ Node.field 3 0 .struct "front" with id := 2 }, by decide, rfl, rfl⟩
  have hback : HasParent belowRingNodes 3 2 := ⟨{ Node.field 2 0 .struct "back" with id := 3 }, by decide, rfl, rfl⟩
  exact ((accepted_iff.1 0 belowRingNodes 1).1.1 hring).noRing 2 (.head hfront (.single hback))

end Tree

end ByteAtlas
