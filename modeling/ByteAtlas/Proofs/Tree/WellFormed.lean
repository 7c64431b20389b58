/-
Well-formed trees: the nodes make up a forest, the map of positions is right, and new ids are new.

- `Tree.Indexed`: the map tells where each id is stored, and tells it of no other id. Ids are distinct then.
- `Tree.Formed`: an indexed forest. This is what looking up, walking and editing rely on.
- `Tree.WellFormed`: formed, and every id lies below the next new one.

Over these the functions that look into a tree get a reading that mentions its nodes alone (`find?_eq_some_iff`,
`contains_iff`, `checkHolder_eq_ok_iff`, `mem_children`, `liesAbove_iff`). Walks are bounded by the number of nodes;
`Forest.exists_depth` says that the bound is never met.
-/
import ByteAtlas.Proofs.Tree.Forest
import ByteAtlas.Tree.Walk

namespace ByteAtlas.Tree

/-- the map of positions tells where each id is stored, and nothing else -/
def Indexed (t : Tree) : Prop := ∀ id i, t.position? id = some i ↔ (t.nodes[i]?).map (·.id) = some id

/-- an indexed forest -/
structure Formed (t : Tree) : Prop where
  indexed : t.Indexed
  forest : Forest t.nodes

/-- an indexed forest whose next new id names nothing yet -/
structure WellFormed (t : Tree) : Prop extends Formed t where
  below : ∀ n ∈ t.nodes, n.id < t.nextId
  positive : 0 < t.nextId

variable {t : Tree}

theorem wellFormed_empty (base : UInt64) : (empty base).WellFormed :=
  ⟨⟨fun id i => by simp [position?, empty, Places.get?_empty], forest_nil⟩, by simp [empty], by simp [empty]⟩

/-! ## Looking up -/

theorem Indexed.nodup (h : t.Indexed) : (t.nodes.map (·.id)).Nodup := by
  rw [List.nodup_iff_getElem?_ne_getElem?]
  intro i j hij hj e
  rw [List.getElem?_map, List.getElem?_map] at e
  obtain ⟨n, hn⟩ : ∃ n, t.nodes[j]? = some n := ⟨_, List.getElem?_eq_getElem (by simpa using hj)⟩
  have hj' := (h n.id j).2 (by rw [hn]; rfl)
  have hi' := (h n.id i).2 (by rw [e, hn]; rfl)
  rw [hj'] at hi'
  exact absurd (Option.some.inj hi') (Nat.ne_of_gt hij)

theorem find?_eq_some_iff (h : t.Indexed) {id : NodeId} {n : Node} :
    t.find? id = some n ↔ n ∈ t.nodes ∧ n.id = id := by
  rw [find?, Option.bind_eq_some_iff]
  constructor
  · rintro ⟨i, hi, hn⟩
    have hid := (h id i).1 hi
    rw [hn] at hid
    exact ⟨List.mem_of_getElem? hn, Option.some.inj hid⟩
  · rintro ⟨hn, rfl⟩
    obtain ⟨i, hi⟩ := List.mem_iff_getElem?.1 hn
    exact ⟨i, (h n.id i).2 (by rw [hi]; rfl), hi⟩

theorem contains_iff (h : t.Indexed) {id : NodeId} : t.contains id = true ↔ ∃ n ∈ t.nodes, n.id = id := by
  rw [contains, Option.isSome_iff_exists]
  constructor
  · rintro ⟨i, hi⟩
    obtain ⟨n, hn, hid⟩ := Option.map_eq_some_iff.1 ((h id i).1 hi)
    exact ⟨n, List.mem_of_getElem? hn, hid⟩
  · rintro ⟨n, hn, rfl⟩
    obtain ⟨i, hi⟩ := List.mem_iff_getElem?.1 hn
    exact ⟨i, (h n.id i).2 (by rw [hi]; rfl)⟩

theorem contains_eq_false_iff (h : t.Indexed) {id : NodeId} : t.contains id = false ↔ ∀ n ∈ t.nodes, n.id ≠ id := by
  rw [← Bool.not_eq_true, contains_iff h]
  push Not
  rfl

theorem find?_eq_none_iff (h : t.Indexed) {id : NodeId} : t.find? id = none ↔ ∀ n ∈ t.nodes, n.id ≠ id := by
  rw [Option.eq_none_iff_forall_ne_some]
  constructor
  · exact fun hno n hn e => hno n ((find?_eq_some_iff h).2 ⟨hn, e⟩)
  · exact fun hno n hn => hno n ((find?_eq_some_iff h).1 hn).1 ((find?_eq_some_iff h).1 hn).2

theorem position?_of_getElem? (h : t.Indexed) {i : Nat} {n : Node} (hi : t.nodes[i]? = some n) :
    t.position? n.id = some i :=
  (h n.id i).2 (by rw [hi]; rfl)

/-- an id is stored at one position only -/
theorem Indexed.eq_of_id_eq (h : t.Indexed) {i j : Nat} {m n : Node} (hi : t.nodes[i]? = some m)
    (hj : t.nodes[j]? = some n) (e : m.id = n.id) : i = j := by
  have hi' := position?_of_getElem? h hi
  have hj' := position?_of_getElem? h hj
  rw [e, hj'] at hi'
  exact (Option.some.inj hi').symm

theorem checkHolder_eq_ok_iff (h : t.Indexed) {parent : NodeId} :
    t.checkHolder parent = .ok () ↔ CanHold t.nodes parent := by
  unfold checkHolder CanHold
  by_cases hz : parent = 0
  · simp [hz]
  · rw [if_neg hz]
    cases hf : t.find? parent with
    | none =>
      rw [find?_eq_none_iff h] at hf
      simp only [reduceCtorEq, false_iff, hz, false_or, not_exists, not_and]
      exact fun p hp e => absurd e (hf p hp)
    | some p =>
      obtain ⟨hp, hid⟩ := (find?_eq_some_iff h).1 hf
      simp only [hz, false_or]
      constructor
      · intro hk
        by_cases hk' : p.kind.canHold
        · exact ⟨p, hp, hid, hk'⟩
        · simp [hk'] at hk
      · rintro ⟨q, hq, hqid, hqk⟩
        obtain rfl := List.inj_on_of_nodup_map h.nodup hp hq (hid.trans hqid.symm)
        simp [hqk]

/-! ## Children -/

theorem insertByKey_perm (key : Nat → UInt64) (i : Nat) (js : List Nat) : (insertByKey key i js).Perm (i :: js) := by
  induction js with
  | nil => exact .refl _
  | cons j rest ih =>
    rw [insertByKey]
    split_ifs
    · exact .refl _
    · exact (ih.cons j).trans (.swap i j rest)

theorem sortByKey_perm (key : Nat → UInt64) (js : List Nat) : (sortByKey key js).Perm js := by
  induction js with
  | nil => exact .refl _
  | cons j rest ih => exact (insertByKey_perm key j _).trans (ih.cons j)

theorem mem_children {parent : NodeId} {i : Nat} :
    i ∈ t.children parent ↔ ∃ n, t.nodes[i]? = some n ∧ n.parent = parent := by
  rw [children, (sortByKey_perm _ _).mem_iff, heldBy, List.mem_filter, List.mem_range, Option.any_eq_true]
  simp only [beq_iff_eq]
  constructor
  · exact fun h => h.2
  · rintro ⟨n, hn, hp⟩
    exact ⟨(List.getElem?_eq_some_iff.1 hn).1, n, hn, hp⟩

theorem children_isEmpty_iff {parent : NodeId} :
    (t.children parent).isEmpty = true ↔ ∀ n ∈ t.nodes, n.parent ≠ parent := by
  rw [List.isEmpty_iff, List.eq_nil_iff_forall_not_mem]
  constructor
  · intro h n hn e
    obtain ⟨i, hi⟩ := List.mem_iff_getElem?.1 hn
    exact h i (mem_children.2 ⟨n, hi, e⟩)
  · intro h i hi
    obtain ⟨n, hn, e⟩ := mem_children.1 hi
    exact h n (List.mem_of_getElem? hn) e

/-! ## The way up -/

theorem liesAbove_of_meets (h : t.Indexed) {a : NodeId} {steps : Nat} {id : NodeId} (hm : t.meets a steps id = true) :
    LiesAbove t.nodes a id := by
  induction steps generalizing id with
  | zero => simp [meets] at hm
  | succ steps ih =>
    rw [meets] at hm
    by_cases e : id = a
    · exact e ▸ .self
    · rw [if_neg e] at hm
      cases hf : t.find? id with
      | none => simp [hf] at hm
      | some n =>
        obtain ⟨hn, rfl⟩ := (find?_eq_some_iff h).1 hf
        simp only [hf] at hm
        by_cases hz : n.parent = 0
        · simp [hz] at hm
        · rw [if_neg hz] at hm
          exact .up hn hz (ih hm)

theorem meets_of_liesAbove (h : t.Formed) {depth : NodeId → Nat}
    (hd : ∀ n ∈ t.nodes, n.parent ≠ 0 → depth n.parent < depth n.id) {a : NodeId} {steps : Nat} {id : NodeId}
    (hs : depth id < steps) (hab : LiesAbove t.nodes a id) : t.meets a steps id = true := by
  induction steps generalizing id with
  | zero => omega
  | succ steps ih =>
    rw [meets]
    by_cases e : id = a
    · rw [if_pos e]
    · rw [if_neg e]
      obtain ⟨n, hn, rfl, hz, hab⟩ := hab.eq_or_exists_node.resolve_left e
      have hlt := hd n hn hz
      simp only [(find?_eq_some_iff h.indexed).2 ⟨hn, rfl⟩, hz, if_false]
      exact ih (by omega) hab

/-- **The walk upwards decides what lies above what.** -/
theorem liesAbove_iff (h : t.Formed) {a id : NodeId} : t.liesAbove a id = true ↔ LiesAbove t.nodes a id := by
  refine ⟨liesAbove_of_meets h.indexed, fun hab => ?_⟩
  obtain ⟨depth, hlen, hd⟩ := h.forest.exists_depth
  by_cases hid : ∃ n ∈ t.nodes, n.id = id
  · obtain ⟨n, hn, rfl⟩ := hid
    exact meets_of_liesAbove h hd (Nat.lt_succ_of_lt (hlen n hn)) hab
  · rcases hab.eq_or_exists_node with e | ⟨n, hn, e, -⟩
    · rw [liesAbove, meets, if_pos e]
    · exact absurd ⟨n, hn, e⟩ hid

/-- A walk upwards that does not meet `id` and comes to its end starts at a rooted node. -/
theorem rooted_of_climbsTo_eq_false (h : t.Indexed) (hh : ∀ n ∈ t.nodes, CanHold t.nodes n.parent) {id : NodeId}
    {steps : Nat} {n : Node} (hn : n ∈ t.nodes) (hc : t.climbsTo id steps (t.parentOf n.id) = false) :
    Rooted t.nodes n.id := by
  induction steps generalizing n with
  | zero => simp [climbsTo] at hc
  | succ steps ih =>
    have hp : t.parentOf n.id = n.parent := by rw [parentOf, (find?_eq_some_iff h).2 ⟨hn, rfl⟩]; rfl
    rw [hp, climbsTo] at hc
    rcases hh n hn with hz | ⟨p, hpm, hpid, -⟩
    · exact .root hn hz
    · by_cases hz : n.parent = 0
      · exact .root hn hz
      · rw [if_neg hz] at hc
        by_cases e : n.parent = id
        · simp [e] at hc
        · rw [if_neg e, ← hpid] at hc
          exact .held hn (hpid ▸ ih hpm hc)

end ByteAtlas.Tree
