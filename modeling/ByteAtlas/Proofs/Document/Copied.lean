/-
Copies within a document: a node and all below it once more, behind the node and under new ids.

- `Tree.copyOf`: what the copy of each node is. References to a node of the definition go to its copy, and all others stay.
- `Tree.insert_copies`: as long as there are ids, the copies are inserted.
- `Tree.replicates_copies`: the copies stand in the new tree as the definition does in the old one.
- `Document.copy_replicates`: a copy has the canonical form of the original, the type name of a root struct apart, if and
  only if no reference of the original names one of the new ids. Such a reference names nothing in the tree that is copied.
- `Document.copy_captures`: where there is one, it comes to nothing in the original and to a node of the copy in the copy.
-/
import ByteAtlas.Proofs.Definition.Fidelity
import ByteAtlas.Proofs.Document.Imports

namespace ByteAtlas

/-! ## New ids -/

namespace Tree

open Definition (Mirrors)

variable {t u : Tree} {r n a : Node} {root id : NodeId} {i k : Nat} {length : UInt64}

/-- a definition is its root and other nodes -/
theorem exists_below (h : t.Formed) (hr : r ∈ t.nodes) :
    ∃ below, t.definition r.id = r :: below ∧ ∀ n ∈ below, n.id ≠ r.id := by
  obtain ⟨below, hcons⟩ := definition_eq_cons h hr
  have hd := nodup_map_id_definition h r.id
  rw [hcons, List.map_cons, List.nodup_cons] at hd
  exact ⟨below, hcons, fun n hn e => hd.1 (e ▸ List.mem_map_of_mem hn)⟩

/-- what holds the others is in it -/
theorem exists_parent_of_mem_definition (h : t.Formed) (hr : r ∈ t.nodes) (hn : n ∈ t.definition r.id) (hne : n.id ≠ r.id) :
    ∃ a ∈ t.definition r.id, a.id = n.parent := by
  rw [definition_eq_outline h hr] at hn ⊢
  obtain ⟨k, hk⟩ := List.mem_iff_getElem?.1 hn
  have hpos : 0 < k := by
    rw [outline_eq_cons h hr] at hk
    refine Nat.pos_of_ne_zero fun hz => hne ?_
    rw [hz] at hk
    rw [Option.some.inj hk]
  obtain ⟨p, a, ha, haid⟩ := Definition.exists_parent h hr hk hpos
  exact ⟨a, List.mem_of_getElem? ha, haid⟩

/-- what an id is in the copy of a definition: a new one if it is the id of a node there, and the same if it is not -/
def freshFor (t : Tree) (root id : NodeId) : NodeId :=
  ((t.renumber ((t.definition root).map (·.id))).1.lookup id).getD id

theorem freshFor_of_not_mem (hid : ∀ n ∈ t.definition root, n.id ≠ id) : t.freshFor root id = id := by
  have hnone : (t.renumber ((t.definition root).map (·.id))).1.lookup id = none := by
    rw [List.lookup_eq_none_iff]
    intro p hp
    have hkey := List.mem_map_of_mem (f := Prod.fst) hp
    rw [map_fst_renumber] at hkey
    obtain ⟨n, hn, e⟩ := List.mem_map.1 hkey
    exact bne_iff_ne.2 fun e' => hid n hn (e.trans e'.symm)
  rw [freshFor, hnone, Option.getD_none]

/-- the nodes of the definition get new ids -/
theorem lookup_freshFor (hn : n ∈ t.definition root) :
    (t.renumber ((t.definition root).map (·.id))).1.lookup n.id = some (t.freshFor root n.id) ∧
      t.nextId ≤ t.freshFor root n.id := by
  obtain ⟨new, hnew, hle⟩ := t.exists_lookup_renumber (List.mem_map_of_mem (f := Node.id) hn)
  have hfresh : t.freshFor root n.id = new := by
    rw [freshFor, hnew, Option.getD_some]
  rw [hfresh]
  exact ⟨hnew, hle⟩

/-- the copy of a node. That of the root stands behind it, and as a struct on the outermost level it gets a name of its
own. -/
def copyOf (t : Tree) (r : Node) (length : UInt64) (n : Node) : Node :=
  let m := { n with id := t.freshFor r.id n.id, parent := t.freshFor r.id n.parent, ref := t.freshFor r.id n.ref }
  if n.id = r.id then
    { m with
      offset := Word.satAdd n.offset length
      structName := if n.isRoot && n.kind == .struct then t.freeName n.typeName else n.structName }
  else m

theorem copyOf_root : t.copyOf r length r = { r with
    id := t.freshFor r.id r.id, parent := t.freshFor r.id r.parent, ref := t.freshFor r.id r.ref,
    offset := Word.satAdd r.offset length,
    structName := if r.isRoot && r.kind == .struct then t.freeName r.typeName else r.structName } := if_pos rfl

theorem copyOf_below (hne : n.id ≠ r.id) : t.copyOf r length n = { n with
    id := t.freshFor r.id n.id, parent := t.freshFor r.id n.parent, ref := t.freshFor r.id n.ref } := if_neg hne

@[simp] theorem copyOf_id : (t.copyOf r length n).id = t.freshFor r.id n.id := by
  unfold copyOf
  split_ifs <;> rfl

@[simp] theorem copyOf_parent : (t.copyOf r length n).parent = t.freshFor r.id n.parent := by
  unfold copyOf
  split_ifs <;> rfl

@[simp] theorem copyOf_ref : (t.copyOf r length n).ref = t.freshFor r.id n.ref := by
  unfold copyOf
  split_ifs <;> rfl

@[simp] theorem copyOf_kind : (t.copyOf r length n).kind = n.kind := by
  unfold copyOf
  split_ifs <;> rfl

/-- but for their references and the name of the root, copies read like their originals -/
theorem mirrors_copies (t : Tree) (r : Node) (length : UInt64) :
    Mirrors t r fun n => { t.copyOf r length n with structName := n.structName } where
  fields n _ := by
    unfold copyOf
    split_ifs <;> exact ⟨rfl, rfl, rfl, rfl, rfl⟩
  labels n _ hne := by
    rw [copyOf_below hne]
    exact ⟨rfl, rfl⟩
  parents n _ _ a _ e := by
    simp only [copyOf_id, copyOf_parent, e]

/-- no reference of a definition names one of the ids that its copies get, which are the next ones -/
def Uncaptured (t : Tree) (root : NodeId) : Prop := ∀ n ∈ t.definition root,
  n.ref.toNat < t.nextId.toNat ∨ t.nextId.toNat + (t.definition root).length ≤ n.ref.toNat

instance (t : Tree) (root : NodeId) : Decidable (t.Uncaptured root) :=
  inferInstanceAs (Decidable (∀ n ∈ t.definition root, _))

def copies (t : Tree) (r : Node) (length : UInt64) : List Node := (t.definition r.id).map (t.copyOf r length)

section Copies

variable (h : t.WellFormed)

include h

/-- a new id is not one that the tree has -/
theorem freshFor_ne (hn : n ∈ t.definition root) : t.freshFor root n.id ≠ 0 ∧ ∀ m ∈ t.nodes, m.id ≠ t.freshFor root n.id := by
  have hle := (lookup_freshFor hn).2
  exact ⟨(UInt64.ne_of_lt (UInt64.lt_of_lt_of_le h.positive hle)).symm, fun m hm =>
    UInt64.ne_of_lt (UInt64.lt_of_lt_of_le (h.below m hm) hle)⟩

/-- nothing comes to be an id of the definition -/
theorem freshFor_ne_id (ha : a ∈ t.definition root) (id : NodeId) : t.freshFor root id ≠ a.id := by
  intro e
  by_cases hin : ∃ n ∈ t.definition root, n.id = id
  · obtain ⟨n, hn, rfl⟩ := hin
    exact (freshFor_ne h hn).2 a (mem_definition_iff h.toFormed |>.1 ha).1 e.symm
  · have hid : t.freshFor root id = id := freshFor_of_not_mem fun n hn e' => hin ⟨n, hn, e'⟩
    exact hin ⟨a, ha, (hid.symm.trans e).symm⟩

/-- the parent of the root stays -/
theorem freshFor_parent_root (hr : r ∈ t.nodes) : t.freshFor r.id r.parent = r.parent := by
  refine freshFor_of_not_mem fun n hn e => ?_
  rw [definition_eq_outline h.toFormed hr] at hn
  exact parent_ne_of_mem_outline h.toFormed hr hn e.symm

/-- a copy is held by what holds the root, or by a copy that stands before it -/
theorem held_copies (hr : r ∈ t.nodes) (hk : (t.copies r length)[k]? = some n) :
    CanHold (t.nodes ++ (t.copies r length).take k) n.parent := by
  rw [copies, List.getElem?_map] at hk
  obtain ⟨m, hm, rfl⟩ := Option.map_eq_some_iff.1 hk
  rw [copyOf_parent]
  rw [definition_eq_outline h.toFormed hr] at hm
  rcases Nat.eq_zero_or_pos k with rfl | hpos
  · rw [outline_eq_cons h.toFormed hr] at hm
    obtain rfl := Option.some.inj hm
    rw [freshFor_parent_root h hr]
    exact (h.forest.held r hr).mono (List.subset_append_left _ _)
  · obtain ⟨p, hp, hpid, hpk⟩ := exists_holder_before h.toFormed hr hm hpos
    refine Or.inr ⟨t.copyOf r length p, List.mem_append_right _ ?_, ?_, ?_⟩
    · rw [copies, definition_eq_outline h.toFormed hr, ← List.map_take]
      exact List.mem_map_of_mem hp
    · rw [copyOf_id, hpid]
    · rwa [copyOf_kind]

variable (hroom : t.nextId.toNat + (t.definition root).length < Word.top)

include hroom

/-- the new ids are the next ones, in order -/
theorem map_freshFor : (t.definition root).map (fun n => (t.freshFor root n.id).toNat) =
    List.range' t.nextId.toNat (t.definition root).length := by
  have hd := nodup_map_id_definition h.toFormed root
  have htop : (t.renumber ((t.definition root).map (·.id))).2.nextId.toNat < Word.top := by
    rw [toNat_nextId_renumber, List.length_map]
    omega
  have hnumbers := (t.renumber_numbers htop).2
  rw [← t.map_fst_renumber ((t.definition root).map (·.id))] at hd
  have hlookup := Adoption.map_lookup_eq hd
  rw [map_fst_renumber, List.map_map] at hlookup
  rw [List.length_map, ← Function.comp_def UInt64.toNat, ← List.map_map, ← hlookup, List.map_map] at hnumbers
  rw [← hnumbers]
  refine List.map_congr_left fun n hn => ?_
  simp only [Function.comp_apply, (lookup_freshFor hn).1, Option.getD_some]

/-- the node at a place of a definition gets the new id at that place -/
theorem toNat_freshFor (hk : (t.definition root)[k]? = some n) :
    (t.freshFor root n.id).toNat = t.nextId.toNat + k := by
  have hplace := congrArg (·[k]?) (map_freshFor h hroom)
  simp only [List.getElem?_map, hk, Option.map_some, List.getElem?_range' (List.getElem?_eq_some_iff.1 hk).1,
    Nat.one_mul] at hplace
  exact Option.some.inj hplace

/-- the new ids are different -/
theorem freshFor_injective (hn : n ∈ t.definition root) (ha : a ∈ t.definition root)
    (e : t.freshFor root n.id = t.freshFor root a.id) : n = a := by
  obtain ⟨k, hk⟩ := List.mem_iff_getElem?.1 hn
  obtain ⟨j, hj⟩ := List.mem_iff_getElem?.1 ha
  have hplace := congrArg UInt64.toNat e
  rw [toNat_freshFor h hroom hk, toNat_freshFor h hroom hj] at hplace
  obtain rfl : k = j := by omega
  exact Option.some.inj (hk.symm.trans hj)

/-- new ids tell nodes of the definition from each other, and from all that a node can be held by or refer to -/
theorem freshFor_eq_iff (ha : a ∈ t.definition root) (hid : id = 0 ∨ ∃ m ∈ t.nodes, m.id = id) :
    t.freshFor root id = t.freshFor root a.id ↔ id = a.id := by
  refine ⟨fun e => ?_, fun e => e ▸ rfl⟩
  by_cases hin : ∃ n ∈ t.definition root, n.id = id
  · obtain ⟨n, hn, rfl⟩ := hin
    rw [freshFor_injective h hroom hn ha e]
  · rw [freshFor_of_not_mem fun n hn e' => hin ⟨n, hn, e'⟩] at e
    obtain ⟨hzero, hnew⟩ := freshFor_ne h ha
    rcases hid with hz | ⟨m, hm, hmid⟩
    · exact absurd (e.symm.trans hz) hzero
    · exact absurd (hmid.trans e) (hnew m hm)

theorem uncaptured_iff : t.Uncaptured root ↔
    ∀ n ∈ t.definition root, ∀ a ∈ t.definition root, n.ref ≠ t.freshFor root a.id := by
  refine forall₂_congr fun n _ => ⟨fun hout a ha e => ?_, fun hno => ?_⟩
  · obtain ⟨k, hk⟩ := List.mem_iff_getElem?.1 ha
    have hlt := (List.getElem?_eq_some_iff.1 hk).1
    rw [e, toNat_freshFor h hroom hk] at hout
    omega
  · by_contra hin
    obtain ⟨a, ha⟩ : ∃ a, (t.definition root)[n.ref.toNat - t.nextId.toNat]? = some a :=
      ⟨_, List.getElem?_eq_getElem (by omega)⟩
    refine hno a (List.mem_of_getElem? ha) (UInt64.toNat_inj.1 ?_)
    rw [toNat_freshFor h hroom ha]
    omega

end Copies

/-! ## The tree with the copies -/

def withCopies (t : Tree) (r : Node) (length : UInt64) : Tree :=
  (t.copies r length).foldl push (t.renumber ((t.definition r.id).map (·.id))).2

theorem nodes_withCopies (t : Tree) (r : Node) (length : UInt64) :
    (t.withCopies r length).nodes = t.nodes ++ t.copies r length := by
  rw [withCopies, nodes_foldl_push, (t.spent_renumber _).nodes]

theorem base_withCopies (t : Tree) (r : Node) (length : UInt64) : (t.withCopies r length).base = t.base := by
  rw [withCopies, base_foldl_push, (t.spent_renumber _).base]

section Inserted

variable (h : t.WellFormed) (hr : r ∈ t.nodes) (hroom : t.nextId.toNat + (t.definition r.id).length < Word.top)

include h hr hroom

/-- **As long as there are ids, copies are inserted.** -/
theorem insert_copies (length : UInt64) : (t.renumber ((t.definition r.id).map (·.id))).2.insert (t.copies r length) =
    .ok (t.withCopies r length) := by
  have hspent := t.spent_renumber ((t.definition r.id).map (·.id))
  have hnodes := hspent.nodes
  have hmem : ∀ m ∈ t.copies r length, ∃ n ∈ t.definition r.id, m.id = t.freshFor r.id n.id := by
    intro m hm
    obtain ⟨n, hn, rfl⟩ := List.mem_map.1 hm
    exact ⟨n, hn, copyOf_id⟩
  have hids : (t.copies r length).map (fun m => m.id.toNat) = List.range' t.nextId.toNat (t.definition r.id).length := by
    rw [copies, List.map_map, ← map_freshFor h hroom]
    exact List.map_congr_left fun n _ => by rw [Function.comp_apply, copyOf_id]
  refine insert_of_held (hspent.formed h.toFormed).indexed ?_ ?_ ?_ ?_
  · rw [hnodes]
    exact fun k n hk => held_copies h hr hk
  · intro m hm
    obtain ⟨n, hn, e⟩ := hmem m hm
    exact e ▸ (freshFor_ne h hn).1
  · intro m hm b hb
    obtain ⟨n, hn, e⟩ := hmem m hm
    exact e ▸ (freshFor_ne h hn).2 b (hnodes ▸ hb)
  · have hnumbers : ((t.copies r length).map fun m => m.id.toNat).Nodup := by
      rw [hids]
      exact List.nodup_range'
    rw [← Function.comp_def UInt64.toNat, ← List.map_map] at hnumbers
    exact hnumbers.of_map _

theorem wellFormed_withCopies (length : UInt64) : (t.withCopies r length).WellFormed := by
  have hspent := t.spent_renumber ((t.definition r.id).map (·.id))
  have hnext : (t.renumber ((t.definition r.id).map (·.id))).2.nextId.toNat =
      t.nextId.toNat + (t.definition r.id).length := by
    rw [toNat_nextId_renumber, List.length_map]
    omega
  -- every new id lies below the next one already
  have hle : (t.withCopies r length).nextId ≤ (t.renumber ((t.definition r.id).map (·.id))).2.nextId := by
    refine nextId_foldl_push_le (UInt64.le_refl _) fun m hm => ?_
    obtain ⟨n, hn, rfl⟩ := List.mem_map.1 hm
    obtain ⟨k, hk⟩ := List.mem_iff_getElem?.1 hn
    have hlt := (List.getElem?_eq_some_iff.1 hk).1
    have hplace := toNat_freshFor h hroom hk
    rw [copyOf_id, UInt64.le_iff_toNat_le, toNat_satAdd_one (by omega), hnext]
    omega
  refine ((hspent.steady h.steady).insert (insert_copies h hr hroom length)).wellFormed ?_
  have hle := UInt64.le_iff_toNat_le.1 hle
  omega

/-- **The copies are a replica of the definition.** -/
theorem replicates_copies (length : UInt64) : Replicates t r (t.withCopies r length) (t.copyOf r length) := by
  have hdef := definition_eq_outline h.toFormed hr
  have hparent : ∀ m ∈ t.nodes, m.parent = 0 ∨ ∃ p ∈ t.nodes, p.id = m.parent := fun m hm =>
    (h.forest.held m hm).imp_right fun ⟨p, hp, hpid, _⟩ => ⟨p, hp, hpid⟩
  refine ⟨(wellFormed_withCopies h hr hroom length).toFormed, ⟨t.nodes, [], ?_, fun m hm n hn e => ?_⟩, fun n hn a ha => ?_,
    fun n _ hne => ?_⟩
  · rw [nodes_withCopies, copies, hdef, List.append_nil]
  · rw [copyOf_id] at e
    obtain ⟨hzero, hnew⟩ := freshFor_ne h (hdef ▸ hn)
    rcases hparent m (by simpa using hm) with hz | ⟨p, hp, hpid⟩
    · exact hzero (e.symm.trans hz)
    · exact hnew p hp (hpid.trans e)
  · rw [copyOf_parent, copyOf_id]
    exact freshFor_eq_iff h hroom (hdef ▸ ha) (hparent n ((mem_outline h.toFormed hr).1 hn).1)
  · rw [copyOf_below hne]

theorem outline_withCopies (length : UInt64) :
    (t.withCopies r length).outline (t.copyOf r length r) = (t.outline r).map (t.copyOf r length) :=
  (replicates_copies h hr hroom length).outline_eq h.toFormed hr

/-- **A reference and its copy come to the same, unless it names one of the new ids.** -/
theorem refersTo_copy_iff (length : UInt64) (n : Node) :
    (∃ x, Definition.RefersTo t (t.outline r) n.ref x ∧
      Definition.RefersTo (t.withCopies r length) ((t.withCopies r length).outline (t.copyOf r length r))
        (t.copyOf r length n).ref x) ↔
    ∀ a ∈ t.definition r.id, n.ref ≠ t.freshFor r.id a.id := by
  have hdef := definition_eq_outline h.toFormed hr
  have hrep := replicates_copies h hr hroom length
  have hroot := hrep.mem_nodes (root_mem_outline h.toFormed hr)
  have ho := outline_withCopies h hr hroom length
  have hmem : ∀ m ∈ t.outline r, m ∈ t.nodes := fun m hm => ((mem_outline h.toFormed hr).1 hm).1
  have hinside : ∀ (p : Nat) (a : Node), (t.outline r)[p]? = some a →
      Definition.RefersTo (t.withCopies r length) ((t.withCopies r length).outline (t.copyOf r length r))
        (t.freshFor r.id a.id) (.inside p) := by
    intro p a ha
    refine .inside (n := t.copyOf r length a) ?_ copyOf_id
    rw [ho, List.getElem?_map, ha, Option.map_some]
  -- an id that no node of the definition has is that of no copy either, unless it is new
  have hout : (∀ a ∈ t.definition r.id, n.ref ≠ t.freshFor r.id a.id) →
      ∀ m ∈ (t.outline r).map (t.copyOf r length), m.id ≠ n.ref := by
    rintro hno m hm e
    obtain ⟨a, ha, rfl⟩ := List.mem_map.1 hm
    exact hno a (hdef ▸ ha) (e.symm.trans copyOf_id)
  rw [copyOf_ref]
  constructor
  · rintro ⟨x, hx, hx'⟩ a ha e
    obtain ⟨hzero, hnew⟩ := freshFor_ne h ha
    have hnothing : Definition.RefersTo t (t.outline r) n.ref .none :=
      .nothing (Or.inr fun m hm e' => hnew m hm (e'.trans e))
    obtain ⟨p, hp⟩ := List.mem_iff_getElem?.1 (hdef ▸ ha)
    have hstays : t.freshFor r.id n.ref = n.ref :=
      freshFor_of_not_mem fun m hm e' => hnew m (hmem m (hdef ▸ hm)) (e'.trans e)
    rw [hstays, e] at hx'
    have hsame := (Definition.refersTo_unique h.toFormed hr hnothing hx).trans
      (Definition.refersTo_unique hrep.formed hroot hx' (hinside p a hp))
    cases hsame
  · intro hno
    obtain ⟨x, hx⟩ := Definition.exists_refersTo t (t.outline r) n.ref
    refine ⟨x, hx, ?_⟩
    cases hx with
    | nothing hnone =>
      have hstays : t.freshFor r.id n.ref = n.ref := freshFor_of_not_mem fun m hm e =>
        hnone.elim (fun hz => h.forest.nonzero m (hmem m (hdef ▸ hm)) (e.trans hz)) fun hnone =>
          hnone m (hmem m (hdef ▸ hm)) e
      rw [hstays]
      refine .nothing (hnone.imp_right fun hnone m hm => ?_)
      rw [nodes_withCopies, copies, hdef] at hm
      exact (List.mem_append.1 hm).elim (hnone m) (hout hno m)
    | @inside p a ha e =>
      rw [← e]
      exact hinside p a ha
    | @named q hq e hleaves =>
      rw [freshFor_of_not_mem fun m hm e' => hleaves m (hdef ▸ hm) e', ho]
      exact .named (by rw [nodes_withCopies]; exact List.mem_append_left _ hq) e (hout hno)

/-- the original is what it was if no reference of it names one of the new ids -/
theorem items_withCopies (length : UInt64) (hno : t.Uncaptured r.id) :
    (t.withCopies r length).items r.id = t.items r.id := by
  rw [uncaptured_iff h hroom] at hno
  have hdef := definition_eq_outline h.toFormed hr
  have hrep := replicates_copies h hr hroom length
  have hu := nodes_withCopies t r length
  have ho : (t.withCopies r length).outline r = t.outline r := by
    refine outline_append h.toFormed hrep.formed hr hu fun m hm n hn => ?_
    obtain ⟨a, -, rfl⟩ := List.mem_map.1 hm
    rw [copyOf_parent]
    exact freshFor_ne_id h (hdef ▸ hn) _
  have hmirrors : Mirrors t r id := ⟨fun _ _ => ⟨rfl, rfl, rfl, rfl, rfl⟩, fun _ _ _ => ⟨rfl, rfl⟩, fun _ _ _ _ _ e => e⟩
  refine ((Definition.items_eq_iff h.toFormed hrep.formed hr (hu ▸ List.mem_append_left _ hr)).2 ?_).symm
  refine (hmirrors.sameShape_iff h.toFormed hr (ho.trans (List.map_id _).symm)).2 fun n hn => ?_
  obtain ⟨x, hx⟩ := Definition.exists_refersTo t (t.outline r) n.ref
  refine ⟨x, hx, ?_⟩
  rw [id_eq, id_eq, ho]
  cases hx with
  | nothing hnone =>
    refine .nothing (hnone.imp_right fun hnone m hm e => ?_)
    rw [hu] at hm
    rcases List.mem_append.1 hm with hm | hm
    · exact hnone m hm e
    · obtain ⟨a, ha, rfl⟩ := List.mem_map.1 hm
      exact hno n (hdef ▸ hn) a ha (e.symm.trans copyOf_id)
  | inside ha e => exact .inside ha e
  | named hq e hleaves => exact .named (hu ▸ List.mem_append_left _ hq) e hleaves

end Inserted

/-- what stands for the nodes of a definition in a copy of it: the same nodes under new ids, held and referred to among
themselves as before. The root stays with its parent, behind the original. -/
structure Copied (t : Tree) (r : Node) (length : UInt64) (σ : Node → Node) : Prop where
  /-- the new ids are the next ones, in order -/
  ids : (t.definition r.id).map (fun n => (σ n).id.toNat) = List.range' t.nextId.toNat (t.definition r.id).length
  fresh : ∀ n ∈ t.definition r.id, (σ n).id ≠ 0 ∧ ∀ m ∈ t.nodes, m.id ≠ (σ n).id
  root : σ r = { r with
    id := (σ r).id, ref := (σ r).ref, offset := Word.satAdd r.offset length,
    structName := if r.isRoot && r.kind == .struct then t.freeName r.typeName else r.structName }
  below : ∀ n ∈ t.definition r.id, n.id ≠ r.id →
    σ n = { n with id := (σ n).id, parent := (σ n).parent, ref := (σ n).ref } ∧
      ∃ a ∈ t.definition r.id, a.id = n.parent ∧ (σ n).parent = (σ a).id
  inward : ∀ n ∈ t.definition r.id, ∀ a ∈ t.definition r.id, a.id = n.ref → (σ n).ref = (σ a).id
  outward : ∀ n ∈ t.definition r.id, (∀ a ∈ t.definition r.id, a.id ≠ n.ref) → (σ n).ref = n.ref

theorem copied_copyOf (h : t.WellFormed) (hr : r ∈ t.nodes)
    (hroom : t.nextId.toNat + (t.definition r.id).length < Word.top) (length : UInt64) :
    t.Copied r length (t.copyOf r length) where
  ids := by simpa only [copyOf_id] using map_freshFor h hroom
  fresh n hn := by
    rw [copyOf_id]
    exact freshFor_ne h hn
  root := by rw [copyOf_root, freshFor_parent_root h hr]
  below n hn hne := by
    obtain ⟨a, ha, haid⟩ := exists_parent_of_mem_definition h.toFormed hr hn hne
    exact ⟨by rw [copyOf_below hne], a, ha, haid, by rw [copyOf_parent, copyOf_id, haid]⟩
  inward n _ a _ e := by rw [copyOf_ref, copyOf_id, e]
  outward n _ hno := by rw [copyOf_ref, freshFor_of_not_mem hno]

/-! ## Canonical forms -/

/-- a canonical form that is given the type name that it has stays -/
theorem retitled_items (h : t.Formed) (hr : r ∈ t.nodes) :
    Definition.retitled r.structName (t.items r.id) = t.items r.id := by
  rw [items, definition_eq_outline h hr, outline_eq_cons h hr]
  rfl

section Canonical

variable (h : t.WellFormed) (hr : r ∈ t.nodes) (hroom : t.nextId.toNat + (t.definition r.id).length < Word.top)

include h hr hroom

theorem items_copy_iff (length : UInt64) :
    (t.withCopies r length).items (t.copyOf r length r).id =
        Definition.retitled (t.copyOf r length r).structName (t.items r.id) ↔ t.Uncaptured r.id := by
  have hrep := replicates_copies h hr hroom length
  have hname : ∀ n ∈ t.outline r, n.id ≠ r.id → (t.copyOf r length n).structName = n.structName := fun n _ hne => by
    rw [copyOf_below hne]
  rw [(mirrors_copies t r length).items_eq_retitled_iff h.toFormed hrep.formed hr
    (hrep.mem_nodes (root_mem_outline h.toFormed hr)) (outline_withCopies h hr hroom length) hname]
  simp only [uncaptured_iff h hroom, refersTo_copy_iff h hr hroom length, definition_eq_outline h.toFormed hr]

/-- the bytes of a copy and of its original, unless the original refers to a new id -/
theorem canonicalBytes_copy (length : UInt64) (hno : t.Uncaptured r.id) :
    (t.withCopies r length).canonicalBytes (t.copyOf r length r).id = some (Cbor.list
        ((Definition.retitled (t.copyOf r length r).structName (t.items r.id)).map Definition.Item.bytes)) ∧
      (t.withCopies r length).canonicalBytes r.id = t.canonicalBytes r.id ∧
      (¬ (r.isRoot ∧ r.kind = .struct) →
        (t.withCopies r length).canonicalBytes (t.copyOf r length r).id = t.canonicalBytes r.id) := by
  have hrep := replicates_copies h hr hroom length
  have hcopy : (t.withCopies r length).canonicalBytes (t.copyOf r length r).id = some (Cbor.list
      ((Definition.retitled (t.copyOf r length r).structName (t.items r.id)).map Definition.Item.bytes)) := by
    rw [canonicalBytes_eq_some hrep.formed (hrep.mem_nodes (root_mem_outline h.toFormed hr)),
      (items_copy_iff h hr hroom length).2 hno]
  refine ⟨hcopy, ?_, fun hplain => ?_⟩
  · rw [canonicalBytes, canonicalBytes, items_withCopies h hr hroom length hno]
  · have hname : (t.copyOf r length r).structName = r.structName := by
      rw [copyOf_root]
      exact if_neg (by simpa using hplain)
    rw [hcopy, hname, retitled_items h.toFormed hr, canonicalBytes_eq_some h.toFormed hr]

end Canonical

end Tree

/-! ## Copying in a document -/

namespace Document

variable {τ : Type} [Transport τ] {d : Document τ} {r : Node} {i : Nat}

/-- copying gives out the new ids and inserts the copies -/
theorem copy_eq (h : d.tree.WellFormed) (hi : d.tree.nodes[i]? = some r) :
    d.copy r.id = (d.withTree (d.tree.renumber ((d.tree.definition r.id).map (·.id))).2).performFor
      (.insert (d.tree.copies r (d.tree.size i))) (d.tree.freshFor r.id r.id) := by
  have hr := List.mem_of_getElem? hi
  obtain ⟨below, hcons, hbelow⟩ := Tree.exists_below h.toFormed hr
  have hspent := d.tree.spent_renumber ((d.tree.definition r.id).map (·.id))
  have hnames : ∀ stem, (d.tree.renumber ((d.tree.definition r.id).map (·.id))).2.freeName stem = d.tree.freeName stem :=
    fun stem => by rw [hspent.same]; rfl
  let ids := (d.tree.renumber ((d.tree.definition r.id).map (·.id))).1
  have hcopies : d.tree.copies r (d.tree.size i) = d.tree.copyOf r (d.tree.size i) r :: below.map (recast ids) := by
    rw [Tree.copies, hcons, List.map_cons]
    exact congrArg _ (List.map_congr_left fun n hn => Tree.copyOf_below (hbelow n hn))
  have hrecast : (d.tree.definition r.id).map (recast ids) = recast ids r :: below.map (recast ids) := by
    rw [hcons, List.map_cons]
  -- the copy of the root is on the outermost level if the root is
  have hroot : recast ids r =
      { r with id := d.tree.freshFor r.id r.id, parent := r.parent, ref := d.tree.freshFor r.id r.ref } := by
    rw [← Tree.freshFor_parent_root h hr]
    rfl
  have hid := (Tree.lookup_freshFor (hcons ▸ List.mem_cons_self : r ∈ d.tree.definition r.id)).1
  simp only [copy, Tree.position?_of_getElem? h.indexed hi, hid, Option.getD_some, hnames, hcopies, Tree.copyOf_root]
  rw [hrecast, hroot, Tree.freshFor_parent_root h hr]
  simp only [Node.isRoot, Node.typeName]
  by_cases hnamed : r.parent == 0 && r.kind == .struct
  · simp only [hnamed, if_true]
  · simp only [hnamed, Bool.false_eq_true, if_false]

/-- **What copying a node does.** As long as there are ids, it is one step of the history, and the definition of the node
stands once more in the tree, behind all nodes and under new ids. Its canonical form is that of the original, with the name
of a root struct changed, if and only if no reference of the original names one of the new ids. -/
theorem copy_replicates (h : d.tree.WellFormed) (hi : d.tree.nodes[i]? = some r)
    (hroom : d.tree.nextId.toNat + (d.tree.definition r.id).length < Word.top) :
    ∃ (u : Tree) (σ : Node → Node),
      (d.copy r.id).1 = .ok (σ r).id ∧ (d.copy r.id).2.scene = ⟨u, d.source⟩ ∧
      (d.copy r.id).2.history = d.history.record (.insert ((d.tree.definition r.id).map σ)) ∧
      u.WellFormed ∧ u.base = d.tree.base ∧ u.nodes = d.tree.nodes ++ (d.tree.definition r.id).map σ ∧
      u.definition (σ r).id = (d.tree.definition r.id).map σ ∧ d.tree.Copied r (d.tree.size i) σ ∧
      (u.items (σ r).id = Definition.retitled (σ r).structName (d.tree.items r.id) ↔ d.tree.Uncaptured r.id) ∧
      (d.tree.Uncaptured r.id →
        u.canonicalBytes (σ r).id = some (Cbor.list
          ((Definition.retitled (σ r).structName (d.tree.items r.id)).map Definition.Item.bytes)) ∧
        u.canonicalBytes r.id = d.tree.canonicalBytes r.id ∧
        (¬ (r.isRoot ∧ r.kind = .struct) → u.canonicalBytes (σ r).id = d.tree.canonicalBytes r.id)) := by
  have hr := List.mem_of_getElem? hi
  have hwell := Tree.wellFormed_withCopies h hr hroom (d.tree.size i)
  have hrep := Tree.replicates_copies h hr hroom (d.tree.size i)
  have hroot := hrep.mem_nodes (Tree.root_mem_outline h.toFormed hr)
  have hdone := performFor_of_perform (perform_insert_of_ok (d := d.withTree (d.tree.renumber _).2)
    (Tree.insert_copies h hr hroom (d.tree.size i))) (d.tree.freshFor r.id r.id)
  have hcopy := copy_eq h hi
  rw [hdone] at hcopy
  refine ⟨d.tree.withCopies r (d.tree.size i), d.tree.copyOf r (d.tree.size i), ?_, ?_, ?_, hwell,
    Tree.base_withCopies .., Tree.nodes_withCopies .., ?_, Tree.copied_copyOf h hr hroom _,
    Tree.items_copy_iff h hr hroom _, Tree.canonicalBytes_copy h hr hroom _⟩
  · rw [hcopy, Tree.copyOf_id]
  · rw [hcopy]
    rfl
  · rw [hcopy]
    rfl
  · rw [Tree.definition_eq_outline hwell.toFormed hroot, Tree.outline_withCopies h hr hroom,
      Tree.definition_eq_outline h.toFormed hr]

/-- the list is copied. Its copy points at itself and at what owns the list, and reads like the list under another name. -/
theorem copy_replicates_owned :
    let d : Document Image := ofTree Tree.owned
    let copies := [{ Node.rootStruct "list" "List1" with id := 10, offset := 16 },
      { Node.field 10 0 .pointer64 "owner" with id := 11, ref := 9 },
      { Node.field 10 8 .pointer64 "next" with id := 12, ref := 10 }]
    d.tree.Uncaptured 1 ∧ (d.copy 1).1 = .ok 10 ∧
    ∃ u, (d.copy 1).2.scene = ⟨u, d.source⟩ ∧ u.WellFormed ∧ u.nodes = Tree.ownedNodes ++ copies ∧ u.definition 10 = copies ∧
      u.canonicalBytes 10 = some (Cbor.list ((Definition.retitled "List1" (d.tree.items 1)).map Definition.Item.bytes)) ∧
      u.canonicalBytes 1 = d.tree.canonicalBytes 1 := by
  intro d copies
  have howned : Tree.ofNodes 0 Tree.ownedNodes 1 = .ok d.tree := rfl
  have huncaptured : d.tree.Uncaptured 1 := by decide
  have hcons : d.tree.definition 1 = Tree.ownedNodes[1] :: [Tree.ownedNodes[3], Tree.ownedNodes[2]] := by decide
  obtain ⟨u, σ, -, hscene, -, hu, -, hnodes, hdef, -, -, hbytes⟩ := copy_replicates (d := d) (i := 1)
    (r := Tree.ownedNodes[1]) (Tree.wellFormed_ofNodes howned) rfl (by decide)
  have hdone : (d.copy 1).2.tree.nodes = Tree.ownedNodes ++ copies := by decide
  have htree : (d.copy 1).2.tree = u := congrArg Scene.tree hscene
  have hcopies : (d.tree.definition 1).map σ = copies := List.append_cancel_left (hnodes.symm.trans (htree ▸ hdone))
  have hroot : σ Tree.ownedNodes[1] = { Node.rootStruct "list" "List1" with id := 10, offset := 16 } := by
    rw [hcons] at hcopies
    exact (List.cons.inj hcopies).1
  obtain ⟨hcopy, hsame, -⟩ := hbytes huncaptured
  rw [hroot] at hcopy hdef
  exact ⟨huncaptured, by decide, u, hscene, hu, htree ▸ hdone, hdef.trans hcopies, hcopy, hsame⟩

/-- a list whose pointer names the next new id, which no node has -/
def strayNodes : List Node :=
  [{ Node.rootStruct "list" "List" with id := 1 }, { Node.field 1 0 .pointer64 "lost" with id := 2, ref := 3 }]

def stray : Tree := strayNodes.foldl Tree.push (Tree.empty 0)

theorem ofNodes_stray : Tree.ofNodes 0 strayNodes 1 = .ok stray := rfl

/-- **A copy need not read like the original.** The pointer points at nothing. Its copy gets the id that it names, and so the
copy points at itself, and the original points at the copy. -/
theorem copy_captures :
    let d : Document Image := ofTree stray
    d.tree.WellFormed ∧ d.tree.nextId.toNat + (d.tree.definition 2).length < Word.top ∧ ¬ d.tree.Uncaptured 2 ∧
    (d.copy 2).1 = .ok 3 ∧ (d.copy 2).2.tree.find? 2 = d.tree.find? 2 ∧
    (d.copy 2).2.tree.canonicalBytes 3 ≠ d.tree.canonicalBytes 2 ∧
    (d.copy 2).2.tree.canonicalBytes 2 ≠ d.tree.canonicalBytes 2 :=
  ⟨Tree.wellFormed_ofNodes ofNodes_stray, by decide, by decide, by decide, by decide, by decide, by decide⟩

end Document

end ByteAtlas
