/-
Copies of definitions. A copy is told node by node beside its original (`Adoption.Copy`), and `Copy.Holds` says what makes
it one: the originals are a root struct and all that lies below it, each once; parents and references inside follow the
copy; references that leave it are what a name comes to; all else is as it was.

`Casts` is what is known of each node by its place in the list while the references are still being completed, and
`Casts.holds` says that this is enough.
-/
import ByteAtlas.Proofs.Definition.Ids
import ByteAtlas.Proofs.Tree.Subtree

namespace ByteAtlas

namespace Tree

variable {t : Tree}

theorem typeNameOf_of_mem (h : t.Formed) {n : Node} (hn : n ∈ t.nodes) : t.typeNameOf n.id = some n.typeName := by
  rw [typeNameOf, if_neg (h.forest.nonzero n hn), (find?_eq_some_iff h.indexed).2 ⟨hn, rfl⟩, Option.map_some]

theorem typeNameOf_eq_none (h : t.Indexed) {id : NodeId} (hno : id = 0 ∨ ∀ n ∈ t.nodes, n.id ≠ id) :
    t.typeNameOf id = none := by
  unfold typeNameOf
  split
  · rfl
  · next hz => rw [(find?_eq_none_iff h).2 (hno.resolve_left hz), Option.map_none]

end Tree

namespace Adoption

/-- nodes of a tree beside their copies -/
structure Copy where
  source : Tree
  root : NodeId
  pairs : List (Node × Node)

def Copy.nodes (c : Copy) : List Node := c.pairs.map Prod.snd

/-- a copy of the definition at a root struct of one of some trees; `linked` tells what a name that leads out of it may
come to -/
structure Copy.Holds (c : Copy) (others : List Tree) (linked : String → NodeId → Prop) : Prop where
  source : c.source ∈ others
  root : ∃ r ∈ c.source.nodes, r.id = c.root ∧ r.isRoot ∧ r.kind = .struct
  /-- no original is there twice -/
  distinct : (c.pairs.map fun p => p.1.id).Nodup
  /-- the originals are the root and all that lies below it -/
  subtree : ∀ o, o ∈ c.pairs.map Prod.fst ↔ o ∈ c.source.nodes ∧ LiesAbove c.source.nodes c.root o.id
  top : ∀ p ∈ c.pairs, p.1.id = c.root → p.2.parent = 0
  held : ∀ p ∈ c.pairs, p.1.id ≠ c.root → ∃ q ∈ c.pairs, q.1.id = p.1.parent ∧ p.2.parent = q.2.id
  inward : ∀ p ∈ c.pairs, ∀ q ∈ c.pairs, p.1.ref = q.1.id → p.2.ref = q.2.id
  outward : ∀ p ∈ c.pairs, (∀ q ∈ c.pairs, p.1.ref ≠ q.1.id) →
    match c.source.typeNameOf p.1.ref with
    | none => p.2.ref = 0
    | some name => linked name p.2.ref
  fields : ∀ p ∈ c.pairs, p.2 = { p.1 with id := p.2.id, parent := p.2.parent, ref := p.2.ref }

theorem Copy.Holds.mono {c : Copy} {others : List Tree} {linked linked' : String → NodeId → Prop}
    (h : c.Holds others linked) (hl : ∀ name ref, linked name ref → linked' name ref) : c.Holds others linked' := by
  refine { h with outward := fun p hp hq => ?_ }
  have hout := h.outward p hp hq
  cases hname : c.source.typeNameOf p.1.ref with
  | none => rwa [hname] at hout
  | some name =>
    rw [hname] at hout
    exact hl name p.2.ref hout

/-- a copy of a definition that was found by its name -/
structure Copy.Drawn (c : Copy) (others : List Tree) (linked : String → NodeId → Prop) : Prop
    extends c.Holds others linked where
  found : ∃ name, c.source.rootNamed? name = some c.root

theorem Copy.Drawn.imp {c : Copy} {others : List Tree} {linked linked' : String → NodeId → Prop}
    (h : c.Drawn others linked) (hl : ∀ name ref, linked name ref → linked' name ref) : c.Drawn others linked' :=
  ⟨h.toHolds.mono hl, h.found⟩

/-! ## Node by node -/

/-- the node at a place of a definition, beside its copy under new ids. Only the reference may differ from the first cast
of it, and only if it leaves the definition. -/
structure Fits (t : Tree) (ids : List (NodeId × NodeId)) (k : Nat) (p : Node × Node) (linked : String → NodeId → Prop) :
    Prop where
  cast : p.2 = { recast ids (k == 0) p.1 with ref := p.2.ref }
  ref : match outward t ids p.1 with
    | none => p.2.ref = (recast ids (k == 0) p.1).ref
    | some name => linked name p.2.ref

theorem Fits.mono {t : Tree} {ids : List (NodeId × NodeId)} {k : Nat} {p : Node × Node}
    {linked linked' : String → NodeId → Prop} (h : Fits t ids k p linked)
    (hl : ∀ name, outward t ids p.1 = some name → linked name p.2.ref → linked' name p.2.ref) :
    Fits t ids k p linked' := by
  refine ⟨h.cast, ?_⟩
  have href := h.ref
  cases hout : outward t ids p.1 with
  | none => rwa [hout] at href
  | some name =>
    rw [hout] at href
    exact hl name hout href

/-- the definition at a root struct, beside its copy under new ids, node by node -/
structure Casts (t : Tree) (r : Node) (ids : List (NodeId × NodeId)) (pairs : List (Node × Node))
    (linked : String → NodeId → Prop) : Prop where
  formed : t.Formed
  root : r ∈ t.nodes
  keys : ids.map Prod.fst = (t.definition r.id).map (·.id)
  originals : pairs.map Prod.fst = t.definition r.id
  fits : ∀ k p, pairs[k]? = some p → Fits t ids k p linked

namespace Casts

variable {t : Tree} {r : Node} {ids : List (NodeId × NodeId)} {pairs : List (Node × Node)}
  {linked : String → NodeId → Prop} {p q : Node × Node}

theorem original (h : Casts t r ids pairs linked) (hp : p ∈ pairs) :
    p.1 ∈ t.nodes ∧ LiesAbove t.nodes r.id p.1.id :=
  (Tree.mem_definition_iff h.formed).1 (h.originals ▸ List.mem_map_of_mem hp)

theorem exists_pair (h : Casts t r ids pairs linked) {n : Node} (hn : n ∈ t.nodes)
    (hab : LiesAbove t.nodes r.id n.id) : ∃ q ∈ pairs, q.1 = n :=
  List.mem_map.1 (h.originals ▸ (Tree.mem_definition_iff h.formed).2 ⟨hn, hab⟩)

theorem lookup_isSome_iff (h : Casts t r ids pairs linked) {id : NodeId} :
    (ids.lookup id).isSome ↔ ∃ q ∈ pairs, q.1.id = id := by
  have hkeys : (ids.lookup id).isSome ↔ id ∈ ids.map Prod.fst := by
    rw [List.lookup_isSome_iff, List.mem_map]
    exact exists_congr fun p => and_congr_right fun _ => beq_iff_eq.trans eq_comm
  rw [hkeys, h.keys, ← h.originals, List.map_map, List.mem_map]
  rfl

/-- every pair has a place, and the first place is that of the root -/
theorem exists_place (h : Casts t r ids pairs linked) (hp : p ∈ pairs) :
    ∃ k, Fits t ids k p linked ∧ (k = 0 ↔ p.1.id = r.id) := by
  obtain ⟨k, hk⟩ := List.mem_iff_getElem?.1 hp
  obtain ⟨rest, hcons⟩ := Tree.definition_eq_cons h.formed h.root
  have hk' : ((t.definition r.id).map (·.id))[k]? = some p.1.id := by
    rw [← h.originals, List.map_map, List.getElem?_map, hk]
    rfl
  have h0 : ((t.definition r.id).map (·.id))[0]? = some r.id := by rw [hcons]; rfl
  refine ⟨k, h.fits k p hk, fun e => ?_, fun e => ?_⟩
  · rw [e, h0] at hk'
    exact (Option.some.inj hk').symm
  · have hnodup := Tree.nodup_map_id_definition h.formed r.id
    refine (List.getElem?_inj (List.getElem?_eq_some_iff.1 hk').1 hnodup).1 ?_
    rw [hk', h0, e]

theorem id_eq (h : Casts t r ids pairs linked) (hp : p ∈ pairs) : p.2.id = (ids.lookup p.1.id).getD 0 := by
  obtain ⟨k, hk, -⟩ := h.exists_place hp
  rw [hk.cast]
  rfl

/-- what holds an original lies below the root as well, and its copy holds the copy -/
theorem held (h : Casts t r ids pairs linked) (hp : p ∈ pairs) (hne : p.1.id ≠ r.id) :
    ∃ q ∈ pairs, q.1.id = p.1.parent ∧ p.2.parent = q.2.id := by
  obtain ⟨k, hk, hk0⟩ := h.exists_place hp
  obtain ⟨hmem, hab⟩ := h.original hp
  obtain ⟨n, hn, hnid, hz, hab⟩ := hab.eq_or_exists_node.resolve_left hne
  obtain rfl := h.formed.forest.eq_of_id_eq hn hmem hnid
  obtain ⟨o, ho, hoid, -⟩ := (h.formed.forest.held p.1 hmem).resolve_left hz
  obtain ⟨q, hq, rfl⟩ := h.exists_pair ho (hoid ▸ hab)
  have hk' : (k == 0) = false := by
    rw [beq_eq_false_iff_ne]
    exact fun e => hne (hk0.1 e)
  refine ⟨q, hq, hoid, ?_⟩
  rw [hk.cast, h.id_eq hq, hoid, recast, hk']
  rfl

theorem inward (h : Casts t r ids pairs linked) (hp : p ∈ pairs) (hq : q ∈ pairs) (e : p.1.ref = q.1.id) :
    p.2.ref = q.2.id := by
  obtain ⟨k, hk, -⟩ := h.exists_place hp
  have hz : p.1.ref ≠ 0 := e ▸ h.formed.forest.nonzero q.1 (h.original hq).1
  have hin : outward t ids p.1 = none := if_pos (Or.inr (h.lookup_isSome_iff.2 ⟨q, hq, e.symm⟩))
  have href := hk.ref
  rw [hin] at href
  rw [show p.2.ref = _ from href, recast, h.id_eq hq, ← e]
  exact if_neg hz

theorem outward (h : Casts t r ids pairs linked) (hp : p ∈ pairs) (hno : ∀ q ∈ pairs, p.1.ref ≠ q.1.id) :
    match t.typeNameOf p.1.ref with
    | none => p.2.ref = 0
    | some name => linked name p.2.ref := by
  obtain ⟨k, hk, -⟩ := h.exists_place hp
  have hlookup : ids.lookup p.1.ref = none := by
    rw [← Option.not_isSome_iff_eq_none, h.lookup_isSome_iff]
    intro hyes
    obtain ⟨q, hq, e⟩ := hyes
    exact hno q hq e.symm
  have hcast : (recast ids (k == 0) p.1).ref = 0 := by simp [recast, hlookup]
  have hout : Adoption.outward t ids p.1 = t.typeNameOf p.1.ref := by
    unfold Adoption.outward
    by_cases hz : p.1.ref = 0
    · rw [if_pos (Or.inl hz), Tree.typeNameOf, if_pos hz]
    · rw [if_neg (by simp [hz, hlookup])]
  have href := hk.ref
  rw [hout, hcast] at href
  exact href

/-- **A definition that is copied node by node is copied.** -/
theorem holds (h : Casts t r ids pairs linked) {others : List Tree} (ht : t ∈ others) (hroot : r.isRoot)
    (hstruct : r.kind = .struct) : (Copy.mk t r.id pairs).Holds others linked where
  source := ht
  root := ⟨r, h.root, rfl, hroot, hstruct⟩
  distinct := by
    have hnodup := Tree.nodup_map_id_definition h.formed r.id
    rw [← h.originals, List.map_map] at hnodup
    exact hnodup
  subtree := by
    intro o
    rw [h.originals]
    exact Tree.mem_definition_iff h.formed
  top := by
    intro p hp e
    obtain ⟨k, hk, hk0⟩ := h.exists_place hp
    rw [hk.cast, hk0.2 e]
    rfl
  held := fun p hp e => h.held hp e
  inward := fun p hp q hq e => h.inward hp hq e
  outward := fun p hp hno => h.outward hp hno
  fields := by
    intro p hp
    obtain ⟨k, hk, -⟩ := h.exists_place hp
    rw [hk.cast]
    rfl

end Casts

end Adoption

end ByteAtlas
