/-
A definition and its copy read the same.

The copies of a definition stand in a tree in the order of its outline, so their outline is its image
(`Casts.outline_eq`), and they mirror it (`Casts.mirrors`). What is left are the references. Those that stay inside follow
the copy, and those that leave it come to root structs of their names. The one name for which this makes a difference is
that of the definition itself: it comes to the copy, which is inside (`refersTo_copied_iff`).

- `Tree.items_adopted`: a definition that was brought along has the canonical form of the original if and only if nothing
  that it refers to under its own name lies outside it.
- `Tree.digest_adopted_twins`: where this fails, a definition and its copy are told to disagree.
-/
import ByteAtlas.Definition.Rivals
import ByteAtlas.Proofs.Definition.Canonical
import ByteAtlas.Proofs.Definition.Names
import ByteAtlas.Proofs.Tree.Replica

namespace ByteAtlas

namespace Adoption

open Definition (RefersTo Mirrors)

variable {src u : Tree} {r : Node} {ids : List (NodeId × NodeId)} {pairs : List (Node × Node)}
  {linked : String → NodeId → Prop} {before after : List Node} {σ : Node → Node}

/-! ## Copies within a tree -/

/-- copies of a definition in a tree, in the order of its outline; no other node is held by one of them -/
structure Placed (u : Tree) (pairs : List (Node × Node)) (before after : List Node) (σ : Node → Node) : Prop where
  formed : u.Formed
  nodes : u.nodes = before ++ (pairs.map Prod.snd ++ after)
  before : ∀ m ∈ before, ∀ p ∈ pairs, m.parent ≠ p.2.id
  after : ∀ m ∈ after, ∀ p ∈ pairs, m.parent ≠ p.2.id
  image : ∀ p ∈ pairs, σ p.1 = p.2

theorem Placed.mem_nodes (hp : Placed u pairs before after σ) {p : Node × Node} (hmem : p ∈ pairs) : p.2 ∈ u.nodes := by
  rw [hp.nodes]
  exact List.mem_append_right _ (List.mem_append_left _ (List.mem_map_of_mem hmem))

theorem Placed.eq_of_id_eq (hp : Placed u pairs before after σ) {p q : Node × Node} (hmem : p ∈ pairs) (hq : q ∈ pairs)
    (e : p.2.id = q.2.id) : p = q := by
  have hsub : (pairs.map Prod.snd).Sublist u.nodes := by
    rw [hp.nodes]
    exact (List.sublist_append_left _ _).trans (List.sublist_append_right _ _)
  have hd : (pairs.map fun p => p.2.id).Nodup := by
    have hids := hp.formed.forest.distinct.sublist (hsub.map (·.id))
    rwa [List.map_map] at hids
  exact List.inj_on_of_nodup_map hd hmem hq e

namespace Casts

variable (hc : Casts src r ids pairs linked) (hp : Placed u pairs before after σ)

include hc

theorem map_fst_eq_outline : pairs.map Prod.fst = src.outline r := by
  rw [hc.originals, Tree.definition_eq_outline hc.formed hc.root]

theorem exists_pair_of_mem_outline {n : Node} (hn : n ∈ src.outline r) : ∃ p ∈ pairs, p.1 = n :=
  List.mem_map.1 (hc.map_fst_eq_outline ▸ hn)

theorem exists_pair_root : ∃ p ∈ pairs, p.1 = r :=
  hc.exists_pair_of_mem_outline (Tree.root_mem_outline hc.formed hc.root)

theorem offset_eq {p : Node × Node} (hmem : p ∈ pairs) : p.2.offset = p.1.offset := by
  obtain ⟨k, hk, -⟩ := hc.exists_place hmem
  rw [hk.cast]
  rfl

include hp

theorem map_snd_eq : pairs.map Prod.snd = (src.outline r).map σ := by
  rw [← hc.map_fst_eq_outline, List.map_map]
  exact List.map_congr_left fun p hmem => (hp.image p hmem).symm

/-- what holds a copy is the copy of what holds the original -/
theorem parent_eq_iff {p q : Node × Node} (hmem : p ∈ pairs) (hq : q ∈ pairs) :
    p.2.parent = q.2.id ↔ p.1.parent = q.1.id := by
  have hqz : q.2.id ≠ 0 := hp.formed.forest.nonzero q.2 (hp.mem_nodes hq)
  by_cases hroot : p.1.id = r.id
  · obtain ⟨hsrc, hab⟩ := hc.original hq
    refine iff_of_false (fun e => hqz ?_) fun e => ?_
    · obtain ⟨k, hk, hk0⟩ := hc.exists_place hmem
      rw [← e, hk.cast, hk0.2 hroot]
      rfl
    · -- the root is not held by what lies below it
      have hone := hc.formed.forest.eq_of_id_eq (hc.original hmem).1 hc.root hroot
      rw [hone] at e
      exact hc.formed.forest.not_liesAbove_parent hc.root (e ▸ hc.formed.forest.nonzero q.1 hsrc) (e ▸ hab)
  · obtain ⟨a, ha, haid, hparent⟩ := hc.held hmem hroot
    rw [hparent, ← haid]
    constructor
    · exact fun e => congrArg (·.1.id) (hp.eq_of_id_eq ha hq e)
    · intro e
      rw [hc.id_eq ha, hc.id_eq hq, e]

/-- the copies are a replica of the definition -/
theorem replicates : Tree.Replicates src r u σ where
  formed := hp.formed
  nodes := by
    refine ⟨before, after, by rw [hp.nodes, hc.map_snd_eq hp], fun m hm n hn => ?_⟩
    obtain ⟨q, hq, rfl⟩ := hc.exists_pair_of_mem_outline hn
    rw [hp.image q hq]
    exact (List.mem_append.1 hm).elim (fun hm => hp.before m hm q hq) fun hm => hp.after m hm q hq
  parents n hn a ha := by
    obtain ⟨p, hmem, rfl⟩ := hc.exists_pair_of_mem_outline hn
    obtain ⟨q, hq, rfl⟩ := hc.exists_pair_of_mem_outline ha
    rw [hp.image p hmem, hp.image q hq]
    exact hc.parent_eq_iff hp hmem hq
  offsets n hn _ := by
    obtain ⟨p, hmem, rfl⟩ := hc.exists_pair_of_mem_outline hn
    rw [hp.image p hmem, hc.offset_eq hmem]

/-- the copy of the root stands in the tree -/
theorem root_mem_nodes : σ r ∈ u.nodes := (hc.replicates hp).mem_nodes (Tree.root_mem_outline hc.formed hc.root)

/-- it has the new id of the root and the same type name -/
theorem id_root : (σ r).id = (ids.lookup r.id).getD 0 := by
  obtain ⟨p, hmem, e⟩ := hc.exists_pair_root
  rw [← e, hp.image p hmem, hc.id_eq hmem]

theorem typeName_root : (σ r).typeName = r.typeName := by
  obtain ⟨p, hmem, e⟩ := hc.exists_pair_root
  obtain ⟨k, hk, -⟩ := hc.exists_place hmem
  rw [← e, hp.image p hmem, hk.cast]
  rfl

/-- **The outline of a copy is the copy of the outline.** -/
theorem outline_eq : u.outline (σ r) = (src.outline r).map σ :=
  (hc.replicates hp).outline_eq hc.formed hc.root

/-- but for their references, copies read like their originals -/
theorem mirrors : Mirrors src r σ where
  fields := by
    intro n hn
    obtain ⟨p, hmem, rfl⟩ := hc.exists_pair_of_mem_outline hn
    obtain ⟨k, hk, -⟩ := hc.exists_place hmem
    rw [hp.image p hmem, hk.cast]
    exact ⟨rfl, rfl, rfl, rfl, rfl⟩
  labels := by
    intro n hn _
    obtain ⟨p, hmem, rfl⟩ := hc.exists_pair_of_mem_outline hn
    obtain ⟨k, hk, -⟩ := hc.exists_place hmem
    rw [hp.image p hmem, hk.cast]
    exact ⟨rfl, rfl⟩
  parents := by
    intro n hn _ a ha e
    obtain ⟨p, hmem, rfl⟩ := hc.exists_pair_of_mem_outline hn
    obtain ⟨q, hq, rfl⟩ := hc.exists_pair_of_mem_outline ha
    rw [hp.image p hmem, hp.image q hq]
    exact ((hc.parent_eq_iff hp hmem hq).2 e.symm).symm

end Casts

end Adoption

/-! ## References -/

/-- what a definition refers to under a name lies within it -/
def Tree.KeepsName (t : Tree) (root : NodeId) (name : String) : Prop :=
  ∀ n ∈ t.definition root, ∀ q ∈ t.nodes, q.id = n.ref → q.typeName = name → q ∈ t.definition root

instance (t : Tree) (root : NodeId) (name : String) : Decidable (t.KeepsName root name) :=
  inferInstanceAs (Decidable (∀ n ∈ t.definition root, ∀ q ∈ t.nodes, _ → _ → _))

namespace Adoption

open Definition (RefersTo Target SameShape)

variable {src u : Tree} {r : Node} {ids : List (NodeId × NodeId)} {pairs : List (Node × Node)}
  {before after : List Node} {σ : Node → Node} {name : String}

/-- the one root in the outline of a root is that root -/
theorem eq_of_mem_outline {t : Tree} (h : t.Formed) {m : Node} (hr : r ∈ t.nodes) (hm : m ∈ t.outline r)
    (hroot : m.isRoot) : m = r := by
  obtain ⟨hmem, hab⟩ := (Tree.mem_outline h hr).1 hm
  rcases hab.eq_or_exists_node with e | ⟨q, hq, hqid, hz, -⟩
  · exact h.forest.eq_of_id_eq hmem hr e
  · obtain rfl := h.forest.eq_of_id_eq hq hmem hqid
    exact absurd (beq_iff_eq.1 hroot) hz

/-- where a reference leaves the definition, its copy is what the name comes to -/
theorem linked_of_leaves {linked : String → NodeId → Prop} (hc : Casts src r ids pairs linked) {p : Node × Node}
    (hmem : p ∈ pairs) {q : Node} (hq : q ∈ src.nodes) (e : q.id = p.1.ref) (hout : q ∉ src.outline r) :
    linked q.typeName p.2.ref := by
  have hno : ∀ a ∈ pairs, p.1.ref ≠ a.1.id := by
    intro a ha e'
    have hsame := hc.formed.forest.eq_of_id_eq hq (hc.original ha).1 (e.trans e')
    exact hout (hsame ▸ (Tree.mem_outline hc.formed hc.root).2 (hc.original ha))
  have hlinked := hc.outward hmem hno
  rw [← e, Tree.typeNameOf_of_mem hc.formed hq] at hlinked
  exact hlinked

/-- the copy of a reference to nothing comes to nothing -/
theorem ref_eq_zero {linked : String → NodeId → Prop} (hc : Casts src r ids pairs linked) {p : Node × Node}
    (hmem : p ∈ pairs) (hno : p.1.ref = 0 ∨ ∀ q ∈ src.nodes, q.id ≠ p.1.ref) : p.2.ref = 0 := by
  have hout : ∀ a ∈ pairs, p.1.ref ≠ a.1.id := by
    intro a ha e
    rcases hno with hz | hno
    · exact hc.formed.forest.nonzero a.1 (hc.original ha).1 (e.symm.trans hz)
    · exact hno a.1 (hc.original ha).1 e.symm
  have hlinked := hc.outward hmem hout
  rwa [Tree.typeNameOf_eq_none hc.formed.indexed hno] at hlinked

section Names

variable (hc : Casts src r ids pairs (RootAt u.nodes)) (hp : Placed u pairs before after σ)
  (hone : ∀ m ∈ u.nodes, m.isRoot → m.kind = .struct → m.typeName = name → m = σ r) (hname : (σ r).typeName = name)

include hc hp

include hname in
/-- but for the name of the definition, a reference and its copy come to the same -/
theorem refersTo_copied {p : Node × Node} (hmem : p ∈ pairs)
    (hkeeps : ∀ q ∈ src.nodes, q.id = p.1.ref → q.typeName = name → q ∈ src.outline r) {x : Target}
    (hx : RefersTo src (src.outline r) p.1.ref x) : RefersTo u (u.outline (σ r)) p.2.ref x := by
  have hroot := hc.root_mem_nodes hp
  cases hx with
  | nothing hno => exact .nothing (Or.inl (ref_eq_zero hc hmem hno))
  | @inside k q hq e =>
    obtain ⟨a, ha, rfl⟩ := hc.exists_pair_of_mem_outline (List.mem_of_getElem? hq)
    refine .inside (n := a.2) ?_ (hc.inward hmem ha e.symm).symm
    rw [hc.outline_eq hp, List.getElem?_map, hq, Option.map_some, hp.image a ha]
  | @named q hq e hout =>
    have hnot : q ∉ src.outline r := fun hin => hout q hin e
    obtain ⟨m, hm, hmid, hmroot, hmkind, hmname⟩ := linked_of_leaves hc hmem hq e hnot
    rw [← hmname]
    refine .named hm hmid fun a ha e' => ?_
    -- the one root within the copy is the copy of the root, and it has the name that nothing outside is referred to by
    have hsame := hp.formed.forest.eq_of_id_eq ((Tree.mem_outline hp.formed hroot).1 ha).1 hm (e'.trans hmid.symm)
    have htop := eq_of_mem_outline hp.formed hroot (hsame ▸ ha) hmroot
    rw [htop, hname] at hmname
    exact hnot (hkeeps q hq e hmname.symm)

include hone in
/-- if a reference under the name of the definition comes to the same as its copy, it stays inside: what the copy comes to
is the copy of the root -/
theorem mem_outline_of_refersTo {p : Node × Node} (hmem : p ∈ pairs) {x : Target}
    (hx : RefersTo src (src.outline r) p.1.ref x) (hx' : RefersTo u (u.outline (σ r)) p.2.ref x) {q : Node}
    (hq : q ∈ src.nodes) (e : q.id = p.1.ref) (hqname : q.typeName = name) : q ∈ src.outline r := by
  have hroot := hc.root_mem_nodes hp
  by_contra hout
  obtain ⟨m, hm, hmid, hmroot, hmkind, hmname⟩ := linked_of_leaves hc hmem hq e hout
  rw [hone m hm hmroot hmkind (hmname.trans hqname)] at hmid
  have hnamed : RefersTo src (src.outline r) p.1.ref (.named q.typeName) := by
    refine .named hq e fun a ha e' => hout ?_
    rwa [hc.formed.forest.eq_of_id_eq hq ((Tree.mem_outline hc.formed hc.root).1 ha).1 (e.trans e'.symm)]
  have hinside : RefersTo u (u.outline (σ r)) p.2.ref (.inside 0) := by
    refine .inside (n := σ r) ?_ hmid
    rw [Tree.outline_eq_cons hp.formed hroot]
    rfl
  have hsame := (Definition.refersTo_unique hc.formed hc.root hnamed hx).trans
    (Definition.refersTo_unique hp.formed hroot hx' hinside)
  exact absurd hsame (by simp)

include hone hname

/-- **A reference and its copy come to the same, unless the name that it leaves under is that of the copy.** References that
leave come to root structs of their names, and the copy is the one root struct of its own. -/
theorem refersTo_copied_iff {n : Node} (hn : n ∈ src.outline r) :
    (∃ x, RefersTo src (src.outline r) n.ref x ∧ RefersTo u (u.outline (σ r)) (σ n).ref x) ↔
      ∀ q ∈ src.nodes, q.id = n.ref → q.typeName = name → q ∈ src.outline r := by
  obtain ⟨p, hmem, rfl⟩ := hc.exists_pair_of_mem_outline hn
  rw [hp.image p hmem]
  constructor
  · rintro ⟨x, hx, hx'⟩ q hq e hqname
    exact mem_outline_of_refersTo hc hp hone hmem hx hx' hq e hqname
  · intro hkeeps
    obtain ⟨x, hx⟩ := Definition.exists_refersTo src (src.outline r) p.1.ref
    exact ⟨x, hx, refersTo_copied hc hp hname hmem hkeeps hx⟩

/-- **A copy has the shape of its original if and only if the original keeps its name.** -/
theorem sameShape_copied_iff : SameShape src r u (σ r) ↔ src.KeepsName r.id name := by
  rw [(hc.mirrors hp).sameShape_iff hc.formed hc.root (hc.outline_eq hp), Tree.KeepsName,
    Tree.definition_eq_outline hc.formed hc.root]
  exact forall_congr' fun n => forall_congr' fun hn => refersTo_copied_iff hc hp hone hname hn

end Names

/-! ## Where the copies stand -/

variable {t : Tree} {others : List Tree} {d : Draft} {id : NodeId} {origin : Nat}

/-- a name is copied only if the tree lacks it, and then everything that leaves its definition was followed -/
theorem following_of_copied (hothers : ∀ o ∈ others, o.Formed) {depth : Nat} (hd : Draft.Sane t others d)
    (hdepth : unplanned others d < depth) (hcopied : (resolve others depth d name).1 = .copied id origin) :
    d.tree.rootNamed? name = none ∧ ∃ src root, others[origin]? = some src ∧ src.rootNamed? name = some root ∧
      ((newIds d src root).1.lookup root).getD 0 = id ∧
      Following t others d src root [] (resolve others depth d name).2 := by
  cases depth with
  | zero => omega
  | succ depth =>
    cases hlocal : d.tree.rootNamed? name with
    | some found => simp [resolve, hlocal] at hcopied
    | none =>
      cases hplanned : d.planned.lookup name with
      | some found => simp [resolve, hlocal, hplanned] at hcopied
      | none =>
        cases hfind : firstDefining name 0 others with
        | none => simp [resolve, hlocal, hplanned, hfind] at hcopied
        | some found =>
          obtain ⟨place, src, root⟩ := found
          obtain ⟨hsrc, hroot⟩ := firstDefining_some hfind
          rw [resolve_copied hlocal hplanned hfind] at hcopied ⊢
          obtain ⟨rfl, rfl⟩ := Resolution.copied.inj hcopied
          have hlt : unplanned others (d.opened name src root) < depth :=
            Nat.lt_of_lt_of_le (unplanned_opened_lt hplanned hsrc hroot) (Nat.le_of_lt_succ hdepth)
          obtain ⟨hfollowing, -⟩ := (following_opened hd (hothers src hsrc) hsrc hroot).foldl (List.Subset.refl _) hlt
            fun d' hd' hdepth' name => resolves hothers hd' hdepth' name
          exact ⟨rfl, src, root, (getElem?_of_firstDefining hfind).2, hroot, rfl, hfollowing⟩

/-- what was looked up while nothing was missing comes to a root struct -/
theorem Settled.rootAt {x : String} {ref : NodeId} (h : Settled t others d x ref) (hall : d.missing = []) :
    RootAt (t.nodes ++ d.nodes) x ref := by
  rcases h with ⟨-, hroot⟩ | ⟨-, hmissing, -⟩
  · exact hroot
  · rw [hall] at hmissing
    exact absurd hmissing List.not_mem_nil

def copyIn (pairs : List (Node × Node)) (n : Node) : Node :=
  ((pairs.find? fun p => p.1.id == n.id).map Prod.snd).getD n

theorem copyIn_eq (hd : (pairs.map fun p => p.1.id).Nodup) {p : Node × Node} (hmem : p ∈ pairs) :
    copyIn pairs p.1 = p.2 := by
  have hsome : (pairs.find? fun q => q.1.id == p.1.id).isSome := List.find?_isSome.2 ⟨p, hmem, beq_self_eq_true _⟩
  obtain ⟨q, hq⟩ := Option.isSome_iff_exists.1 hsome
  have hid : q.1.id = p.1.id := by simpa using List.find?_some hq
  have hsame : q = p := List.inj_on_of_nodup_map hd (List.mem_of_find?_eq_some hq) hmem hid
  rw [copyIn, hq, hsame]
  rfl

/-- the copies of a definition with other copies behind them, appended to a tree: what they hold is among them -/
theorem Casts.placed {linked linked' : String → NodeId → Prop} {copies : List Copy}
    (hc : Casts src r ids pairs linked) (ht : t.Formed)
    (hu : t.insert (pairs.map Prod.snd ++ copies.flatMap Copy.nodes) = .ok u)
    (hcopies : ∀ c ∈ copies, c.Holds others linked') :
    Placed u pairs t.nodes (copies.flatMap Copy.nodes) (copyIn pairs) := by
  have hformed := ht.insert hu
  have hnodes := Tree.nodes_insert hu
  have hdistinct := hformed.forest.distinct
  rw [hnodes, List.map_append, List.map_append, List.nodup_append, List.nodup_append] at hdistinct
  obtain ⟨-, ⟨-, -, happart⟩, hnew⟩ := hdistinct
  have hcopy : ∀ p ∈ pairs, p.2.id ∈ (pairs.map Prod.snd).map (·.id) := fun p hp =>
    List.mem_map_of_mem (List.mem_map_of_mem hp)
  have hnonzero : ∀ p ∈ pairs, p.2.id ≠ 0 := by
    intro p hp
    refine hformed.forest.nonzero p.2 ?_
    rw [hnodes]
    exact List.mem_append_right _ (List.mem_append_left _ (List.mem_map_of_mem hp))
  refine ⟨hformed, hnodes, fun m hm p hp e => ?_, fun m hm p hp e => ?_, fun p hp => copyIn_eq ?_ hp⟩
  · -- the nodes of the tree are held by each other
    rcases ht.forest.held m hm with hz | ⟨q, hq, hqid, -⟩
    · exact hnonzero p hp (e.symm.trans hz)
    · exact hnew q.id (List.mem_map_of_mem hq) p.2.id (List.mem_append_left _ (hcopy p hp)) (hqid.trans e)
  · -- and so are the other copies
    obtain ⟨c, hcin, hmc⟩ := List.mem_flatMap.1 hm
    obtain ⟨q, hq, rfl⟩ := List.mem_map.1 hmc
    by_cases hroot : q.1.id = c.root
    · exact hnonzero p hp (e.symm.trans ((hcopies c hcin).top q hq hroot))
    · obtain ⟨q', hq', -, hparent⟩ := (hcopies c hcin).held q hq hroot
      have hmem : q'.2 ∈ copies.flatMap Copy.nodes := List.mem_flatMap.2 ⟨c, hcin, List.mem_map_of_mem hq'⟩
      exact happart p.2.id (hcopy p hp) q'.2.id (List.mem_map_of_mem hmem) (e.symm.trans hparent)
  · have hnodup := Tree.nodup_map_id_definition hc.formed r.id
    rwa [← hc.originals, List.map_map] at hnodup

end Adoption

/-! ## Definitions that are brought along -/

namespace Tree

open Adoption

variable {t : Tree} {others : List Tree} {name : String} {id : NodeId} {origin : Nat}

/-- if a name is copied and nothing is left unresolved, the planned nodes are the copies of its definition and then
those of others -/
theorem casts_planAdoption (hothers : ∀ o ∈ others, o.Formed)
    (hcopied : (t.planAdoption others name).1.resolution = .copied id origin)
    (hall : (t.planAdoption others name).1.unresolved = []) :
    t.rootNamed? name = none ∧ ∃ (src : Tree) (r : Node) (ids : List (NodeId × NodeId)) (pairs : List (Node × Node))
      (copies : List Copy), others[origin]? = some src ∧ src.rootNamed? name = some r.id ∧
      (ids.lookup r.id).getD 0 = id ∧
      Casts src r ids pairs (RootAt (t.nodes ++ (t.planAdoption others name).1.nodes)) ∧
      (t.planAdoption others name).1.nodes = pairs.map Prod.snd ++ copies.flatMap Copy.nodes ∧
      ∀ c ∈ copies, c.Holds others (RootAt (t.nodes ++ (t.planAdoption others name).1.nodes)) := by
  have hsane : Draft.Sane t others ⟨t, [], [], []⟩ := ⟨.refl t, by simp, by simp, fun _ => ⟨rfl, rfl⟩⟩
  have hdepth : unplanned others ⟨t, [], [], []⟩ < (others.flatMap (·.nodes)).length + 2 :=
    Nat.lt_of_le_of_lt (List.length_filter_le _ _) (by omega)
  obtain ⟨hnone, src, root, hplace, hroot, hid, -, pairs, copies, hnodes, hfst, hfits, hcopies⟩ :=
    following_of_copied hothers hsane hdepth hcopied
  obtain ⟨r, hr, rfl, -⟩ := rootAt_of_rootNamed? hroot
  refine ⟨hnone, src, r, _, pairs, copies, hplace, hroot, hid, ?_, hnodes, fun c hc => ?_⟩
  · refine ⟨hothers src (List.mem_of_getElem? hplace), hr, map_fst_newIds _ src r.id, hfst, fun k p hp => ?_⟩
    refine (hfits k p hp).mono fun x _ hx => ?_
    exact (hx.resolve_left fun hno => absurd hno.2 List.not_mem_nil).rootAt hall
  · exact (hcopies c hc).mono fun x ref hx => hx.rootAt hall

/-- definitions with the same canonical form have the same digest -/
theorem digest_eq_of_items_eq {u : Tree} {a b : NodeId} (h : t.items a = u.items b) : t.digest a = u.digest b := by
  rw [digest, digest, canonicalBytes, canonicalBytes, h]

/-- two trees disagree about a name if and only if the digests of their definitions differ -/
theorem disagreement?_eq_none_iff {o : Tree} {a b : NodeId} {x y : Bytes} (ha : t.rootNamed? name = some a)
    (hb : o.rootNamed? name = some b) (hx : t.digest a = some x) (hy : o.digest b = some y) :
    t.disagreement? [o] name = none ↔ x = y := by
  have hboth : t.rivals [o] name = [⟨none, a, x⟩, ⟨some 0, b, y⟩] := by simp [rivals, rival?, ha, hb, hx, hy]
  rw [disagreement?, hboth]
  by_cases e : x = y
  · simp [e]
  · simp [e, Ne.symm e]

/-- **A definition that was brought along has the canonical form of the original if and only if the original keeps its
name**: whatever it refers to under its own name lies within it. As long as there are ids the planned nodes are inserted,
and what is found by the name afterwards is the copy. -/
theorem items_adopted (ht : t.WellFormed) (hothers : ∀ o ∈ others, o.WellFormed)
    (hcopied : (t.planAdoption others name).1.resolution = .copied id origin)
    (hall : (t.planAdoption others name).1.unresolved = []) :
    ((t.planAdoption others name).2.nextId.toNat < Word.top →
      (t.planAdoption others name).2.insert (t.planAdoption others name).1.nodes = .ok (t.adoptNow others name).2) ∧
    ∃ src root, others[origin]? = some src ∧ src.rootNamed? name = some root ∧
      ∀ u, (t.planAdoption others name).2.insert (t.planAdoption others name).1.nodes = .ok u →
        u.rootNamed? name = some id ∧ (u.items id = src.items root ↔ src.KeepsName root name) ∧
        (src.KeepsName root name →
          (∃ bytes, u.digest id = some bytes ∧ src.digest root = some bytes) ∧ u.disagreement? [src] name = none) := by
  have hformed : ∀ o ∈ others, o.Formed := fun o ho => (hothers o ho).toFormed
  obtain ⟨hnone, src, r, ids, pairs, copies, hplace, hroot, hid, hc, hplanned, hcopies⟩ :=
    casts_planAdoption hformed hcopied hall
  refine ⟨insert_planAdoption ht hformed name, src, r.id, hplace, hroot, fun u hu => ?_⟩
  obtain rfl : u = (t.adoptNow others name).2 := (insert_eq_ok_iff.1 hu).2
  have hfound : (t.adoptNow others name).2.rootNamed? name = some id := by
    refine rootNamed?_adoptNow ht.positive hformed ?_
    rw [show (t.adoptNow others name).1 = _ from hcopied]
    rfl
  rw [← nodes_adoptNow] at hc
  have hp : Placed (t.adoptNow others name).2 pairs (t.planAdoption others name).2.nodes (copies.flatMap Copy.nodes)
      (copyIn pairs) :=
    hc.placed ((t.spent_planAdoption others name).formed ht.toFormed) (hplanned ▸ hu) hcopies
  have hin := hc.root_mem_nodes hp
  have hcid : (copyIn pairs r).id = id := (hc.id_root hp).trans hid
  have hname : (copyIn pairs r).typeName = name := by
    obtain ⟨m, hm, hmid, -, -, hmname⟩ := rootAt_of_rootNamed? hroot
    rw [hc.typeName_root hp, ← hc.formed.forest.eq_of_id_eq hm hc.root hmid, hmname]
  -- no other root struct has the name
  have hone : ∀ m ∈ (t.adoptNow others name).2.nodes, m.isRoot → m.kind = .struct → m.typeName = name →
      m = copyIn pairs r := by
    intro m hm hmroot hmkind hmname
    have hfirst := rootNamed?_of_mem ((extends_adoptNow ht.positive hformed name).single name (rootNamed?_eq_none_iff.1 hnone))
      (mem_structsNamed.2 ⟨hm, hmroot, hmkind, hmname⟩)
    rw [hfound, Option.some_inj] at hfirst
    exact hp.formed.forest.eq_of_id_eq hm hin (hfirst.symm.trans hcid.symm)
  have hiff : (t.adoptNow others name).2.items id = src.items r.id ↔ src.KeepsName r.id name := by
    rw [eq_comm, ← hcid, Definition.items_eq_iff hc.formed hp.formed hc.root hin]
    exact sameShape_copied_iff hc hp hone hname
  refine ⟨hfound, hiff, fun hkeeps => ?_⟩
  have hbytes : src.digest r.id = some (Blake3.digest (Cbor.list ((src.items r.id).map Definition.Item.bytes))) := by
    rw [digest, canonicalBytes_eq_some hc.formed hc.root, Option.map_some]
  have hsame := (digest_eq_of_items_eq (hiff.2 hkeeps)).trans hbytes
  exact ⟨⟨_, hsame, hbytes⟩, (disagreement?_eq_none_iff hfound hroot hsame hbytes).2 rfl⟩

/-- an owner is copied, and it refers to the pair that is there already -/
theorem items_adopted_owner :
    (pair.planAdoption [pair, chain] "Owner").1.resolution = .copied 4 1 ∧
    (pair.planAdoption [pair, chain] "Owner").1.unresolved = [] ∧ chain.KeepsName 6 "Owner" ∧
    (pair.adoptNow [pair, chain] "Owner").2.rootNamed? "Owner" = some 4 ∧
    (pair.adoptNow [pair, chain] "Owner").2.items 4 = chain.items 6 ∧
    (∃ bytes, (pair.adoptNow [pair, chain] "Owner").2.digest 4 = some bytes ∧ chain.digest 6 = some bytes) ∧
    (pair.adoptNow [pair, chain] "Owner").2.disagreement? [chain] "Owner" = none := by
  have hothers : ∀ o ∈ [pair, chain], o.WellFormed := by
    rw [List.forall_mem_cons, List.forall_mem_singleton]
    exact ⟨wellFormed_ofNodes ofNodes_pair, wellFormed_ofNodes ofNodes_chain⟩
  have hcopied : (pair.planAdoption [pair, chain] "Owner").1.resolution = .copied 4 1 := by decide
  have hnone : (pair.planAdoption [pair, chain] "Owner").1.unresolved = [] := by decide
  obtain ⟨hinsert, src, root, hplace, hroot, hall⟩ :=
    items_adopted (wellFormed_ofNodes ofNodes_pair) hothers hcopied hnone
  obtain rfl : chain = src := Option.some.inj hplace
  obtain rfl : 6 = root := Option.some.inj ((show chain.rootNamed? "Owner" = some 6 by decide).symm.trans hroot)
  obtain ⟨hfound, hiff, hsame⟩ := hall _ (hinsert (by decide))
  have hkeeps : chain.KeepsName 6 "Owner" := by decide
  exact ⟨hcopied, hnone, hkeeps, hfound, hiff.2 hkeeps, hsame hkeeps⟩

/-- two root structs of one name, the first of which refers to the second -/
def twinNodes : List Node :=
  [{ Node.rootStruct "first" "T" with id := 1 }, { Node.field 1 0 .pointer64 "next" with id := 2, ref := 3 },
    { Node.rootStruct "second" "T" with id := 3 }]

def twins : Tree := twinNodes.foldl push (empty 0)

theorem ofNodes_twins : ofNodes 0 twinNodes 1 = .ok twins := rfl

/-- **A definition and its copy are told to disagree.** The first of the twins refers to the second by a name that is also
its own, and the copy of this reference comes to the copy itself. -/
theorem digest_adopted_twins :
    (empty 0).WellFormed ∧ twins.WellFormed ∧
    ((empty 0).planAdoption [twins] "T").1.resolution = .copied 1 0 ∧
    ((empty 0).planAdoption [twins] "T").1.unresolved = [] ∧
    ((empty 0).planAdoption [twins] "T").2.insert ((empty 0).planAdoption [twins] "T").1.nodes =
      .ok ((empty 0).adoptNow [twins] "T").2 ∧
    ((empty 0).adoptNow [twins] "T").2.rootNamed? "T" = some 1 ∧ twins.rootNamed? "T" = some 1 ∧
    ((empty 0).adoptNow [twins] "T").2.digest 1 ≠ twins.digest 1 ∧
    ((empty 0).adoptNow [twins] "T").2.disagreement? [twins] "T" ≠ none := by
  have hcopy : ((empty 0).adoptNow [twins] "T").2.rootNamed? "T" = some 1 := by decide
  have horiginal : twins.rootNamed? "T" = some 1 := by decide
  have hdigest : ((empty 0).adoptNow [twins] "T").2.digest 1 ≠ twins.digest 1 := by decide +kernel
  have hsome : (((empty 0).adoptNow [twins] "T").2.digest 1).isSome ∧ (twins.digest 1).isSome := by decide
  obtain ⟨x, hx⟩ := Option.isSome_iff_exists.1 hsome.1
  obtain ⟨y, hy⟩ := Option.isSome_iff_exists.1 hsome.2
  refine ⟨wellFormed_empty 0, wellFormed_ofNodes ofNodes_twins, by decide, by decide, by decide, hcopy, horiginal,
    hdigest, fun hnone => ?_⟩
  rw [disagreement?_eq_none_iff hcopy horiginal hx hy] at hnone
  exact hdigest (hx.trans (hnone ▸ hy.symm))

end Tree

end ByteAtlas
