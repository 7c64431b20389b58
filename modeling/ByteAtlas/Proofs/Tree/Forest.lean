/-
Forests: what a list of nodes has to be for its parents to make up a forest. Nothing here depends on the order of the
list or on the map of positions that a tree keeps beside it.

- `Rooted`: the parents of a node, followed upwards, end at a root.
- `LiesAbove`: one node is another or lies on its way up.
- `Forest`: ids are distinct and not zero, parents are there and can hold nodes, every node is rooted.
- `Forest.exists_depth`: the way up from a node is shorter than the list of nodes. All walks of the library take at most
  so many steps, so this is what says that they come to their end.
- `Forest.append`, `Forest.filter`, `Forest.modify`: what adding, removing and changing nodes must respect.
-/
import Mathlib
import ByteAtlas.Node

namespace ByteAtlas

/-- the parents of an id, followed upwards, end at a root -/
inductive Rooted (ns : List Node) : NodeId → Prop
  | root {n : Node} : n ∈ ns → n.parent = 0 → Rooted ns n.id
  | held {n : Node} : n ∈ ns → Rooted ns n.parent → Rooted ns n.id

/-- an id is another one or is met on the way up from it -/
inductive LiesAbove (ns : List Node) (above : NodeId) : NodeId → Prop
  | self : LiesAbove ns above above
  | up {n : Node} : n ∈ ns → n.parent ≠ 0 → LiesAbove ns above n.parent → LiesAbove ns above n.id

/-- what can hold a node: nothing at all, or a struct or an array among the nodes -/
def CanHold (ns : List Node) (parent : NodeId) : Prop := parent = 0 ∨ ∃ p ∈ ns, p.id = parent ∧ p.kind.canHold

/-- a list of nodes whose parents make up a forest -/
structure Forest (ns : List Node) : Prop where
  nonzero : ∀ n ∈ ns, n.id ≠ 0
  distinct : (ns.map (·.id)).Nodup
  held : ∀ n ∈ ns, CanHold ns n.parent
  rooted : ∀ n ∈ ns, Rooted ns n.id

theorem forest_nil : Forest [] := ⟨by simp, by simp, by simp, by simp⟩

theorem CanHold.mono {ns ms : List Node} {parent : NodeId} (h : CanHold ns parent) (hs : ns ⊆ ms) :
    CanHold ms parent := by
  rcases h with h | ⟨p, hp, hid, hk⟩
  · exact Or.inl h
  · exact Or.inr ⟨p, hs hp, hid, hk⟩

theorem Rooted.mono {ns ms : List Node} {id : NodeId} (h : Rooted ns id) (hs : ns ⊆ ms) : Rooted ms id := by
  induction h with
  | root hn hp => exact .root (hs hn) hp
  | held hn _ ih => exact .held (hs hn) ih

theorem Rooted.exists_node {ns : List Node} {id : NodeId} (h : Rooted ns id) : ∃ n ∈ ns, n.id = id := by
  cases h with
  | root hn _ => exact ⟨_, hn, rfl⟩
  | held hn _ => exact ⟨_, hn, rfl⟩

theorem LiesAbove.trans {ns : List Node} {a b c : NodeId} (hab : LiesAbove ns a b) (hbc : LiesAbove ns b c) :
    LiesAbove ns a c := by
  induction hbc with
  | self => exact hab
  | up hn hp _ ih => exact .up hn hp ih

/-- every id that has something else above it names a node -/
theorem LiesAbove.eq_or_exists_node {ns : List Node} {above id : NodeId} (h : LiesAbove ns above id) :
    id = above ∨ ∃ n ∈ ns, n.id = id ∧ n.parent ≠ 0 ∧ LiesAbove ns above n.parent := by
  cases h with
  | self => exact Or.inl rfl
  | up hn hp h => exact Or.inr ⟨_, hn, rfl, hp, h⟩

namespace Forest

variable {ns : List Node}

/-- an id names one node -/
theorem eq_of_id_eq (h : Forest ns) {m n : Node} (hm : m ∈ ns) (hn : n ∈ ns) (e : m.id = n.id) : m = n :=
  List.inj_on_of_nodup_map h.distinct hm hn e

theorem perm (h : Forest ns) {ms : List Node} (p : ms.Perm ns) : Forest ms where
  nonzero n hn := h.nonzero n (p.subset hn)
  distinct := (p.map _).nodup_iff.2 h.distinct
  held n hn := (h.held n (p.subset hn)).mono p.symm.subset
  rooted n hn := (h.rooted n (p.subset hn)).mono p.symm.subset

/-- a node that cannot hold others holds none -/
theorem canHold_or_childless (h : Forest ns) {n : Node} (hn : n ∈ ns) :
    n.kind.canHold ∨ ∀ m ∈ ns, m.parent ≠ n.id := by
  by_contra hno
  push Not at hno
  obtain ⟨hk, m, hm, hmp⟩ := hno
  rcases h.held m hm with hz | ⟨p, hp, hpid, hpk⟩
  · exact h.nonzero n hn (hmp.symm.trans hz)
  · obtain rfl := h.eq_of_id_eq hp hn (hpid.trans hmp)
    exact hk hpk

/-! ## The way up is finite -/

/-- no node is met again above its own parent -/
theorem not_liesAbove_parent (h : Forest ns) {n : Node} (hn : n ∈ ns) (hp : n.parent ≠ 0) :
    ¬ LiesAbove ns n.id n.parent := by
  have key : ∀ {id}, Rooted ns id → ∀ n ∈ ns, n.id = id → n.parent ≠ 0 → ¬ LiesAbove ns id n.parent := by
    intro id hr
    induction hr with
    | root hm hz =>
      intro n hn e hp
      exact absurd (h.eq_of_id_eq hn hm e ▸ hz) hp
    | @held m hm _ ih =>
      intro n hn e hp hab
      obtain rfl := h.eq_of_id_eq hn hm e
      -- going around the ring once more meets the parent above its own parent
      rcases hab.eq_or_exists_node with e' | ⟨q, hq, hqid, hqp, hq'⟩
      · exact ih n hn e'.symm hp .self
      · exact ih q hq hqid hqp (LiesAbove.trans (.up hn hp .self) hq')
  exact key (h.rooted n hn) n hn rfl hp

/-- **The way up is shorter than the list.** A depth can be given to every id that grows downwards and stays below the
number of nodes. -/
theorem exists_depth (h : Forest ns) :
    ∃ depth : NodeId → Nat, (∀ n ∈ ns, depth n.id < ns.length) ∧
      ∀ n ∈ ns, n.parent ≠ 0 → depth n.parent < depth n.id := by
  classical
  -- the depth of an id is the number of nodes strictly above it
  let chain (id : NodeId) : Finset NodeId := (ns.map (·.id)).toFinset.filter fun a => LiesAbove ns a id ∧ a ≠ id
  refine ⟨fun id => (chain id).card, fun n hn => ?_, fun n hn hp => ?_⟩
  · have hlt : chain n.id ⊂ (ns.map (·.id)).toFinset := by
      refine ⟨Finset.filter_subset _ _, fun hsub => ?_⟩
      have hmem := hsub (List.mem_toFinset.2 (List.mem_map_of_mem hn))
      exact (Finset.mem_filter.1 hmem).2.2 rfl
    calc (chain n.id).card < (ns.map (·.id)).toFinset.card := Finset.card_lt_card hlt
      _ ≤ (ns.map (·.id)).length := List.toFinset_card_le _
      _ = ns.length := List.length_map _
  · apply Finset.card_lt_card
    have hacyc := h.not_liesAbove_parent hn hp
    constructor
    · intro a ha
      obtain ⟨hmem, hab, -⟩ := Finset.mem_filter.1 ha
      refine Finset.mem_filter.2 ⟨hmem, .up hn hp hab, ?_⟩
      rintro rfl
      exact hacyc hab
    · intro hsub
      obtain ⟨q, hq, hqid, -⟩ := (h.held n hn).resolve_left hp
      have hne : n.parent ≠ n.id := fun e => hacyc (e ▸ .self)
      have hmem : n.parent ∈ chain n.id :=
        Finset.mem_filter.2 ⟨List.mem_toFinset.2 (hqid ▸ List.mem_map_of_mem hq), .up hn hp .self, hne⟩
      exact (Finset.mem_filter.1 (hsub hmem)).2.2 rfl

/-- what lies above a node is a node -/
theorem exists_of_liesAbove (h : Forest ns) {a id : NodeId} (hab : LiesAbove ns a id) (hid : ∃ n ∈ ns, n.id = id) :
    ∃ m ∈ ns, m.id = a := by
  induction hab with
  | self => exact hid
  | @up n hn hp _ ih =>
    obtain ⟨p, hpm, hpid, -⟩ := (h.held n hn).resolve_left hp
    exact ih ⟨p, hpm, hpid⟩

/-- nothing lies above a node on the outermost level -/
theorem eq_of_liesAbove_root (h : Forest ns) {r : Node} (hr : r ∈ ns) (hroot : r.isRoot) {a : NodeId}
    (hab : LiesAbove ns a r.id) : a = r.id := by
  rcases hab.eq_or_exists_node with e | ⟨n, hn, hid, hz, -⟩
  · exact e.symm
  · obtain rfl := h.eq_of_id_eq hn hr hid
    exact absurd (beq_iff_eq.1 hroot) hz

/-- of two ids on one way up, one lies above the other -/
theorem liesAbove_total (h : Forest ns) {a b id : NodeId} (ha : LiesAbove ns a id) (hb : LiesAbove ns b id) :
    LiesAbove ns a b ∨ LiesAbove ns b a := by
  induction ha with
  | self => exact Or.inr hb
  | @up n hn hp ha ih =>
    rcases hb.eq_or_exists_node with rfl | ⟨m, hm, hmid, -, hbp⟩
    · exact Or.inl (.up hn hp ha)
    · obtain rfl := h.eq_of_id_eq hm hn hmid
      exact ih hbp

/-- every way up ends at one node of the outermost level -/
theorem eq_of_roots_above (h : Forest ns) {r s : Node} (hr : r ∈ ns) (hroot : r.isRoot) (hs : s ∈ ns) (hroot' : s.isRoot)
    {id : NodeId} (hab : LiesAbove ns r.id id) (hab' : LiesAbove ns s.id id) : r = s := by
  rcases h.liesAbove_total hab hab' with hle | hle
  · exact h.eq_of_id_eq hr hs (h.eq_of_liesAbove_root hs hroot' hle)
  · exact (h.eq_of_id_eq hs hr (h.eq_of_liesAbove_root hr hroot hle)).symm

/-- two nodes with one parent do not lie above each other -/
theorem not_liesAbove_sibling (h : Forest ns) {m n : Node} (hm : m ∈ ns) (hn : n ∈ ns) (hp : m.parent = n.parent)
    (hz : n.parent ≠ 0) (hne : m.id ≠ n.id) : ¬ LiesAbove ns m.id n.id := by
  intro hab
  rcases hab.eq_or_exists_node with e | ⟨q, hq, hqid, -, habp⟩
  · exact hne e.symm
  · obtain rfl := h.eq_of_id_eq hq hn hqid
    exact h.not_liesAbove_parent hm (hp ▸ hz) (hp ▸ habp)

/-! ## Adding, removing and changing nodes -/

/-- Nodes can be added under new ids if what holds each of them is there then, and if they do not hold each other in a
ring. -/
theorem append (h : Forest ns) {ms : List Node} (h0 : ∀ m ∈ ms, m.id ≠ 0) (hd : ((ns ++ ms).map (·.id)).Nodup)
    (hh : ∀ m ∈ ms, CanHold (ns ++ ms) m.parent) (depth : NodeId → Nat)
    (hr : ∀ m ∈ ms, ∀ p ∈ ms, p.id = m.parent → depth p.id < depth m.id) : Forest (ns ++ ms) := by
  have hold : ∀ n ∈ ns, Rooted (ns ++ ms) n.id := fun n hn => (h.rooted n hn).mono (List.subset_append_left _ _)
  have hnew : ∀ k, ∀ m ∈ ms, depth m.id < k → Rooted (ns ++ ms) m.id := by
    intro k
    induction k with
    | zero => intro m _ hk; omega
    | succ k ih =>
      intro m hm hk
      have hm' : m ∈ ns ++ ms := List.mem_append_right _ hm
      rcases hh m hm with hz | ⟨p, hp, hpid, -⟩
      · exact .root hm' hz
      · refine .held hm' (hpid ▸ ?_)
        rcases List.mem_append.1 hp with hp | hp
        · exact hold p hp
        · have := hr m hm p hp hpid
          exact ih p hp (by omega)
  refine ⟨fun n hn => ?_, hd, fun n hn => ?_, fun n hn => ?_⟩ <;> rcases List.mem_append.1 hn with hn | hn
  · exact h.nonzero n hn
  · exact h0 n hn
  · exact (h.held n hn).mono (List.subset_append_left _ _)
  · exact hh n hn
  · exact hold n hn
  · exact hnew _ n hn (Nat.lt_succ_self _)

/-- A node can be added under a new id if what holds it is there. -/
theorem concat (h : Forest ns) {n : Node} (h0 : n.id ≠ 0) (hid : ∀ m ∈ ns, m.id ≠ n.id) (hp : CanHold ns n.parent) :
    Forest (ns ++ [n]) := by
  refine h.append (by simpa using h0) ?_ ?_ (fun _ => 0) ?_
  · rw [List.map_append, List.nodup_append]
    refine ⟨h.distinct, by simp, fun a ha b hb => ?_⟩
    obtain ⟨m, hm, rfl⟩ := List.mem_map.1 ha
    simp only [List.map_cons, List.map_nil, List.mem_singleton] at hb
    exact hb ▸ hid m hm
  · intro m hm
    rw [List.mem_singleton.1 hm]
    exact hp.mono (List.subset_append_left _ _)
  · intro m hm p hpm e
    rw [List.mem_singleton.1 hm, List.mem_singleton.1 hpm] at e
    -- a node that holds itself would be there already
    rcases hp with hz | ⟨q, hq, hqid, -⟩
    · exact absurd (e.trans hz) h0
    · exact absurd (hqid.trans e.symm) (hid q hq)

/-- Nodes can be removed if all that they hold goes with them. -/
theorem filter (h : Forest ns) (keep : Node → Bool)
    (closed : ∀ n ∈ ns, keep n → ∀ p ∈ ns, p.id = n.parent → keep p) : Forest (ns.filter keep) where
  nonzero n hn := h.nonzero n (List.mem_filter.1 hn).1
  distinct := h.distinct.sublist (List.filter_sublist.map _)
  held n hn := by
    obtain ⟨hn, hk⟩ := List.mem_filter.1 hn
    rcases h.held n hn with hz | ⟨p, hp, hpid, hpk⟩
    · exact Or.inl hz
    · exact Or.inr ⟨p, List.mem_filter.2 ⟨hp, closed n hn hk p hp hpid⟩, hpid, hpk⟩
  rooted n hn := by
    have key : ∀ {id}, Rooted ns id → ∀ n ∈ ns, n.id = id → keep n → Rooted (ns.filter keep) id := by
      intro id hr
      induction hr with
      | root hm hz =>
        intro n hn e hk
        obtain rfl := h.eq_of_id_eq hn hm e
        exact .root (List.mem_filter.2 ⟨hn, hk⟩) hz
      | held hm hr ih =>
        intro n hn e hk
        obtain rfl := h.eq_of_id_eq hn hm e
        obtain ⟨p, hp, hpid⟩ := hr.exists_node
        exact .held (List.mem_filter.2 ⟨hn, hk⟩) (ih p hp hpid (closed n hn hk p hp hpid))
    obtain ⟨hn, hk⟩ := List.mem_filter.1 hn
    exact key (h.rooted n hn) n hn rfl hk

/-- what does not lie below a node keeps its way up if all other nodes stay -/
theorem rooted_of_not_liesAbove (h : Forest ns) {ms : List Node} {top : NodeId} (hother : ∀ m ∈ ns, m.id ≠ top → m ∈ ms)
    {id : NodeId} (hr : Rooted ns id) : ¬ LiesAbove ns top id → Rooted ms id := by
  induction hr with
  | root hm hz => exact fun hab => .root (hother _ hm fun e => hab (e ▸ .self)) hz
  | @held m hm hr ih =>
    intro hab
    obtain ⟨p, hp, hpid⟩ := hr.exists_node
    have hz : m.parent ≠ 0 := hpid ▸ h.nonzero p hp
    exact .held (hother m hm fun e => hab (e ▸ .self)) (ih fun hab' => hab (.up hm hz hab'))

/-- if a node has a way up again, so has what lies below it -/
theorem rooted_of_rooted {ms : List Node} {top : NodeId} (hother : ∀ m ∈ ns, m.id ≠ top → m ∈ ms) (htop : Rooted ms top)
    {id : NodeId} (hr : Rooted ns id) : Rooted ms id := by
  induction hr with
  | @root m hm hz =>
    by_cases e : m.id = top
    · exact e ▸ htop
    · exact .root (hother m hm e) hz
  | @held m hm _ ih =>
    by_cases e : m.id = top
    · exact e ▸ htop
    · exact .held (hother m hm e) ih

/-- A node can be changed in place if it can still hold what it holds and does not come to lie below itself. -/
theorem replace (h : Forest ns) {ms : List Node} {n n' : Node} (hn : n ∈ ns) (hid : n'.id = n.id)
    (hms : ms.map (·.id) = ns.map (·.id)) (hmem : ∀ m, m ∈ ms ↔ m = n' ∨ m ∈ ns ∧ m.id ≠ n.id)
    (hk : n'.kind.canHold ∨ ∀ m ∈ ns, m.parent ≠ n.id) (hp : CanHold ns n'.parent)
    (ha : n'.parent ≠ 0 → ¬ LiesAbove ns n.id n'.parent) : Forest ms := by
  have hn' : n' ∈ ms := (hmem n').2 (Or.inl rfl)
  have hother : ∀ m ∈ ns, m.id ≠ n.id → m ∈ ms := fun m hm e => (hmem m).2 (Or.inr ⟨hm, e⟩)
  have hself : Rooted ms n.id := by
    rw [← hid]
    rcases hp with hz | ⟨p, hpm, hpid, -⟩
    · exact .root hn' hz
    · have hz : n'.parent ≠ 0 := hpid ▸ h.nonzero p hpm
      exact .held hn' (h.rooted_of_not_liesAbove hother (hpid ▸ h.rooted p hpm) (ha hz))
  have hholds : ∀ m : Node, CanHold ns m.parent → (m.parent = n.id → n'.kind.canHold) → CanHold ms m.parent := by
    rintro m (hz | ⟨p, hpm, hpid, hpk⟩) hk'
    · exact Or.inl hz
    · by_cases e : p.id = n.id
      · exact Or.inr ⟨n', hn', hid.trans (e.symm.trans hpid), hk' (hpid.symm.trans e)⟩
      · exact Or.inr ⟨p, hother p hpm e, hpid, hpk⟩
  refine ⟨fun m hm => ?_, hms ▸ h.distinct, fun m hm => ?_, fun m hm => ?_⟩ <;> rcases (hmem m).1 hm with rfl | ⟨hm, -⟩
  · exact hid ▸ h.nonzero n hn
  · exact h.nonzero m hm
  · refine hholds _ hp fun e => absurd .self (e ▸ ha ?_)
    exact e ▸ h.nonzero n hn
  · exact hholds m (h.held m hm) fun e => hk.resolve_right fun hno => hno m hm e
  · exact hid ▸ hself
  · exact rooted_of_rooted hother hself (h.rooted m hm)

end Forest

end ByteAtlas
