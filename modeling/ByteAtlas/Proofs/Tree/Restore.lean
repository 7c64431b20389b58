/-
Putting nodes back, and the two ways in which adding and removing undo each other:

- `exists_putBack`: nodes that were captured and removed can be put back, and then the list of nodes is what it was, in
  its order;
- `exists_removeIds`: nodes that were inserted can be removed by their ids, and then the list of nodes is what it was.

Putting back keeps a tree formed even if the tree has changed since the removal (`Formed.putBack`), because it asks again
whether the ids are free and whether what holds the nodes is there.
-/
import ByteAtlas.Proofs.Tree.Structure

namespace ByteAtlas.Tree

variable {t u : Tree} {ns : List Node} {removed : List (Nat × Node)}

/-! ## Putting back -/

theorem nodes_putAt' (t : Tree) (i : Nat) (n : Node) : (t.putAt i n).nodes = t.nodes.take i ++ n :: t.nodes.drop i := by
  rcases Nat.le_total i t.nodes.length with hi | hi
  · exact nodes_putAt t hi n
  · simp only [putAt, Nat.min_eq_right hi, List.take_length, List.drop_length, List.take_of_length_le hi,
      List.drop_of_length_le hi]

theorem nodes_foldl_putAt (t : Tree) (removed : List (Nat × Node)) :
    (removed.foldl (fun t r => t.putAt r.1 r.2) t).nodes = restoreAll removed t.nodes := by
  induction removed generalizing t with
  | nil => rfl
  | cons r rest ih =>
    rw [List.foldl_cons, ih, nodes_putAt']
    rfl

theorem nodes_foldl_putAt_perm (t : Tree) (removed : List (Nat × Node)) :
    (removed.foldl (fun t r => t.putAt r.1 r.2) t).nodes.Perm (t.nodes ++ removed.map Prod.snd) := by
  induction removed generalizing t with
  | nil => simp
  | cons r rest ih =>
    rw [List.foldl_cons, List.map_cons]
    refine (ih _).trans ?_
    refine ((nodes_putAt_perm t r.1 r.2).append_right _).trans ?_
    exact List.perm_middle.symm

theorem base_foldl_putAt (t : Tree) (removed : List (Nat × Node)) :
    (removed.foldl (fun t r => t.putAt r.1 r.2) t).base = t.base := by
  induction removed generalizing t with
  | nil => rfl
  | cons r rest ih => rw [List.foldl_cons, ih, base_putAt]

theorem Indexed.foldl_putAt (h : t.Indexed) (hd : (removed.map fun r => r.2.id).Nodup)
    (hid : ∀ r ∈ removed, ∀ m ∈ t.nodes, m.id ≠ r.2.id) :
    (removed.foldl (fun t r => t.putAt r.1 r.2) t).Indexed := by
  induction removed generalizing t with
  | nil => exact h
  | cons r rest ih =>
    rw [List.map_cons, List.nodup_cons] at hd
    refine ih (h.putAt (hid r List.mem_cons_self) r.1) hd.2 ?_
    intro q hq m hm
    rcases List.mem_cons.1 ((nodes_putAt_perm t r.1 r.2).mem_iff.1 hm) with rfl | hm
    · intro e
      exact hd.1 (e ▸ List.mem_map_of_mem hq)
    · exact hid q (List.mem_cons_of_mem _ hq) m hm

theorem checkPutBack_eq_ok_iff (h : t.Indexed) {ids : List NodeId} : t.checkPutBack ids removed = .ok () ↔
    ∀ r ∈ removed, (∀ m ∈ t.nodes, m.id ≠ r.2.id) ∧ (r.2.parent ∈ ids ∨ CanHold t.nodes r.2.parent) := by
  induction removed with
  | nil => simp [checkPutBack]
  | cons r rest ih =>
    obtain ⟨i, n⟩ := r
    rw [List.forall_mem_cons, ← ih, checkPutBack, ← contains_eq_false_iff h, ← checkHolder_eq_ok_iff h]
    cases t.contains n.id with
    | true => simp
    | false =>
      by_cases hp : n.parent ∈ ids
      · simp [hp]
      · cases hh : t.checkHolder n.parent <;> simp [hp]

theorem putBack_eq_ok_iff : t.putBack removed = .ok u ↔
    t.checkPutBack (removed.map fun r => r.2.id) removed = .ok () ∧
      u = removed.foldl (fun t r => t.putAt r.1 r.2) t := by
  unfold putBack
  cases t.checkPutBack (removed.map fun r => r.2.id) removed with
  | error e => simp
  | ok _ => simp [eq_comm]

theorem Formed.putBack (h : t.Formed) (hc : Captured removed ns) (hf : Forest ns) (hu : t.putBack removed = .ok u) :
    u.Formed := by
  obtain ⟨hcheck, rfl⟩ := putBack_eq_ok_iff.1 hu
  rw [checkPutBack_eq_ok_iff h.indexed] at hcheck
  have hd := hc.nodup_id hf.distinct
  have hmem : ∀ m ∈ removed.map Prod.snd, m ∈ ns := by
    intro m hm
    obtain ⟨r, hr, rfl⟩ := List.mem_map.1 hm
    exact List.mem_of_getElem? (hc.stored r hr)
  refine ⟨h.indexed.foldl_putAt hd fun r hr => (hcheck r hr).1, ?_⟩
  -- the nodes were in one forest before, so they do not hold each other in a ring
  obtain ⟨depth, -, hdepth⟩ := hf.exists_depth
  refine (h.forest.append (fun m hm => hf.nonzero m (hmem m hm)) ?_ ?_ depth ?_).perm (nodes_foldl_putAt_perm t removed)
  · rw [List.map_append, List.nodup_append, List.map_map]
    refine ⟨h.forest.distinct, hd, fun a ha b hb => ?_⟩
    obtain ⟨m, hm, rfl⟩ := List.mem_map.1 ha
    obtain ⟨r, hr, rfl⟩ := List.mem_map.1 hb
    exact (hcheck r hr).1 m hm
  · intro m hm
    obtain ⟨r, hr, rfl⟩ := List.mem_map.1 hm
    rcases (hcheck r hr).2 with hp | hp
    · obtain ⟨q, hq, e⟩ := List.mem_map.1 hp
      have hq' := List.mem_map_of_mem (f := Prod.snd) hq
      refine Or.inr ⟨q.2, List.mem_append_right _ hq', e, ?_⟩
      refine (hf.canHold_or_childless (hmem _ hq')).resolve_right ?_
      intro hno
      exact hno r.2 (hmem r.2 hm) e.symm
    · exact hp.mono (List.subset_append_left _ _)
  · intro m hm p hp e
    refine e ▸ hdepth m (hmem m hm) ?_
    exact e ▸ hf.nonzero p (hmem p hp)

/-- **What was captured and removed can be put back where it was.** -/
theorem exists_putBack (h : t.Formed) (hc : Captured removed t.nodes) (hu : t.remove removed = .ok u) :
    ∃ v, u.putBack removed = .ok v ∧ v.nodes = t.nodes ∧ v.base = t.base := by
  have hformed := h.remove hc.ascending hu
  have hnodes := nodes_remove h.indexed hc.ascending hu
  have hkept : ∀ m, m ∈ u.nodes ↔ m ∈ t.nodes ∧ m.id ∉ removed.map fun r => r.2.id := by
    intro m
    rw [hnodes, List.mem_filter, Bool.not_eq_true', List.contains_eq_mem, decide_eq_false_iff_not]
  refine ⟨_, putBack_eq_ok_iff.2 ⟨(checkPutBack_eq_ok_iff hformed.indexed).2 fun r hr => ⟨fun m hm e => ?_, ?_⟩, rfl⟩,
    ?_, ?_⟩
  · exact ((hkept m).1 hm).2 (e ▸ List.mem_map_of_mem hr)
  · rcases h.forest.held r.2 (List.mem_of_getElem? (hc.stored r hr)) with hz | ⟨p, hp, hpid, hpk⟩
    · exact Or.inr (Or.inl hz)
    · by_cases hin : r.2.parent ∈ removed.map fun r => r.2.id
      · exact Or.inl hin
      · exact Or.inr (Or.inr ⟨p, (hkept p).2 ⟨hp, hpid ▸ hin⟩, hpid, hpk⟩)
  · obtain ⟨-, -, rfl⟩ := remove_eq_ok_iff.1 hu
    rw [nodes_foldl_putAt, nodes_foldr_takeOut, restoreAll_eraseAll hc.ascending hc.stored]
  · obtain ⟨-, -, rfl⟩ := remove_eq_ok_iff.1 hu
    rw [base_foldl_putAt, base_foldr_takeOut]

/-! ## Removing by ids -/

theorem map_fst_filterMap (t : Tree) (is : List Nat) (hv : ∀ i ∈ is, ∃ n, t.nodes[i]? = some n) :
    (is.filterMap fun i => (t.nodes[i]?).map fun n => (i, n)).map Prod.fst = is := by
  induction is with
  | nil => rfl
  | cons i rest ih =>
    obtain ⟨n, hn⟩ := hv i List.mem_cons_self
    rw [List.filterMap_cons_some (b := (i, n)) (by rw [hn]; rfl), List.map_cons,
      ih fun j hj => hv j (List.mem_cons_of_mem _ hj)]

/-- a removal captures nodes of the tree that it is made of -/
theorem captured_of_removal {ids : List NodeId} {e : Edit} (he : Edit.removal t ids = .ok e) :
    ∃ removed, e = .remove removed ∧ Captured removed t.nodes := by
  unfold Edit.removal at he
  split at he
  · simp at he
  · obtain rfl := Except.ok.inj he
    refine ⟨_, rfl, ?_, ?_⟩
    · rw [map_fst_filterMap]
      · exact List.pairwise_lt_range.filter _
      · intro i hi
        obtain ⟨hlt, -⟩ := List.mem_filter.1 hi
        exact ⟨_, List.getElem?_eq_getElem (List.mem_range.1 hlt)⟩
    · intro r hr
      obtain ⟨i, -, hi⟩ := List.mem_filterMap.1 hr
      obtain ⟨n, hn, rfl⟩ := Option.map_eq_some_iff.1 hi
      exact hn

/-- The removal of ids captures their nodes and all below these. -/
theorem removal_ok (h : t.Formed) {ids : List NodeId} {e : Edit} (he : Edit.removal t ids = .ok e) :
    ∃ removed, e = .remove removed ∧ Captured removed t.nodes ∧
      ∀ n, n ∈ removed.map Prod.snd ↔ n ∈ t.nodes ∧ ∃ id ∈ ids, LiesAbove t.nodes id n.id := by
  obtain ⟨removed, rfl, hc⟩ := captured_of_removal he
  refine ⟨removed, rfl, hc, fun n => ?_⟩
  unfold Edit.removal at he
  split at he
  · simp at he
  · obtain rfl := Edit.remove.inj (Except.ok.inj he)
    rw [List.mem_map]
    constructor
    · rintro ⟨r, hr, rfl⟩
      obtain ⟨i, hi, hri⟩ := List.mem_filterMap.1 hr
      obtain ⟨n, hn, rfl⟩ := Option.map_eq_some_iff.1 hri
      obtain ⟨-, hany⟩ := List.mem_filter.1 hi
      obtain ⟨l, hl, hil⟩ := List.any_eq_true.1 hany
      obtain ⟨id, hid, rfl⟩ := List.mem_map.1 hl
      obtain ⟨m, hm, hab⟩ := (mem_subtree_iff h).1 (List.contains_iff_mem.1 hil)
      obtain rfl := Option.some.inj (hn.symm.trans hm)
      exact ⟨List.mem_of_getElem? hn, id, hid, hab⟩
    · rintro ⟨hn, id, hid, hab⟩
      obtain ⟨i, hi⟩ := List.mem_iff_getElem?.1 hn
      refine ⟨(i, n), List.mem_filterMap.2 ⟨i, List.mem_filter.2 ⟨?_, ?_⟩, by rw [hi]; rfl⟩, rfl⟩
      · exact List.mem_range.2 (List.getElem?_eq_some_iff.1 hi).1
      · refine List.any_eq_true.2 ⟨t.subtree id, List.mem_map_of_mem hid, List.contains_iff_mem.2 ?_⟩
        exact (mem_subtree_iff h).2 ⟨n, hi, hab⟩

theorem exists_removal (h : t.Indexed) {ids : List NodeId} (hids : ∀ id ∈ ids, ∃ n ∈ t.nodes, n.id = id) :
    ∃ e, Edit.removal t ids = .ok e := by
  unfold Edit.removal
  split
  · next id hfind =>
    have hno := List.find?_some hfind
    rw [(contains_iff h).2 (hids id (List.mem_of_find?_eq_some hfind))] at hno
    simp at hno
  · exact ⟨_, rfl⟩

/-- no old node lies below a new one: it keeps its way up, and no new id is on it -/
theorem not_liesAbove_of_insert (h : t.Formed) (hu : t.insert ns = .ok u) {n : Node} (hn : n ∈ ns) {id : NodeId}
    (hr : Rooted t.nodes id) : ¬ LiesAbove u.nodes n.id id := by
  have hforest := (h.insert hu).forest
  have hold : ∀ m ∈ t.nodes, m ∈ u.nodes := fun m hm => nodes_insert hu ▸ List.mem_append_left _ hm
  have hfresh := (fresh_of_insert h hu).1
  induction hr with
  | root hm hz =>
    intro hab
    rcases hab.eq_or_exists_node with e | ⟨q, hq, hqid, hqz, -⟩
    · exact hfresh _ hm n hn e
    · exact hqz (hforest.eq_of_id_eq hq (hold _ hm) hqid ▸ hz)
  | held hm _ ih =>
    intro hab
    rcases hab.eq_or_exists_node with e | ⟨q, hq, hqid, -, hab⟩
    · exact hfresh _ hm n hn e
    · exact ih (hforest.eq_of_id_eq hq (hold _ hm) hqid ▸ hab)

/-- what is captured by the ids of new nodes is the new nodes -/
theorem removal_of_insert (h : t.Formed) (hu : t.insert ns = .ok u) : ∃ removed,
    Edit.removal u (ns.map (·.id)) = .ok (.remove removed) ∧ Captured removed u.nodes ∧
      ∀ id, id ∈ removed.map (fun r => r.2.id) ↔ id ∈ ns.map (·.id) := by
  have hformed := h.insert hu
  have hnodes := nodes_insert hu
  have hnew : ∀ m ∈ ns, m ∈ u.nodes := fun m hm => hnodes ▸ List.mem_append_right _ hm
  have hids : ∀ id ∈ ns.map (·.id), ∃ n ∈ u.nodes, n.id = id := by
    intro id hid
    obtain ⟨n, hn, rfl⟩ := List.mem_map.1 hid
    exact ⟨n, hnew n hn, rfl⟩
  obtain ⟨e, he⟩ := exists_removal hformed.indexed hids
  obtain ⟨removed, rfl, hc, hmem⟩ := removal_ok hformed he
  refine ⟨removed, he, hc, fun id => ?_⟩
  have hmap : (removed.map fun r => r.2.id) = (removed.map Prod.snd).map (·.id) := by rw [List.map_map]; rfl
  rw [hmap, List.mem_map, List.mem_map]
  constructor
  · rintro ⟨n, hn, rfl⟩
    obtain ⟨hn, id', hid', hab⟩ := (hmem n).1 hn
    obtain ⟨m, hm, rfl⟩ := List.mem_map.1 hid'
    rcases List.mem_append.1 (hnodes ▸ hn) with hn | hn
    · exact absurd hab (not_liesAbove_of_insert h hu hm (h.forest.rooted n hn))
    · exact ⟨n, hn, rfl⟩
  · rintro ⟨n, hn, rfl⟩
    exact ⟨n, (hmem n).2 ⟨hnew n hn, n.id, List.mem_map_of_mem hn, .self⟩, rfl⟩

/-- **What was inserted can be removed by its ids.** Nothing else goes with it, since no other node lies below a new
one. -/
theorem exists_removeIds (h : t.Formed) (hu : t.insert ns = .ok u) :
    ∃ v, u.removeIds (ns.map (·.id)) = .ok v ∧ v.Formed ∧ v.nodes = t.nodes ∧ v.base = t.base := by
  have hformed := h.insert hu
  have hnodes := nodes_insert hu
  have hfresh := (fresh_of_insert h hu).1
  obtain ⟨removed, he, hc, hids⟩ := removal_of_insert h hu
  have hremove : u.remove removed = .ok (removed.foldr (fun r t => t.takeOut r.1) u) := by
    refine remove_eq_ok_iff.2 ⟨fun r hr => by rw [hc.stored r hr]; rfl, fun n hn hid hp => ?_, rfl⟩
    rw [hids] at hid hp
    obtain ⟨m, hm, e⟩ := List.mem_map.1 hp
    rcases List.mem_append.1 (hnodes ▸ hn) with hn | hn
    · rcases h.forest.held n hn with hz | ⟨p, hp, hpid, -⟩
      · exact hformed.forest.nonzero m (hnodes ▸ List.mem_append_right _ hm) (e.trans hz)
      · exact hfresh p hp m hm (hpid.trans e.symm)
    · exact hid (List.mem_map_of_mem hn)
  refine ⟨_, by rw [removeIds, he]; exact hremove, hformed.remove hc.ascending hremove, ?_, ?_⟩
  · rw [nodes_remove hformed.indexed hc.ascending hremove, hnodes, List.filter_append, List.filter_eq_self.2,
      List.filter_eq_nil_iff.2, List.append_nil]
    · intro n hn
      simp only [Bool.not_eq_true', List.contains_eq_mem, decide_eq_false_iff_not, not_not]
      exact (hids _).2 (List.mem_map_of_mem hn)
    · intro n hn
      simp only [Bool.not_eq_true', List.contains_eq_mem, decide_eq_false_iff_not, hids]
      intro hin
      obtain ⟨m, hm, e⟩ := List.mem_map.1 hin
      exact hfresh n hn m hm e.symm
  · rw [base_foldr_takeOut, (insert_eq_ok_iff.1 hu).2, base_foldl_push]

end ByteAtlas.Tree
