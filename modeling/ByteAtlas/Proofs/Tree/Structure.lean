/-
Edits that add nodes and take nodes out. What they come to is told on the list of nodes alone:

- inserting appends (`nodes_insert`);
- removing keeps exactly the nodes of other ids (`nodes_remove`), provided that positions are told in ascending order;
- putting back after a removal gives the list from before, in its order (`restoreAll_eraseAll`).

Each of them keeps a formed tree formed. For putting back this needs that the nodes were once captured together from a
forest (`Captured`); the tree that they go back into may have changed in the meantime.
-/
import ByteAtlas.Proofs.Tree.InPlace
import ByteAtlas.Proofs.Tree.Subtree

namespace ByteAtlas

/-- nodes with their positions, in ascending order, as they stood in a list -/
structure Captured (removed : List (Nat × Node)) (ns : List Node) : Prop where
  ascending : (removed.map Prod.fst).Pairwise (· < ·)
  stored : ∀ r ∈ removed, ns[r.1]? = some r.2

instance (removed : List (Nat × Node)) (ns : List Node) : Decidable (Captured removed ns) :=
  decidable_of_iff ((removed.map Prod.fst).Pairwise (· < ·) ∧ ∀ r ∈ removed, ns[r.1]? = some r.2)
    ⟨fun h => ⟨h.1, h.2⟩, fun h => ⟨h.1, h.2⟩⟩

/-! ## Taking positions out of a list and putting them in again -/

section Positions

variable {α : Type}

/-- a list with some of its positions taken out, the last first -/
def eraseAll (removed : List (Nat × α)) (xs : List α) : List α := removed.foldr (fun r ys => ys.eraseIdx r.1) xs

/-- a list with elements put in at positions, the first first -/
def restoreAll (removed : List (Nat × α)) (xs : List α) : List α :=
  removed.foldl (fun ys r => ys.take r.1 ++ r.2 :: ys.drop r.1) xs

/-- taking out what lies behind a position does not touch it -/
theorem getElem?_eraseAll {removed : List (Nat × α)} {i : Nat} (h : ∀ r ∈ removed, i < r.1) (xs : List α) :
    (eraseAll removed xs)[i]? = xs[i]? := by
  induction removed with
  | nil => rfl
  | cons r rest ih =>
    rw [eraseAll, List.foldr_cons, List.getElem?_eraseIdx_of_lt (h r (by simp))]
    exact ih fun q hq => h q (List.mem_cons_of_mem _ hq)

theorem eraseAll_sublist (removed : List (Nat × α)) (xs : List α) : (eraseAll removed xs).Sublist xs := by
  induction removed with
  | nil => exact .refl _
  | cons r rest ih => exact (List.eraseIdx_sublist _ _).trans ih

/-- **Elements put in again where they were taken out give the list from before.** -/
theorem restoreAll_eraseAll {removed : List (Nat × α)} {xs : List α} (ha : (removed.map Prod.fst).Pairwise (· < ·))
    (hs : ∀ r ∈ removed, xs[r.1]? = some r.2) : restoreAll removed (eraseAll removed xs) = xs := by
  induction removed with
  | nil => rfl
  | cons r rest ih =>
    rw [List.map_cons, List.pairwise_cons] at ha
    have hrest : ∀ q ∈ rest, r.1 < q.1 := fun q hq => ha.1 _ (List.mem_map_of_mem hq)
    have hr : (eraseAll rest xs)[r.1]? = some r.2 := (getElem?_eraseAll hrest xs).trans (hs r (by simp))
    obtain ⟨hlt, e⟩ := List.getElem?_eq_some_iff.1 hr
    rw [eraseAll, List.foldr_cons, restoreAll, List.foldl_cons]
    have hback : ((eraseAll rest xs).eraseIdx r.1).take r.1 ++ r.2 :: ((eraseAll rest xs).eraseIdx r.1).drop r.1 =
        eraseAll rest xs := by
      have htake : ((eraseAll rest xs).take r.1).length = r.1 := by rw [List.length_take]; omega
      rw [List.eraseIdx_eq_take_drop_succ, List.take_left' htake, List.drop_left' htake, ← e,
        ← List.drop_eq_getElem_cons hlt, List.take_append_drop]
    calc restoreAll rest _ = restoreAll rest (eraseAll rest xs) := congrArg (restoreAll rest) hback
      _ = xs := ih ha.2 fun q hq => hs q (List.mem_cons_of_mem _ hq)

end Positions

/-- in a list with distinct ids, taking a position out is the same as taking its id out -/
theorem eraseIdx_eq_filter {ns : List Node} (hd : (ns.map (·.id)).Nodup) {i : Nat} {n : Node} (hn : ns[i]? = some n) :
    ns.eraseIdx i = ns.filter fun m => m.id != n.id := by
  obtain ⟨hlt, e⟩ := List.getElem?_eq_some_iff.1 hn
  have hsplit : ns = ns.take i ++ n :: ns.drop (i + 1) := by
    rw [← e, ← List.drop_eq_getElem_cons hlt, List.take_append_drop]
  rw [hsplit, List.map_append, List.map_cons, List.nodup_middle, List.nodup_cons, List.mem_append] at hd
  have hother : ∀ m, m ∈ ns.take i ∨ m ∈ ns.drop (i + 1) → (m.id != n.id) = true := by
    intro m hm
    rw [bne_iff_ne]
    intro e'
    exact hd.1 (hm.imp (fun h => e' ▸ List.mem_map_of_mem h) fun h => e' ▸ List.mem_map_of_mem h)
  rw [List.eraseIdx_eq_take_drop_succ]
  conv_rhs => rw [hsplit]
  rw [List.filter_append, List.filter_cons_of_neg (by simp), List.filter_eq_self.2 fun m hm => hother m (Or.inl hm),
    List.filter_eq_self.2 fun m hm => hother m (Or.inr hm)]

/-- the same for several positions in ascending order -/
theorem eraseAll_eq_filter {removed : List (Nat × Node)} {ns : List Node} (hd : (ns.map (·.id)).Nodup)
    (ha : (removed.map Prod.fst).Pairwise (· < ·)) (hs : ∀ r ∈ removed, (ns[r.1]?).map (·.id) = some r.2.id) :
    eraseAll removed ns = ns.filter fun n => !(removed.map fun r => r.2.id).contains n.id := by
  induction removed with
  | nil => simp [eraseAll]
  | cons r rest ih =>
    rw [List.map_cons, List.pairwise_cons] at ha
    have hrest : ∀ q ∈ rest, r.1 < q.1 := fun q hq => ha.1 _ (List.mem_map_of_mem hq)
    have hr : ((eraseAll rest ns)[r.1]?).map (·.id) = some r.2.id := by
      rw [getElem?_eraseAll hrest]
      exact hs r (by simp)
    obtain ⟨n, hn, hid⟩ := Option.map_eq_some_iff.1 hr
    have hd' : ((eraseAll rest ns).map (·.id)).Nodup := hd.sublist ((eraseAll_sublist _ _).map _)
    have hone : eraseAll (r :: rest) ns = (eraseAll rest ns).filter fun m => m.id != r.2.id :=
      hid ▸ eraseIdx_eq_filter hd' hn
    rw [hone, ih ha.2 fun q hq => hs q (List.mem_cons_of_mem _ hq), List.filter_filter]
    refine List.filter_congr ?_
    intro m _
    rw [List.map_cons, List.contains_cons, Bool.not_or]
    rfl

theorem Captured.nodup_id {removed : List (Nat × Node)} {ns : List Node} (hc : Captured removed ns)
    (hd : (ns.map (·.id)).Nodup) : (removed.map fun r => r.2.id).Nodup := by
  have hpos : removed.Pairwise fun q r => q.1 < r.1 := List.pairwise_map.1 hc.ascending
  refine List.pairwise_map.2 (hpos.imp_of_mem fun {q r} hq hr hlt e => ?_)
  refine List.nodup_iff_getElem?_ne_getElem?.1 hd q.1 r.1 hlt ?_ ?_
  · rw [List.length_map]
    exact (List.getElem?_eq_some_iff.1 (hc.stored r hr)).1
  · rw [List.getElem?_map, List.getElem?_map, hc.stored q hq, hc.stored r hr, Option.map_some, Option.map_some, e]

namespace Tree

variable {t u : Tree} {ns : List Node} {removed : List (Nat × Node)}

/-! ## Inserting -/

theorem nodes_foldl_push (t : Tree) (ns : List Node) : (ns.foldl push t).nodes = t.nodes ++ ns := by
  induction ns generalizing t with
  | nil => simp
  | cons n rest ih => rw [List.foldl_cons, ih, nodes_push, List.append_assoc, List.singleton_append]

theorem base_foldl_push (t : Tree) (ns : List Node) : (ns.foldl push t).base = t.base := by
  induction ns generalizing t with
  | nil => rfl
  | cons n rest ih => rw [List.foldl_cons, ih, base_push]

theorem insert_eq_ok_iff : t.insert ns = .ok u ↔ t.checkInsert ns [] ns = .ok () ∧ u = ns.foldl push t := by
  unfold insert
  cases t.checkInsert ns [] ns with
  | error e => simp
  | ok _ => simp [eq_comm]

theorem nodes_insert (hu : t.insert ns = .ok u) : u.nodes = t.nodes ++ ns := by
  rw [(insert_eq_ok_iff.1 hu).2, nodes_foldl_push]

theorem Formed.push (h : t.Formed) {n : Node} (h0 : n.id ≠ 0) (hid : ∀ m ∈ t.nodes, m.id ≠ n.id)
    (hp : CanHold t.nodes n.parent) : (t.push n).Formed :=
  ⟨h.indexed.push hid, h.forest.concat h0 hid hp⟩

/-- what the check asks of the first of the nodes that are left -/
theorem checkInsert_cons (h : t.Indexed) {before rest : List Node} {n : Node}
    (hc : t.checkInsert (before ++ n :: rest) before (n :: rest) = .ok ()) :
    n.id ≠ 0 ∧ (∀ m ∈ t.nodes ++ before, m.id ≠ n.id) ∧ CanHold (t.nodes ++ before) n.parent ∧
      t.checkInsert (before ++ n :: rest) (before ++ [n]) rest = .ok () := by
  rw [checkInsert] at hc
  by_cases h0 : n.id = 0
  · simp [h0] at hc
  rw [if_neg h0] at hc
  by_cases hdup : (t.contains n.id || before.any fun b => b.id == n.id) = true
  · simp [hdup] at hc
  rw [if_neg hdup] at hc
  rw [Bool.or_eq_true, contains_iff h, List.any_eq_true] at hdup
  push Not at hdup
  refine ⟨h0, fun m hm e => ?_, ?_⟩
  · rcases List.mem_append.1 hm with hm | hm
    · exact hdup.1 m hm e
    · exact hdup.2 m hm (beq_iff_eq.2 e)
  by_cases hb : (before.any fun b => b.id == n.parent) = true
  · -- the parent is one of the nodes that come earlier
    obtain ⟨p, hp⟩ := Option.isSome_iff_exists.1 (List.find?_isSome.2 (List.any_eq_true.1 hb))
    have hall : ((before ++ n :: rest).find? fun b => b.id == n.parent) = some p := by
      rw [List.find?_append, hp, Option.some_or]
    have hpid : p.id = n.parent := by simpa using List.find?_some hp
    simp only [hb, if_true, hall, Option.any_some] at hc
    cases hk : p.kind.canHold with
    | false => simp [hk] at hc
    | true =>
      simp only [hk, Bool.not_true, Bool.false_eq_true, if_false] at hc
      exact ⟨Or.inr ⟨p, List.mem_append_right _ (List.mem_of_find?_eq_some hp), hpid, hk⟩, hc⟩
  · simp only [hb, if_false, Bool.false_eq_true] at hc
    cases hh : t.checkHolder n.parent with
    | error e => simp [hh] at hc
    | ok _ =>
      simp only [hh] at hc
      exact ⟨((checkHolder_eq_ok_iff h).1 hh).mono (List.subset_append_left _ _), hc⟩

/-- checked nodes can be pushed one after the other -/
theorem formed_foldl_push (h : t.Indexed) {before rest : List Node} (hu : u.Formed) (hn : u.nodes = t.nodes ++ before)
    (hc : t.checkInsert (before ++ rest) before rest = .ok ()) : (rest.foldl push u).Formed := by
  induction rest generalizing before u with
  | nil => exact hu
  | cons n rest ih =>
    obtain ⟨h0, hid, hp, hc⟩ := checkInsert_cons h hc
    have hn' : (u.push n).nodes = t.nodes ++ (before ++ [n]) := by rw [nodes_push, hn, List.append_assoc]
    refine ih (hu.push h0 (hn ▸ hid) (hn ▸ hp)) hn' ?_
    rwa [List.append_assoc, List.singleton_append]

theorem Formed.insert (h : t.Formed) (hu : t.insert ns = .ok u) : u.Formed := by
  obtain ⟨hc, rfl⟩ := insert_eq_ok_iff.1 hu
  exact formed_foldl_push h.indexed h (List.append_nil _).symm hc

/-- new nodes have ids that no old one has, each its own -/
theorem fresh_of_insert (h : t.Formed) (hu : t.insert ns = .ok u) :
    (∀ m ∈ t.nodes, ∀ n ∈ ns, m.id ≠ n.id) ∧ (ns.map (·.id)).Nodup := by
  have hd := (h.insert hu).forest.distinct
  rw [nodes_insert hu, List.map_append, List.nodup_append] at hd
  exact ⟨fun m hm n hn => hd.2.2 _ (List.mem_map_of_mem hm) _ (List.mem_map_of_mem hn), hd.2.1⟩

/-! ## Removing -/

theorem nodes_foldr_takeOut (t : Tree) (removed : List (Nat × Node)) :
    (removed.foldr (fun r t => t.takeOut r.1) t).nodes = eraseAll removed t.nodes := by
  induction removed with
  | nil => rfl
  | cons r rest ih => rw [List.foldr_cons, nodes_takeOut, ih]; rfl

theorem base_foldr_takeOut (t : Tree) (removed : List (Nat × Node)) :
    (removed.foldr (fun r t => t.takeOut r.1) t).base = t.base := by
  induction removed with
  | nil => rfl
  | cons r rest ih => rw [List.foldr_cons, base_takeOut, ih]

theorem nextId_foldr_takeOut (t : Tree) (removed : List (Nat × Node)) :
    (removed.foldr (fun r t => t.takeOut r.1) t).nextId = t.nextId := by
  induction removed with
  | nil => rfl
  | cons r rest ih => rw [List.foldr_cons, nextId_takeOut, ih]

theorem Indexed.foldr_takeOut (h : t.Indexed) (removed : List (Nat × Node)) :
    (removed.foldr (fun r t => t.takeOut r.1) t).Indexed := by
  induction removed with
  | nil => exact h
  | cons r rest ih => exact ih.takeOut r.1

theorem remove_eq_ok_iff : t.remove removed = .ok u ↔
    (∀ r ∈ removed, (t.nodes[r.1]?).map (·.id) = some r.2.id) ∧
    (∀ n ∈ t.nodes, n.id ∉ removed.map (fun r => r.2.id) → n.parent ∉ removed.map fun r => r.2.id) ∧
    u = removed.foldr (fun r t => t.takeOut r.1) t := by
  unfold remove
  simp only
  split
  · next r hfind =>
    refine iff_of_false (by simp) ?_
    intro hall
    have hne := List.find?_some hfind
    simp only [bne_iff_ne] at hne
    exact hne (hall.1 r (List.mem_of_find?_eq_some hfind))
  · next hfind =>
    have hplaced : ∀ r ∈ removed, (t.nodes[r.1]?).map (·.id) = some r.2.id := fun r hr => by
      simpa using List.find?_eq_none.1 hfind r hr
    split
    · next n horphan =>
      refine iff_of_false (by simp) ?_
      intro hall
      have hyes := List.find?_some horphan
      simp only [Bool.and_eq_true, Bool.not_eq_true', List.contains_eq_mem, decide_eq_false_iff_not,
        decide_eq_true_eq] at hyes
      exact hall.2.1 n (List.mem_of_find?_eq_some horphan) hyes.1 hyes.2
    · next horphan =>
      have hclosed : ∀ n ∈ t.nodes, n.id ∉ removed.map (fun r => r.2.id) → n.parent ∉ removed.map fun r => r.2.id := by
        intro n hn hid hp
        have hno := List.find?_eq_none.1 horphan n hn
        simp only [Bool.and_eq_true, Bool.not_eq_true', List.contains_eq_mem, decide_eq_false_iff_not,
          decide_eq_true_eq] at hno
        exact hno ⟨hid, hp⟩
      rw [Except.ok.injEq]
      exact ⟨fun e => ⟨hplaced, hclosed, e.symm⟩, fun hall => hall.2.2.symm⟩

theorem nodes_remove (h : t.Indexed) (ha : (removed.map Prod.fst).Pairwise (· < ·)) (hu : t.remove removed = .ok u) :
    u.nodes = t.nodes.filter fun n => !(removed.map fun r => r.2.id).contains n.id := by
  obtain ⟨hplaced, -, rfl⟩ := remove_eq_ok_iff.1 hu
  rw [nodes_foldr_takeOut, eraseAll_eq_filter h.nodup ha hplaced]

theorem Formed.remove (h : t.Formed) (ha : (removed.map Prod.fst).Pairwise (· < ·)) (hu : t.remove removed = .ok u) :
    u.Formed := by
  have hnodes := nodes_remove h.indexed ha hu
  obtain ⟨-, hclosed, rfl⟩ := remove_eq_ok_iff.1 hu
  refine ⟨h.indexed.foldr_takeOut removed, hnodes ▸ h.forest.filter _ fun n hn hk p _ hpid => ?_⟩
  simp only [Bool.not_eq_true', List.contains_eq_mem, decide_eq_false_iff_not] at hk ⊢
  exact hpid ▸ hclosed n hn hk

end Tree

end ByteAtlas
