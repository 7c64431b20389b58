/-
Documents that are stored and opened again. Loading refuses ids above `Tree.maxId` and next new ids above the one after it;
the new ids that edits give out are bounded by the size of a word alone. A document can so be edited into one that is
stored and not opened again, but only by giving out the half of the words that loading keeps free.

- `Tree.ofNodes_of_formed`: of a forest with ids in range nothing else is refused.
- `Tree.Steady.readBack`: a steady tree is read back from its text exactly if its next new id is in range.
- `Document.reopens_run`: the same of every document that comes of a stored one.
- `Document.not_reopened_last`: one new struct is enough after the largest id that loading lets in.
-/
import ByteAtlas.Proofs.Stored.RoundTrip
import ByteAtlas.Proofs.Document.Reachable

namespace ByteAtlas

namespace Tree

variable {t u : Tree} {ns : List Node}

/-! ## What is refused -/

theorem ne_of_nodup_append {n : Node} {rest : List Node} (hd : ((t.nodes ++ n :: rest).map (·.id)).Nodup) :
    ∀ m ∈ t.nodes, m.id ≠ n.id := by
  intro m hm
  rw [List.map_append, List.nodup_append] at hd
  exact hd.2.2 m.id (List.mem_map_of_mem hm) n.id (List.mem_map_of_mem List.mem_cons_self)

/-- nodes with ids of their own are pushed, unless an id leaves no room -/
theorem pushAll_of_nodup (h : t.Indexed) (h0 : ∀ n ∈ ns, n.id ≠ 0) (hd : ((t.nodes ++ ns).map (·.id)).Nodup) :
    ((∀ n ∈ ns, ¬ maxId < n.id) → t.pushAll ns = .ok (ns.foldl push t)) ∧
    ((∃ n ∈ ns, maxId < n.id) → ∃ id, maxId < id ∧ t.pushAll ns = .error (.idOutOfRange id)) := by
  induction ns generalizing t with
  | nil => exact ⟨fun _ => rfl, by simp⟩
  | cons n rest ih =>
    obtain ⟨hn0, hrest0⟩ := List.forall_mem_cons.1 h0
    have hid := ne_of_nodup_append hd
    have hc : t.contains n.id = false := (contains_eq_false_iff h).2 hid
    have hd' : (((t.push n).nodes ++ rest).map (·.id)).Nodup := by
      rwa [nodes_push, List.append_assoc, List.singleton_append]
    obtain ⟨hok, herror⟩ := ih (h.push hid) hrest0 hd'
    rw [pushAll, if_neg hn0, hc, if_neg Bool.false_ne_true]
    constructor
    · intro hroom
      obtain ⟨hn, hrest⟩ := List.forall_mem_cons.1 hroom
      rw [if_neg hn, hok hrest, List.foldl_cons]
    · intro hno
      by_cases hn : maxId < n.id
      · exact ⟨n.id, hn, by rw [if_pos hn]⟩
      · rw [if_neg hn]
        obtain ⟨m, hm, hlt⟩ := hno
        rcases List.mem_cons.1 hm with rfl | hm
        · exact absurd hlt hn
        · exact herror ⟨m, hm, hlt⟩

theorem climbsTo_zero (t : Tree) (id : NodeId) (steps : Nat) : t.climbsTo id (steps + 1) 0 = false := by
  rw [climbsTo, if_pos rfl]

/-- a walk up from a node comes to its end, unless it meets what it looks for -/
theorem climbsTo_eq_false (h : t.Formed) {depth : NodeId → Nat}
    (hdepth : ∀ n ∈ t.nodes, n.parent ≠ 0 → depth n.parent < depth n.id) {id : NodeId} {steps : Nat} {n : Node}
    (hn : n ∈ t.nodes) (hsteps : depth n.id + 1 < steps) (hno : ¬ LiesAbove t.nodes id n.id) :
    t.climbsTo id steps n.id = false := by
  induction steps generalizing n with
  | zero => omega
  | succ steps ih =>
    have hne : n.id ≠ id := fun e => hno (e ▸ .self)
    have hp : t.parentOf n.id = n.parent := by rw [parentOf, (find?_eq_some_iff h.indexed).2 ⟨hn, rfl⟩]; rfl
    rw [climbsTo, if_neg (h.forest.nonzero n hn), if_neg hne, hp]
    by_cases hroot : n.parent = 0
    · obtain ⟨k, rfl⟩ : ∃ k, steps = k + 1 := ⟨steps - 1, by omega⟩
      rw [hroot, climbsTo_zero]
    · obtain ⟨p, hpm, hpid, -⟩ := (h.forest.held n hn).resolve_left hroot
      have hlt := hdepth n hn hroot
      rw [← hpid] at hlt ⊢
      exact ih hpm (by omega) fun hab => hno (.up hn hroot (hpid ▸ hab))

/-- no node of a forest is on a ring -/
theorem isOnRing_eq_false (h : t.Formed) {n : Node} (hn : n ∈ t.nodes) : t.isOnRing n.id = false := by
  have hp : t.parentOf n.id = n.parent := by rw [parentOf, (find?_eq_some_iff h.indexed).2 ⟨hn, rfl⟩]; rfl
  rw [isOnRing, hp]
  by_cases hroot : n.parent = 0
  · rw [hroot, climbsTo_zero]
  · obtain ⟨depth, hlen, hdepth⟩ := h.forest.exists_depth
    obtain ⟨p, hpm, hpid, -⟩ := (h.forest.held n hn).resolve_left hroot
    have hlt := hdepth n hn hroot
    have hle := hlen n hn
    have hno := h.forest.not_liesAbove_parent hn hroot
    rw [← hpid] at hlt hno ⊢
    exact climbsTo_eq_false h hdepth hpm (by omega) hno

theorem checkHolders_of_formed (h : t.Formed) (hns : ns ⊆ t.nodes) : t.checkHolders ns = .ok () := by
  induction ns with
  | nil => rfl
  | cons n rest ih =>
    have hn := hns List.mem_cons_self
    have hholder := (checkHolder_eq_ok_iff h.indexed).2 (h.forest.held n hn)
    simp only [checkHolders, hholder, isOnRing_eq_false h hn, Bool.false_eq_true, if_false]
    exact ih fun m hm => hns (List.mem_cons_of_mem _ hm)

/-! ## Building a tree from its nodes -/

/-- **Of the nodes of a forest only ids and the next new id can be refused.** If both are in range, the tree that is built
has the nodes in their order. -/
theorem ofNodes_of_formed (h : t.Formed) (base nextId : UInt64) :
    ((∀ n ∈ t.nodes, ¬ maxId < n.id) → ¬ maxId + 1 < nextId → ∃ u, ofNodes base t.nodes nextId = .ok u ∧
      u.base = base ∧ u.nodes = t.nodes ∧ u.nextId = max (t.nodes.foldl push (empty base)).nextId nextId) ∧
    ((∃ n ∈ t.nodes, maxId < n.id) ∨ maxId + 1 < nextId →
      ∃ id, maxId < id ∧ ofNodes base t.nodes nextId = .error (.idOutOfRange id)) := by
  have hempty := wellFormed_empty base
  have hd : (((empty base).nodes ++ t.nodes).map (·.id)).Nodup := h.forest.distinct
  obtain ⟨hok, herror⟩ := pushAll_of_nodup hempty.indexed h.forest.nonzero hd
  constructor
  · intro hroom hnext
    have hpush := hok hroom
    have hnodes : (t.nodes.foldl push (empty base)).nodes = t.nodes := nodes_foldl_push _ _
    refine ⟨{ t.nodes.foldl push (empty base) with
      nextId := max (t.nodes.foldl push (empty base)).nextId nextId }, ?_, base_foldl_push _ _, hnodes, rfl⟩
    have hformed : Formed { t.nodes.foldl push (empty base) with
        nextId := max (t.nodes.foldl push (empty base)).nextId nextId } :=
      ⟨((loaded_empty base).pushAll hpush).indexed, by rw [hnodes]; exact h.forest⟩
    have hcheck := checkHolders_of_formed hformed (List.Subset.refl _)
    simp only [ofNodes, hpush, bind, Except.bind, hnext, if_false, hcheck]
    rfl
  · intro hno
    by_cases hroom : ∃ n ∈ t.nodes, maxId < n.id
    · obtain ⟨id, hid, hpush⟩ := herror hroom
      exact ⟨id, hid, by simp only [ofNodes, hpush, bind, Except.bind]⟩
    · have hnext := hno.resolve_left hroom
      have hpush := hok (by simpa using hroom)
      refine ⟨nextId, UInt64.lt_trans (by decide) hnext, ?_⟩
      simp only [ofNodes, hpush, bind, Except.bind, hnext, if_true]
      rfl

/-! ## Reading a tree back -/

/-- reading the text of a tree is building it from what is stored -/
theorem ofText_toText_eq (t : Tree) : ofText t.toText = Stored.tree ⟨formatVersion, t.base, t.nextId, t.nodes⟩ := by
  have hread : Json.ofText? t.toText = some t.toJson := Json.ofText?_pretty t.plain_toJson
  rw [ofText, hread, ofJson, Option.bind_some, ofJson?_toJson]

/-- **A steady tree is read back from its text if its next new id is in range, and refused if not.** -/
theorem Steady.readBack (h : t.Steady) :
    (t.nextId ≤ maxId + 1 → ∃ u, ofText t.toText = .ok u ∧ u.base = t.base ∧ u.nodes = t.nodes ∧ u.nextId = t.nextId) ∧
    (maxId + 1 < t.nextId → ∃ id, maxId < id ∧ ofText t.toText = .error (.invalid (.idOutOfRange id))) := by
  obtain ⟨hok, herror⟩ := ofNodes_of_formed h.toFormed t.base t.nextId
  have hversion : ¬ formatVersion < formatVersion := Nat.lt_irrefl _
  rw [ofText_toText_eq]
  simp only [Stored.tree, hversion, if_false]
  constructor
  · intro hnext
    have hroom : t.nextId.toNat ≤ maxId.toNat + 1 := UInt64.le_iff_toNat_le.1 hnext
    have htop : t.nextId.toNat < Word.top := Nat.lt_of_le_of_lt hroom (by decide)
    have hbelow : ∀ n ∈ t.nodes, n.id.toNat < t.nextId.toNat := fun n hn => UInt64.lt_iff_toNat_lt.1 (h.below htop n hn)
    have hids : ∀ n ∈ t.nodes, ¬ maxId < n.id := by
      intro n hn hlt
      rw [UInt64.lt_iff_toNat_lt] at hlt
      have := hbelow n hn
      omega
    obtain ⟨u, hu, hbase, hnodes, hnew⟩ := hok hids (UInt64.not_lt.2 hnext)
    refine ⟨u, by rw [hu], hbase, hnodes, ?_⟩
    have hle : (t.nodes.foldl Tree.push (empty t.base)).nextId ≤ t.nextId := by
      refine nextId_foldl_push_le (UInt64.le_iff_toNat_le.2 ?_) fun n hn => UInt64.le_iff_toNat_le.2 ?_
      · exact UInt64.lt_iff_toNat_lt.1 h.positive
      · have := hbelow n hn
        rw [Word.toNat_satAdd, show (1 : UInt64).toNat = 1 from rfl]
        omega
    rw [hnew, ← UInt64.toNat_inj, Word.toNat_max]
    exact max_eq_right (UInt64.le_iff_toNat_le.1 hle)
  · intro hnext
    obtain ⟨id, hid, hrefused⟩ := herror (Or.inr hnext)
    exact ⟨id, hid, by rw [hrefused]⟩

/-- a text that is read comes of a list of nodes that is accepted -/
theorem ofNodes_of_ofText {s : String} (hs : ofText s = .ok t) : ∃ base ns nextId, ofNodes base ns nextId = .ok t := by
  unfold ofText ofJson at hs
  cases hj : (Json.ofText? s).bind Stored.ofJson? with
  | none => simp [hj] at hs
  | some stored =>
    simp only [hj, Stored.tree] at hs
    split at hs
    · simp at hs
    · cases ht : ofNodes stored.base stored.nodes stored.nextId with
      | error e => simp [ht] at hs
      | ok u =>
        simp only [ht, Except.ok.injEq] at hs
        exact ⟨stored.base, stored.nodes, stored.nextId, hs ▸ ht⟩

end Tree

namespace Document

variable {τ : Type} [Transport τ] {d : Document τ} {s : String}

/-- **What comes of a stored document can be stored and opened again as long as its next new id is in range**, with the
same nodes in their order, the same base and the same next new id. From then on it is refused. -/
theorem reopens_run (hs : Tree.ofText s = .ok d.tree) (hdone : d.history.done = []) (hundone : d.history.undone = [])
    (es : List Event) :
    ((d.run es).tree.nextId ≤ Tree.maxId + 1 → ∃ u, Tree.ofText (d.run es).tree.toText = .ok u ∧
      u.base = (d.run es).tree.base ∧ u.nodes = (d.run es).tree.nodes ∧ u.nextId = (d.run es).tree.nextId) ∧
    (Tree.maxId + 1 < (d.run es).tree.nextId → ∃ id, Tree.maxId < id ∧
      Tree.ofText (d.run es).tree.toText = .error (.invalid (.idOutOfRange id))) := by
  obtain ⟨base, ns, nextId, hns⟩ := Tree.ofNodes_of_ofText hs
  have h : d.Orderly := ⟨(Tree.wellFormed_ofNodes hns).steady, by simp [hdone], by simp [hundone]⟩
  exact (h.run es).orderly.tree.readBack

/-- a struct with the largest id that loading lets in -/
def lastNodes : List Node := [{ Node.rootStruct "last" "Last" with id := Tree.maxId }]

def lastTree : Tree := lastNodes.foldl Tree.push (Tree.empty 0)

theorem ofText_lastTree : Tree.ofText lastTree.toText = .ok lastTree := by
  have hns : Tree.ofNodes 0 lastNodes 1 = .ok lastTree := rfl
  rw [Tree.ofText_toText_eq]
  simp only [Tree.Stored.tree, Nat.lt_irrefl, if_false]
  rw [show Tree.ofNodes lastTree.base lastTree.nodes lastTree.nextId = .ok lastTree from Tree.ofNodes_again hns]

/-- the struct can be folded and given another label and then opened again, but not after a second struct is made -/
theorem reopens_run_last :
    (∃ u, Tree.ofText ((ofTree lastTree : Document Image).run
      [.act (.ask (.toggleFold Tree.maxId)), .act .undo, .act (.ask (.rename Tree.maxId "first"))]).tree.toText = .ok u ∧
      u.nodes = [{ Node.rootStruct "first" "Last" with id := Tree.maxId }]) ∧
    ∃ id, Tree.maxId < id ∧ Tree.ofText ((ofTree lastTree : Document Image).run [.act (.ask .newStruct)]).tree.toText =
      .error (.invalid (.idOutOfRange id)) := by
  have hs : Tree.ofText lastTree.toText = .ok (ofTree lastTree : Document Image).tree := ofText_lastTree
  constructor
  · obtain ⟨u, hu, -, hnodes, -⟩ := (reopens_run hs rfl rfl
      [.act (.ask (.toggleFold Tree.maxId)), .act .undo, .act (.ask (.rename Tree.maxId "first"))]).1 (by decide)
    exact ⟨u, hu, hnodes⟩
  · exact (reopens_run hs rfl rfl [.act (.ask .newStruct)]).2 (by decide)

/-- **A stored document need not open again.** A document that is opened with the largest id and given one new struct has
half of the words left for new ids, but its text is refused for the id of that struct. -/
theorem not_reopened_last : Tree.ofText lastTree.toText = .ok (ofTree lastTree : Document Image).tree ∧
    ((ofTree lastTree : Document Image).run [.act (.ask .newStruct)]).tree.nextId.toNat < Word.top ∧
    Tree.ofText ((ofTree lastTree : Document Image).run [.act (.ask .newStruct)]).tree.toText =
      .error (.invalid (.idOutOfRange 0x8000000000000000)) := by
  refine ⟨ofText_lastTree, by decide, ?_⟩
  rw [Tree.ofText_toText_eq]
  rfl

end Document

end ByteAtlas
