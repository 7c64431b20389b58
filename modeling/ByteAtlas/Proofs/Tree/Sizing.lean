/-
The computation of sizes as it runs. Sizes follow children and references, and references may form any graph. What keeps the
computation from going round is a set of ids that are being measured: an id is put into it when its node is entered and taken
out when the node is left.

- `Tree.Measures`: a measurement that comes to its end, with the ids being measured before and after it.
- `Tree.outside`: how many nodes are not being measured. It goes down with every node that is entered.
- `exists_size`, `exists_stride`: every measurement comes to its end, with one result, and leaves the ids being measured as
  they were.
- `measures_size`, `measures_stride`: the results are the sizes and distances of the tree.
-/
import ByteAtlas.Proofs.Tree.WellFormed
import ByteAtlas.Tree.Extent

namespace ByteAtlas

/-- Started with some ids in progress, a computation comes to its end, whatever way it goes with this result, and the ids in
progress are then those that it was started with. -/
def EndsWith {α : Type} (run : Finset NodeId → α → Finset NodeId → Prop) (s : Finset NodeId) (a : α) : Prop :=
  ∀ a' s', run s a' s' ↔ a' = a ∧ s' = s

namespace Tree

/-- something to be measured -/
inductive Measurand where
  /-- the size of the node at a position -/
  | size (i : Nat)
  /-- how far the nodes at some positions reach, or so far at least -/
  | reach (least : UInt64) (cs : List Nat)
  /-- the distance between elements of the array at a position -/
  | stride (i : Nat)
  /-- the size of what a node refers to -/
  | target (n : Node)

/-- A measurement that comes to its end: the ids being measured before it, what is measured, the result, and the ids being
measured after it. -/
inductive Measures (t : Tree) : Finset NodeId → Measurand → UInt64 → Finset NodeId → Prop
  | absent {s : Finset NodeId} {i : Nat} : t.nodes[i]? = none → Measures t s (.size i) 0 s
  | plain {s : Finset NodeId} {i : Nat} {n : Node} : t.nodes[i]? = some n → ¬ n.kind.canHold →
      Measures t s (.size i) (n.ownSize.getD 0) s
  | array {s s' : Finset NodeId} {i : Nat} {n : Node} {w : UInt64} : t.nodes[i]? = some n → n.kind = .array →
      Measures t s (.stride i) w s' → Measures t s (.size i) (Word.satMul n.arrayLen w) s'
  /-- a struct that is being measured has no size of its own -/
  | again {s : Finset NodeId} {i : Nat} {n : Node} : t.nodes[i]? = some n → n.kind = .struct → n.id ∈ s →
      Measures t s (.size i) 0 s
  | holder {s s' : Finset NodeId} {i : Nat} {n : Node} {w : UInt64} : t.nodes[i]? = some n → n.kind = .struct →
      n.id ∉ s → t.children n.id ≠ [] → Measures t (Insert.insert n.id s) (.reach 0 (t.children n.id)) w s' →
      Measures t s (.size i) w (s'.erase n.id)
  | embedded {s s' : Finset NodeId} {i : Nat} {n : Node} {w : UInt64} : t.nodes[i]? = some n → n.kind = .struct →
      n.id ∉ s → t.children n.id = [] → Measures t (Insert.insert n.id s) (.target n) w s' →
      Measures t s (.size i) w (s'.erase n.id)
  | reached {s : Finset NodeId} {least : UInt64} : Measures t s (.reach least []) least s
  | further {s s' s'' : Finset NodeId} {least w w' : UInt64} {c : Nat} {cs : List Nat} : Measures t s (.size c) w s' →
      Measures t s' (.reach (max least (Word.satAdd (t.offsetAt c) w)) cs) w' s'' →
      Measures t s (.reach least (c :: cs)) w' s''
  | noArray {s : Finset NodeId} {i : Nat} : t.nodes[i]? = none → Measures t s (.stride i) 0 s
  | uniform {s : Finset NodeId} {i : Nat} {n : Node} : t.nodes[i]? = some n → n.elementKind ≠ .struct →
      Measures t s (.stride i) (n.elementKind.fixedSize.getD 0) s
  /-- an array whose elements are being measured has no distance of its own -/
  | within {s : Finset NodeId} {i : Nat} {n : Node} : t.nodes[i]? = some n → n.elementKind = .struct → n.id ∈ s →
      Measures t s (.stride i) 0 s
  | row {s s' : Finset NodeId} {i : Nat} {n : Node} {w : UInt64} : t.nodes[i]? = some n → n.elementKind = .struct →
      n.id ∉ s → Measures t (Insert.insert n.id s) (.target n) w s' → Measures t s (.stride i) w (s'.erase n.id)
  | undefined {s : Finset NodeId} {n : Node} : t.target n = none → Measures t s (.target n) 0 s
  | defined {s s' : Finset NodeId} {n : Node} {d : Nat} {w : UInt64} : t.target n = some d →
      Measures t s (.size d) w s' → Measures t s (.target n) w s'

variable {t : Tree} {s s' : Finset NodeId} {l : List NodeId} {m : Measurand} {w : UInt64} {i : Nat} {n : Node}

/-! ## What is not in progress -/

/-- how many nodes have an id outside a set -/
def outside (t : Tree) (s : Finset NodeId) : Nat := t.nodes.countP fun n => decide (n.id ∉ s)

theorem outside_le (t : Tree) (s : Finset NodeId) : t.outside s ≤ t.nodes.length := List.countP_le_length

/-- so a measurement that has just been started may go down deep enough -/
theorem outside_lt_depthBound (t : Tree) (s : Finset NodeId) : t.outside s < t.depthBound :=
  Nat.lt_succ_of_le (Nat.le_succ_of_le (t.outside_le s))

theorem outside_insert_lt (hn : n ∈ t.nodes) (hno : n.id ∉ s) : t.outside (Insert.insert n.id s) < t.outside s := by
  have hfilter : (t.nodes.filter fun m => decide (m.id ∉ Insert.insert n.id s)) =
      (t.nodes.filter fun m => decide (m.id ∉ s)).filter fun m => decide (m.id ≠ n.id) := by
    rw [List.filter_filter]
    refine List.filter_congr fun m _ => ?_
    simp
  rw [outside, outside, List.countP_eq_length_filter, List.countP_eq_length_filter, hfilter,
    List.length_filter_lt_length_iff_exists]
  exact ⟨n, List.mem_filter.2 ⟨hn, by simpa using hno⟩, by simp⟩

/-! ## Measurements end -/

theorem measures_target {f : Nat → UInt64} (hsize : ∀ d, t.Measures s (.size d) (f d) s) (n : Node) :
    t.Measures s (.target n) (((t.target n).map f).getD 0) s := by
  cases hd : t.target n with
  | none => exact .undefined hd
  | some d => exact .defined hd (hsize d)

theorem measures_reach {f : Nat → UInt64} (hsize : ∀ d, t.Measures s (.size d) (f d) s) (least : UInt64) (cs : List Nat) :
    t.Measures s (.reach least cs) ((cs.map fun c => Word.satAdd (t.offsetAt c) (f c)).foldl max least) s := by
  induction cs generalizing least with
  | nil => exact .reached
  | cons c rest ih => exact .further (hsize c) (ih _)

/-- a node that is entered and left -/
theorem erase_insert_toFinset {id : NodeId} (hno : id ∉ l) : (Insert.insert id l.toFinset).erase id = l.toFinset :=
  Finset.erase_insert (by simpa using hno)

/-- the distance between elements, if the sizes of other nodes are measured while the array is in progress -/
theorem measures_strideWith (size : List NodeId → Nat → UInt64) (hn : t.nodes[i]? = some n)
    (hsize : n.id ∉ l → ∀ d, t.Measures (Insert.insert n.id l.toFinset) (.size d) (size (n.id :: l) d)
      (Insert.insert n.id l.toFinset)) : t.Measures l.toFinset (.stride i) (t.strideWith size l n) l.toFinset := by
  unfold strideWith
  split_ifs with hk hin
  · exact .uniform hn hk
  · exact .within hn (not_not.1 hk) (by simpa using hin)
  · have hno : n.id ∉ l := by simpa using hin
    have hrow := Measures.row hn (not_not.1 hk) (by simpa using hno) (measures_target (hsize hno) n)
    rwa [erase_insert_toFinset hno] at hrow

theorem measure_of_not_canHold (hn : t.nodes[i]? = some n) (hk : ¬ n.kind.canHold) (depth : Nat) (l : List NodeId) :
    t.measure (depth + 1) l i = n.ownSize.getD 0 := by
  rw [measure, hn]
  cases hkind : n.kind <;> simp_all [Kind.canHold]

/-- **A measurement ends** if it may go down deeper than there are nodes that are not in progress. -/
theorem measures_measure {depth : Nat} (hdepth : t.outside l.toFinset < depth) (i : Nat) :
    t.Measures l.toFinset (.size i) (t.measure depth l i) l.toFinset := by
  induction depth generalizing l i with
  | zero => omega
  | succ depth ih =>
    cases hn : t.nodes[i]? with
    | none =>
      rw [measure, hn]
      exact .absent hn
    | some n =>
      -- once the node is entered, fewer nodes are left
      have hinner : n.id ∉ l → ∀ d, t.Measures (Insert.insert n.id l.toFinset) (.size d) (t.measure depth (n.id :: l) d)
          (Insert.insert n.id l.toFinset) := by
        intro hno d
        have hlt := outside_insert_lt (s := l.toFinset) (List.mem_of_getElem? hn) (by simpa using hno)
        have hend := ih (l := n.id :: l) (by rw [List.toFinset_cons]; omega) d
        rwa [List.toFinset_cons] at hend
      by_cases hk : n.kind.canHold
      · rw [measure, hn]
        rcases Kind.canHold_iff.1 hk with hk | hk
        · simp only [hk]
          split_ifs with hin
          · exact .again hn hk (by simpa using hin)
          · have hno : n.id ∉ l := by simpa using hin
            split
            · next hempty =>
              have hend := Measures.embedded hn hk (by simpa using hno) hempty (measures_target (hinner hno) n)
              rwa [erase_insert_toFinset hno] at hend
            · next hne =>
              have hend := Measures.holder hn hk (by simpa using hno) hne (measures_reach (hinner hno) 0 _)
              rwa [erase_insert_toFinset hno] at hend
        · simp only [hk]
          exact .array hn hk (measures_strideWith _ hn hinner)
      · rw [measure_of_not_canHold hn hk]
        exact .plain hn hk

/-! ## Results -/

/-- a measurement has one result, and leaves one set behind -/
theorem Measures.unique {w' : UInt64} {s'' : Finset NodeId} (hm : t.Measures s m w s') (hm' : t.Measures s m w' s'') :
    w = w' ∧ s' = s'' := by
  induction hm generalizing w' s'' with
  | absent | plain | again | reached | noArray | uniform | within | undefined => cases hm' <;> simp_all [Kind.canHold]
  | array hn hk _ ih =>
    cases hm' with
    | array hn' _ hstride =>
      obtain rfl := Option.some.inj (hn.symm.trans hn')
      obtain ⟨rfl, rfl⟩ := ih hstride
      exact ⟨rfl, rfl⟩
    | _ => simp_all [Kind.canHold]
  | holder hn hk hno hne _ ih =>
    cases hm' with
    | holder hn' _ _ _ hreach =>
      obtain rfl := Option.some.inj (hn.symm.trans hn')
      obtain ⟨rfl, rfl⟩ := ih hreach
      exact ⟨rfl, rfl⟩
    | _ => simp_all [Kind.canHold]
  | embedded hn hk hno hempty _ ih =>
    cases hm' with
    | embedded hn' _ _ _ htarget =>
      obtain rfl := Option.some.inj (hn.symm.trans hn')
      obtain ⟨rfl, rfl⟩ := ih htarget
      exact ⟨rfl, rfl⟩
    | _ => simp_all [Kind.canHold]
  | further _ _ ihc ihcs =>
    cases hm' with
    | further hc hcs =>
      obtain ⟨rfl, rfl⟩ := ihc hc
      exact ihcs hcs
  | row hn hk hno _ ih =>
    cases hm' with
    | row hn' _ _ htarget =>
      obtain rfl := Option.some.inj (hn.symm.trans hn')
      obtain ⟨rfl, rfl⟩ := ih htarget
      exact ⟨rfl, rfl⟩
    | _ => simp_all
  | defined hd _ ih =>
    cases hm' with
    | undefined hd' => simp [hd] at hd'
    | defined hd' hsize =>
      obtain rfl := Option.some.inj (hd.symm.trans hd')
      exact ih hsize

theorem endsWith_of_measures (hm : t.Measures s m w s) : EndsWith (t.Measures · m) s w := by
  intro w' s'
  constructor
  · intro hm'
    obtain ⟨rfl, rfl⟩ := hm.unique hm'
    exact ⟨rfl, rfl⟩
  · rintro ⟨rfl, rfl⟩
    exact hm

/-- whatever is in progress, measuring a node ends -/
theorem exists_size (t : Tree) (s : Finset NodeId) (i : Nat) : ∃ w, EndsWith (t.Measures · (.size i)) s w := by
  have hend := measures_measure (l := s.toList) (Nat.lt_succ_self (t.outside s.toList.toFinset)) i
  rw [Finset.toList_toFinset] at hend
  exact ⟨_, endsWith_of_measures hend⟩

/-- and so does measuring the elements of an array -/
theorem exists_stride (t : Tree) (s : Finset NodeId) (i : Nat) : ∃ w, EndsWith (t.Measures · (.stride i)) s w := by
  cases hn : t.nodes[i]? with
  | none => exact ⟨0, endsWith_of_measures (.noArray hn)⟩
  | some n =>
    have hend := measures_strideWith (l := s.toList) (t.measure (t.nodes.length + 1)) hn fun _ d => by
      rw [← List.toFinset_cons]
      exact measures_measure (Nat.lt_succ_of_le (t.outside_le _)) d
    rw [Finset.toList_toFinset] at hend
    exact ⟨_, endsWith_of_measures hend⟩

/-- the size of a node is what measuring it comes to -/
theorem measures_size (t : Tree) (i : Nat) : t.Measures ∅ (.size i) (t.size i) ∅ :=
  measures_measure (l := []) (t.outside_lt_depthBound _) i

/-- the distance between elements is what measuring them comes to -/
theorem measures_stride (t : Tree) (i : Nat) : t.Measures ∅ (.stride i) (t.stride i) ∅ := by
  unfold stride
  cases hn : t.nodes[i]? with
  | none => exact .noArray hn
  | some n =>
    refine measures_strideWith (l := []) _ hn fun _ d => ?_
    exact measures_measure (l := [n.id]) (t.outside_lt_depthBound _) d

end Tree

end ByteAtlas
