/-
Members of a definition against its children. Gathering is a partition of the children in order: whatever is not raw stands
alone, whatever is raw is in a run, and runs are as long as they can be.

- `Gathers.parts`: this holds of members gathered from the front of any list of positions.
- `RawRun.stop_runOf`: a run starts no later than it ends, so its size is what lies between.
- `members_partition`: the members of a node.
-/
import ByteAtlas.Proofs.Members.Runs

namespace ByteAtlas

def Member.nodes : Member → List Nat
  | .node i => [i]
  | .raw run => run.nodes

/-- the position of a node that stands alone -/
def Member.single? : Member → Option Nat
  | .node i => some i
  | .raw _ => none

/-- where a run ends by its own account, counted from the start of the definition -/
def RawRun.stop (run : RawRun) : ℕ := run.offset.toNat + run.size.toNat

/-- a second run starts before the first one ends; nothing is said of other members -/
def Member.CutOff : Member → Member → Prop
  | .raw run, .raw next => next.offset.toNat < run.stop
  | _, _ => True

@[simp] theorem Member.nodes_node (i : Nat) : (Member.node i).nodes = [i] := rfl

@[simp] theorem Member.nodes_raw (run : RawRun) : (Member.raw run).nodes = run.nodes := rfl

@[simp] theorem Member.single?_node (i : Nat) : (Member.node i).single? = some i := rfl

@[simp] theorem Member.single?_raw (run : RawRun) : (Member.raw run).single? = none := rfl

namespace Tree

variable {t : Tree} {i : Nat} {cs r : List Nat} {ms : List Member} {run : RawRun}

@[simp] theorem nodes_runOf (t : Tree) (i : Nat) (r : List Nat) : (t.runOf i r).nodes = i :: r := rfl

@[simp] theorem offset_runOf (t : Tree) (i : Nat) (r : List Nat) : (t.runOf i r).offset = t.offsetAt i := rfl

/-- **The size of a run is what lies between its ends**: the difference is taken of an end that is not before the start. -/
theorem stop_runOf (h : (i :: r).IsChain t.Follows) :
    (t.runOf i r).stop = (t.endAt ((i :: r).getLast (List.cons_ne_nil i r))).toNat := by
  have hle := offsetAt_le_of_follows h
  have hnat := UInt64.le_iff_toNat_le.1 hle
  have hsize : (t.runOf i r).size.toNat =
      (t.endAt ((i :: r).getLast (List.cons_ne_nil i r))).toNat - (t.offsetAt i).toNat := UInt64.toNat_sub_of_le _ _ hle
  rw [RawRun.stop, hsize, offset_runOf]
  omega

/-- what members gathered from a list of positions are, in terms of that list -/
structure Parts (t : Tree) (cs : List Nat) (ms : List Member) : Prop where
  nodes : ms.flatMap Member.nodes = cs
  singles : ms.filterMap Member.single? = cs.filter fun c => !t.isRawAt c
  runs : ∀ run, .raw run ∈ ms → run.nodes ≠ [] ∧ ∀ c ∈ run.nodes, t.isRawAt c
  cutOff : ms.IsChain Member.CutOff

/-- a run that comes first starts at the first position, which is raw -/
theorem Gathers.head_raw (h : t.Gathers cs ms) (hrun : .raw run ∈ ms.head?) :
    ∃ c ∈ cs.head?, t.isRawAt c ∧ run.offset = t.offsetAt c := by
  cases h with
  | nil => simp at hrun
  | plain _ _ => simp at hrun
  | @run i r left ms hraws _ _ _ =>
    obtain rfl : t.runOf i r = run := by simpa using hrun
    exact ⟨i, by simp, hraws i List.mem_cons_self, rfl⟩

/-- **Gathering is a partition in order.** -/
theorem Gathers.parts (h : t.Gathers cs ms) : t.Parts cs ms := by
  induction h with
  | nil => exact ⟨rfl, rfl, by simp, .nil⟩
  | @plain i rest ms hraw _ ih =>
    refine ⟨?_, ?_, ?_, ?_⟩
    · simp [ih.nodes]
    · simp [ih.singles, hraw]
    · intro run hrun
      exact ih.runs run (by simpa using hrun)
    · exact List.isChain_cons.2 ⟨fun _ _ => trivial, ih.cutOff⟩
  | @run i r left ms hraws hchain hstops hrest ih =>
    have hnone : (i :: r).filter (fun c => !t.isRawAt c) = [] := by
      rw [List.filter_eq_nil_iff]
      intro c hc
      simp [hraws c hc]
    refine ⟨?_, ?_, ?_, ?_⟩
    · simp [ih.nodes]
    · rw [List.filter_append, hnone, List.nil_append, ← ih.singles]
      exact List.filterMap_cons_none rfl
    · intro run hrun
      rcases List.mem_cons.1 hrun with he | hrun
      · obtain rfl := Member.raw.inj he
        exact ⟨List.cons_ne_nil i r, hraws⟩
      · exact ih.runs run hrun
    · refine List.isChain_cons.2 ⟨fun next hnext => ?_, ih.cutOff⟩
      cases next with
      | node c => trivial
      | raw next =>
        -- the run stopped at a raw member, so this one starts before the end
        obtain ⟨c, hc, hraw, hoffset⟩ := hrest.head_raw hnext
        have hlt : t.offsetAt c < t.endAt ((i :: r).getLast (List.cons_ne_nil i r)) :=
          UInt64.not_le.1 (hstops c hc hraw)
        change next.offset.toNat < (t.runOf i r).stop
        rw [hoffset, stop_runOf hchain]
        exact UInt64.lt_iff_toNat_lt.1 hlt

/-- **Gathering loses, repeats and reorders nothing.** Let no child of a node end past the end of memory. The nodes of its
members, one member after the other, are its children in order. The members that stand alone are the children that are not
raw. Every run has nodes and all of them are raw; it starts where the first of them starts and ends where the last one ends,
which is not before. Two runs stand side by side only if the second starts before the end of the first. -/
theorem members_partition (t : Tree) (i : Nat) (hfits : ∀ c ∈ t.childrenAt i, t.stopAt c < UInt64.size) :
    (t.members i).flatMap Member.nodes = t.childrenAt i ∧
    (t.members i).filterMap Member.single? = (t.childrenAt i).filter (fun c => !t.isRawAt c) ∧
    (∀ run, .raw run ∈ t.members i → run.nodes ≠ [] ∧ (∀ c ∈ run.nodes, t.isRawAt c) ∧
      (∀ c ∈ run.nodes.head?, run.offset = t.offsetAt c) ∧
      ∀ c ∈ run.nodes.getLast?, run.offset.toNat + run.size.toNat = t.stopAt c) ∧
    ∀ before run next after, t.members i = before ++ .raw run :: .raw next :: after →
      next.offset.toNat < run.offset.toNat + run.size.toNat := by
  have hgathers := t.gathers_members i
  have hparts := hgathers.parts
  refine ⟨hparts.nodes, hparts.singles, ?_, ?_⟩
  · intro run hrun
    obtain ⟨hne, hraws⟩ := hparts.runs run hrun
    obtain ⟨c, r, rfl, -, hchain⟩ := hgathers.exists_runOf hrun
    have hlast : (c :: r).getLast (List.cons_ne_nil c r) ∈ t.childrenAt i := by
      rw [← hparts.nodes]
      exact List.mem_flatMap.2 ⟨_, hrun, List.getLast_mem (List.cons_ne_nil c r)⟩
    refine ⟨hne, hraws, by simp, ?_⟩
    intro b hb
    obtain rfl : (c :: r).getLast (List.cons_ne_nil c r) = b := by
      simpa [List.getLast?_eq_some_getLast (List.cons_ne_nil c r)] using hb
    exact (stop_runOf hchain).trans (toNat_endAt_of_lt (hfits _ hlast))
  · intro before run next after he
    exact List.isChain_iff_forall_rel_of_append_cons_cons.1 hparts.cutOff he

/-- a struct with two raw members side by side, a number, and two raw members upon each other -/
def rawNodes : List Node :=
  [{ Node.rootStruct "r" "Raw" with id := 1 }, { Node.field 1 0 .hex32 "h0" with id := 2 },
    { Node.field 1 4 .hex16 "h1" with id := 3 }, { Node.field 1 8 .int32 "n" with id := 4 },
    { Node.field 1 12 .hex64 "solo" with id := 5 }, { Node.field 1 14 .hex8 "upon" with id := 6 }]

def rawTree : Tree := rawNodes.foldl push (empty 0)

/-- the first two make up a run; the last two do not, and the second of them starts before the end of the first -/
theorem members_partition_raw : rawTree.WellFormed ∧ (∀ c ∈ rawTree.childrenAt 0, rawTree.stopAt c < UInt64.size) ∧
    rawTree.members 0 = [.raw ⟨[1, 2], 0, 6, none⟩, .node 3, .raw ⟨[4], 12, 8, some "solo"⟩,
      .raw ⟨[5], 14, 1, some "upon"⟩] ∧
    (rawTree.members 0).flatMap Member.nodes = rawTree.childrenAt 0 ∧ (14 : UInt64).toNat < 12 + 8 := by
  have hfits : ∀ c ∈ rawTree.childrenAt 0, rawTree.stopAt c < UInt64.size := by decide
  have hmembers : rawTree.members 0 = [.raw ⟨[1, 2], 0, 6, none⟩, .node 3, .raw ⟨[4], 12, 8, some "solo"⟩,
      .raw ⟨[5], 14, 1, some "upon"⟩] := by decide
  obtain ⟨hnodes, -, -, hcut⟩ := members_partition rawTree 0 hfits
  refine ⟨wellFormed_ofNodes (show ofNodes 0 rawNodes 1 = .ok rawTree from rfl), hfits, hmembers, hnodes, ?_⟩
  exact hcut [.raw ⟨[1, 2], 0, 6, none⟩, .node 3] ⟨[4], 12, 8, some "solo"⟩ ⟨[5], 14, 1, some "upon"⟩ [] hmembers

end Tree

end ByteAtlas
