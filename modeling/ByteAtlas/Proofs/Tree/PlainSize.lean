/-
Sizes without rings. The computation of sizes carries the ids that are being measured along, and one that is met again counts
as zero. Where sizes are made up of no ring none is met again, however often one definition is reached and by whatever ways.
The sizes are then those of the plain recursion, which carries nothing along.

- `Tree.Spans`: the ways along which the size of one node is made up of the sizes of others.
- `Calm.induction`: from a node that reaches no ring all of them come to an end.
- `Tree.plainSize`: the size of a node from the sizes of the others.
- `measure_eq_plainSize`: what else is being measured makes no difference.
- `size_eq_plainSize`: the sizes satisfy the plain recursion, and nothing else does.
-/
import ByteAtlas.Proofs.Tree.Acyclic
import ByteAtlas.Proofs.Tree.Building
import ByteAtlas.Proofs.Tree.Sizing

namespace ByteAtlas.Tree

open Relation

/-- A struct without children has the size of what it refers to, and so has each element of an array of structs. A node that
refers to itself has nothing to take its size from. -/
structure SizedBy (t : Tree) (n m : Node) : Prop where
  holder : (n.kind = .struct ∧ ∀ k ∈ t.nodes, k.parent ≠ n.id) ∨ n.kind = .array ∧ n.elementKind = .struct
  ref : n.ref = m.id
  mem : m ∈ t.nodes
  other : m.id ≠ n.id

/-- The size of one node is made up of that of another: a struct spans its children. What an array holds has no part in its
size. -/
inductive Spans (t : Tree) : NodeId → NodeId → Prop
  | child {n m : Node} : n ∈ t.nodes → m ∈ t.nodes → n.kind = .struct → m.parent = n.id → Spans t n.id m.id
  | sized {n m : Node} : n ∈ t.nodes → t.SizedBy n m → Spans t n.id m.id

/-- no ring is reached from an id -/
def Calm (t : Tree) (id : NodeId) : Prop := ∀ b, ReflTransGen t.Spans id b → ¬ TransGen t.Spans b b

/-- the distance between elements of an array, from the sizes of the nodes -/
def plainStride (t : Tree) (size : Nat → UInt64) (n : Node) : UInt64 :=
  if n.elementKind = .struct then ((t.target n).map size).getD 0 else n.elementKind.fixedSize.getD 0

/-- the size of a node, from the sizes of the others -/
def plainSize (t : Tree) (size : Nat → UInt64) (n : Node) : UInt64 :=
  match n.kind with
  | .struct =>
    match t.children n.id with
    | [] => ((t.target n).map size).getD 0
    | cs => largest (cs.map fun c => Word.satAdd (t.offsetAt c) (size c))
  | .array => Word.satMul n.arrayLen (t.plainStride size n)
  | _ => n.ownSize.getD 0

variable {t : Tree} {f g : Nat → UInt64} {i : Nat} {n : Node} {l : List NodeId}

/-! ## Ways without rings -/

theorem Calm.step {a b : NodeId} (hcalm : t.Calm a) (hab : t.Spans a b) : t.Calm b := fun c hc => hcalm c (.head hab hc)

theorem Spans.uses {a b : NodeId} (hab : t.Spans a b) : t.Uses a b := by
  cases hab with
  | child hn hm _ hp => exact ⟨_, hn, _, hm, rfl, rfl, .inl hp⟩
  | sized hn hsized => exact ⟨_, hn, _, hsized.mem, rfl, rfl, .inr hsized.ref⟩

/-- where holding and referring run in no ring, none is reached -/
theorem calm_of_noRing (hring : ∀ id, ¬ TransGen t.Uses id id) (id : NodeId) : t.Calm id := fun b _ hb =>
  hring b (TransGen.mono (fun _ _ => Spans.uses) _ _ hb)

/-- what holds of a node if it holds of all that it spans, holds of every node that reaches no ring -/
theorem Calm.induction {motive : (i : Nat) → (n : Node) → t.nodes[i]? = some n → t.Calm n.id → Prop}
    (step : ∀ i n hn hcalm, (∀ j m hm (hspans : t.Spans n.id m.id), motive j m hm (hcalm.step hspans)) →
      motive i n hn hcalm) (hn : t.nodes[i]? = some n) (hcalm : t.Calm n.id) : motive i n hn hcalm := by
  obtain ⟨id, hid⟩ : ∃ id, n.id = id := ⟨_, rfl⟩
  have hacc : Acc (fun b a => t.Spans a b) id := hid ▸ acc_of_noRing hcalm
  induction hacc generalizing i n with
  | intro id _ ih =>
    subst hid
    exact step i n hn hcalm fun j m hm hspans => ih m.id hspans hm (hcalm.step hspans) rfl

/-! ## Other sizes -/

theorem plainSize_of_not_canHold (hk : ¬ n.kind.canHold) (f : Nat → UInt64) : t.plainSize f n = n.ownSize.getD 0 := by
  unfold plainSize
  cases hkind : n.kind <;> simp_all [Kind.canHold]

/-- what a node refers to is another node -/
theorem of_target_eq_some (h : t.Indexed) {d : Nat} (hd : t.target n = some d) :
    ∃ m, t.nodes[d]? = some m ∧ n.ref = m.id ∧ m.id ≠ n.id := by
  unfold target at hd
  split_ifs at hd with hno
  obtain ⟨m, hm, hid⟩ := Option.map_eq_some_iff.1 ((h _ _).1 hd)
  exact ⟨m, hm, hid.symm, fun e => hno (.inr (hid.symm.trans e))⟩

/-- the size of what a node refers to is asked for only where it spans that -/
theorem targetSize_congr (h : t.Indexed)
    (hfg : ∀ j m, t.nodes[j]? = some m → n.ref = m.id → m.id ≠ n.id → f j = g j) :
    ((t.target n).map f).getD 0 = ((t.target n).map g).getD 0 := by
  cases hd : t.target n with
  | none => rfl
  | some d =>
    obtain ⟨m, hm, href, hother⟩ := of_target_eq_some h hd
    exact hfg d m hm href hother

theorem plainStride_congr (h : t.Indexed) (hn : n ∈ t.nodes) (hk : n.kind = .array)
    (hfg : ∀ j m, t.nodes[j]? = some m → t.Spans n.id m.id → f j = g j) : t.plainStride f n = t.plainStride g n := by
  unfold plainStride
  split_ifs with hstruct
  · exact targetSize_congr h fun j m hm href hother =>
      hfg j m hm (.sized hn ⟨.inr ⟨hk, hstruct⟩, href, List.mem_of_getElem? hm, hother⟩)
  · rfl

/-- of the other sizes only those matter that the node spans -/
theorem plainSize_congr (h : t.Indexed) (hn : n ∈ t.nodes)
    (hfg : ∀ j m, t.nodes[j]? = some m → t.Spans n.id m.id → f j = g j) : t.plainSize f n = t.plainSize g n := by
  by_cases hk : n.kind.canHold
  · rcases Kind.canHold_iff.1 hk with hk | hk
    · simp only [plainSize, hk]
      split
      · next hempty =>
        have hnone := children_isEmpty_iff.1 (List.isEmpty_iff.2 hempty)
        exact targetSize_congr h fun j m hm href hother =>
          hfg j m hm (.sized hn ⟨.inl ⟨hk, hnone⟩, href, List.mem_of_getElem? hm, hother⟩)
      · refine congrArg largest (List.map_congr_left fun c hc => ?_)
        obtain ⟨m, hm, hp⟩ := mem_children.1 hc
        rw [hfg c m hm (.child hn (List.mem_of_getElem? hm) hk hp)]
    · simp only [plainSize, hk, plainStride_congr h hn hk hfg]
  · rw [plainSize_of_not_canHold hk, plainSize_of_not_canHold hk]

/-! ## Sizes while others are being measured -/

theorem strideWith_of_not_mem (size : List NodeId → Nat → UInt64) (hno : n.id ∉ l) :
    t.strideWith size l n = t.plainStride (size (n.id :: l)) n := by
  unfold strideWith plainStride
  by_cases hk : n.elementKind = .struct
  · simp [hk, hno]
  · simp [hk]

/-- a node that is not being measured is entered -/
theorem measure_of_not_mem (hn : t.nodes[i]? = some n) (hno : n.id ∉ l) (depth : Nat) :
    t.measure (depth + 1) l i = t.plainSize (t.measure depth (n.id :: l)) n := by
  by_cases hk : n.kind.canHold
  · rw [measure, hn]
    rcases Kind.canHold_iff.1 hk with hk | hk
    · cases hc : t.children n.id <;> simp [plainSize, hk, hno, hc]
    · simp only [plainSize, hk, strideWith_of_not_mem _ hno]
  · rw [measure_of_not_canHold hn hk, plainSize_of_not_canHold hk]

/-- **What is being measured makes no difference** to a node that reaches none of it and no ring. -/
theorem measure_eq_plainSize (h : t.Indexed) (hn : t.nodes[i]? = some n) (hcalm : t.Calm n.id) {depth : Nat}
    (hdepth : t.outside l.toFinset < depth) (hfree : ∀ b, ReflTransGen t.Spans n.id b → b ∉ l) :
    t.measure depth l i = t.plainSize t.size n := by
  induction hn, hcalm using Calm.induction generalizing depth l with
  | step i n hn hcalm ih =>
    obtain ⟨depth, rfl⟩ := Nat.exists_eq_succ_of_ne_zero (Nat.ne_zero_of_lt hdepth)
    have hno : n.id ∉ l := hfree n.id .refl
    rw [measure_of_not_mem hn hno]
    refine plainSize_congr h (List.mem_of_getElem? hn) fun j m hm hspans => ?_
    have hroom : t.outside (n.id :: l).toFinset < depth := by
      have hlt := outside_insert_lt (s := l.toFinset) (List.mem_of_getElem? hn) (by simpa using hno)
      rw [List.toFinset_cons]
      omega
    -- a way from there back to the node itself would close a ring
    have hfree' : ∀ b, ReflTransGen t.Spans m.id b → b ∉ n.id :: l := by
      intro b hb hmem
      rcases List.mem_cons.1 hmem with rfl | hmem
      · exact hcalm n.id .refl (.head' hspans hb)
      · exact hfree b (.head hspans hb) hmem
    calc t.measure depth (n.id :: l) j = t.plainSize t.size m := ih j m hm hspans hroom hfree'
      _ = t.size j := (ih j m hm hspans (t.outside_lt_depthBound _) fun _ _ => List.not_mem_nil).symm

/-! ## The plain recursion -/

/-- only one size of a node goes with the plain recursion at all that it is made up of -/
theorem eq_of_plainSize (h : t.Indexed) (hn : t.nodes[i]? = some n) (hcalm : t.Calm n.id)
    (hf : ∀ j m, t.nodes[j]? = some m → ReflTransGen t.Spans n.id m.id → f j = t.plainSize f m)
    (hg : ∀ j m, t.nodes[j]? = some m → ReflTransGen t.Spans n.id m.id → g j = t.plainSize g m) : f i = g i := by
  induction hn, hcalm using Calm.induction with
  | step i n hn _ ih =>
    rw [hf i n hn .refl, hg i n hn .refl]
    refine plainSize_congr h (List.mem_of_getElem? hn) fun j m hm hspans => ?_
    exact ih j m hm hspans (fun k o ho hmo => hf k o ho (.head hspans hmo)) fun k o ho hmo => hg k o ho (.head hspans hmo)

/-- **Sizes without rings are those of the plain recursion.** The size of a node that is made up of no ring is what the plain
recursion makes of the sizes of the others, and so is the distance between the elements of an array. No other sizes satisfy
the recursion at all the nodes that it is made up of. -/
theorem size_eq_plainSize (h : t.WellFormed) (hn : t.nodes[i]? = some n) (hcalm : t.Calm n.id) :
    t.size i = t.plainSize t.size n ∧ (n.kind = .array → t.stride i = t.plainStride t.size n) ∧
    ∀ f : Nat → UInt64, (∀ j m, t.nodes[j]? = some m → ReflTransGen t.Spans n.id m.id → f j = t.plainSize f m) →
      f i = t.size i := by
  have hplain : ∀ j m, t.nodes[j]? = some m → ReflTransGen t.Spans n.id m.id → t.size j = t.plainSize t.size m :=
    fun j m hm hnm => measure_eq_plainSize h.indexed hm (fun b hb => hcalm b (hnm.trans hb)) (t.outside_lt_depthBound _)
      fun _ _ => List.not_mem_nil
  refine ⟨hplain i n hn .refl, fun hk => ?_, fun f hf => eq_of_plainSize h.indexed hn hcalm hf hplain⟩
  rw [stride, hn]
  simp only [strideWith_of_not_mem _ List.not_mem_nil]
  refine plainStride_congr h.indexed (List.mem_of_getElem? hn) hk fun j m hm hspans => ?_
  have hfree : ∀ b, ReflTransGen t.Spans m.id b → b ∉ [n.id] := by
    intro b hb hmem
    rw [List.mem_singleton.1 hmem] at hb
    exact hcalm n.id .refl (.head' hspans hb)
  rw [measure_eq_plainSize h.indexed hm (hcalm.step hspans) (t.outside_lt_depthBound _) hfree]
  exact (hplain j m hm (.single hspans)).symm

/-- a shape is as large as the furthest of its line and its row, and the same line fills them all -/
theorem size_eq_plainSize_shape : shapeTree.size 6 = 48 ∧
    shapeTree.size 6 = shapeTree.plainSize shapeTree.size shapeNodes[6] := by
  have h : shapeTree.WellFormed := wellFormed_ofNodes (show ofNodes 0 shapeNodes 1 = .ok shapeTree from rfl)
  have hrank : ∀ a b, shapeTree.Spans a b → shapeRank b < shapeRank a := by
    intro a b hab
    cases hab with
    | child hn hm _ hp => exact shapeRank_lt _ hn _ hm (.inl hp)
    | sized hn hsized => exact shapeRank_lt _ hn _ hsized.mem (.inr hsized.ref)
  exact ⟨by decide, (size_eq_plainSize (i := 6) h rfl fun b _ => noRing_of_rank hrank b).1⟩

/-- in a ring the two differ: seen from inside itself a struct counts as zero -/
example : let t := [{ Node.rootStruct "link" "Link" with id := 1 },
      { Node.field 1 4 .struct "next" with id := 2, ref := 1 }].foldl push (empty 0)
    t.size 0 = 4 ∧ (t.nodes[0]?).map (t.plainSize t.size) = some 8 := by
  decide

end ByteAtlas.Tree
