/-
The shape of a definition: what its canonical form keeps of it, told by its nodes and without positions of the tree.

Two definitions have the same shape (`SameShape`) if their outlines are equally long and agree place by place: in what the
node is, in the place of its parent, and in what its reference comes to, which is a place in the outline, the type name of
a node outside, or nothing. Of the first nodes, parent, name and offset do not count.

- `items_eq_iff`: two canonical forms are the same if the definitions have the same shape.
- `Mirrors.sameShape_iff`: if the nodes of one outline mirror those of another, only references can make a difference.
- `Renames.sameShape`: other ids, another place of the root and other folds make none.
-/
import ByteAtlas.Proofs.Tree.Outline

namespace ByteAtlas

namespace Definition

variable {t u : Tree} {r s n m : Node}

/-- what a reference comes to from within an outline -/
inductive RefersTo (t : Tree) (ns : List Node) (ref : NodeId) : Target → Prop
  /-- there is no reference, or no such node -/
  | nothing (h : ref = 0 ∨ ∀ n ∈ t.nodes, n.id ≠ ref) : RefersTo t ns ref .none
  /-- the node stands in the outline -/
  | inside {p : Nat} {n : Node} (hn : ns[p]? = some n) (e : n.id = ref) : RefersTo t ns ref (.inside p)
  /-- the node is one of the tree that does not stand in the outline -/
  | named {n : Node} (hn : n ∈ t.nodes) (e : n.id = ref) (hout : ∀ m ∈ ns, m.id ≠ ref) :
      RefersTo t ns ref (.named n.typeName)

/-- two nodes at one place of two outlines read the same -/
structure Agree (t : Tree) (ns : List Node) (u : Tree) (ms : List Node) (k : Nat) (n m : Node) : Prop where
  kind : n.kind = m.kind
  arrayLen : n.arrayLen = m.arrayLen
  elementKind : n.elementKind = m.elementKind
  structName : n.structName = m.structName
  textLen : n.textLen = m.textLen
  target : ∃ x, RefersTo t ns n.ref x ∧ RefersTo u ms m.ref x
  name : 0 < k → n.name = m.name
  offset : 0 < k → n.offset = m.offset
  parent : 0 < k → ∃ (p : Nat) (a b : Node), ns[p]? = some a ∧ a.id = n.parent ∧ ms[p]? = some b ∧ b.id = m.parent

/-- the definitions at two nodes have the same shape -/
structure SameShape (t : Tree) (r : Node) (u : Tree) (s : Node) : Prop where
  length : (t.outline r).length = (u.outline s).length
  agree : ∀ k n m, (t.outline r)[k]? = some n → (u.outline s)[k]? = some m →
    Agree t (t.outline r) u (u.outline s) k n m

/-! ## Items -/

def itemAt (t : Tree) (ids : List NodeId) (k : Nat) (n : Node) : Item :=
  if k = 0 then { t.itemOf ids n with parent := none, name := "", offset := 0 } else t.itemOf ids n

theorem items_getElem? (h : t.Formed) (hr : r ∈ t.nodes) (k : Nat) :
    (t.items r.id)[k]? = (t.outline r)[k]?.map (itemAt t ((t.outline r).map (·.id)) k) := by
  rw [Tree.items, Tree.definition_eq_outline h hr]
  cases t.outline r with
  | nil => rfl
  | cons first rest =>
    cases k with
    | zero => rfl
    | succ k =>
      simp only [List.getElem?_cons_succ, List.getElem?_map]
      rfl

theorem idxOf?_eq_some_iff {ids : List NodeId} (hd : ids.Nodup) {id : NodeId} {p : Nat} :
    ids.idxOf? id = some p ↔ ids[p]? = some id := by
  rw [List.idxOf?, List.findIdx?_eq_some_iff_getElem]
  constructor
  · rintro ⟨hp, he, -⟩
    rw [List.getElem?_eq_getElem hp, beq_iff_eq.1 he]
  · intro hid
    obtain ⟨hp, he⟩ := List.getElem?_eq_some_iff.1 hid
    refine ⟨hp, beq_iff_eq.2 he, fun j hj hj' => ?_⟩
    have hsame : ids[j] = ids[p] := (beq_iff_eq.1 hj').trans he.symm
    exact absurd ((List.Nodup.getElem_inj_iff hd).1 hsame) (Nat.ne_of_lt hj)

theorem idxOf?_map_id (h : t.Formed) (hr : r ∈ t.nodes) {id : NodeId} {p : Nat} :
    ((t.outline r).map (·.id)).idxOf? id = some p ↔ ∃ n, (t.outline r)[p]? = some n ∧ n.id = id := by
  rw [idxOf?_eq_some_iff (Tree.nodup_map_id_outline h hr), List.getElem?_map, Option.map_eq_some_iff]

/-- every reference comes to something -/
theorem exists_refersTo (t : Tree) (ns : List Node) (ref : NodeId) : ∃ x, RefersTo t ns ref x := by
  by_cases hnode : ∃ n ∈ t.nodes, n.id = ref
  · obtain ⟨n, hn, e⟩ := hnode
    by_cases hin : ∃ q ∈ ns, q.id = ref
    · obtain ⟨q, hq, e'⟩ := hin
      obtain ⟨p, hp⟩ := List.mem_iff_getElem?.1 hq
      exact ⟨.inside p, .inside hp e'⟩
    · exact ⟨.named n.typeName, .named hn e fun q hq e' => hin ⟨q, hq, e'⟩⟩
  · exact ⟨.none, .nothing (Or.inr fun n hn e => hnode ⟨n, hn, e⟩)⟩

/-- what a reference comes to is what is found for it -/
theorem targetIn_of_refersTo (h : t.Formed) (hr : r ∈ t.nodes) {ref : NodeId} {x : Target}
    (hx : RefersTo t (t.outline r) ref x) : t.targetIn ((t.outline r).map (·.id)) ref = x := by
  have hmem : ∀ n ∈ t.outline r, n ∈ t.nodes := fun n hn => ((Tree.mem_outline h hr).1 hn).1
  unfold Tree.targetIn
  cases hx with
  | nothing hno =>
    by_cases hz : ref = 0
    · rw [if_pos hz]
    · have hno := hno.resolve_left hz
      have hout : ((t.outline r).map (·.id)).idxOf? ref = none := by
        rw [List.idxOf?_eq_none_iff, List.mem_map]
        rintro ⟨n, hn, e⟩
        exact hno n (hmem n hn) e
      rw [if_neg hz, hout, Tree.typeNameOf, if_neg hz, (Tree.find?_eq_none_iff h.indexed).2 hno]
      rfl
  | @inside p n hn e =>
    have hz : ref ≠ 0 := e ▸ h.forest.nonzero n (hmem n (List.mem_of_getElem? hn))
    rw [if_neg hz, (idxOf?_map_id h hr).2 ⟨n, hn, e⟩]
  | @named n hn e hout =>
    have hz : ref ≠ 0 := e ▸ h.forest.nonzero n hn
    have hno : ((t.outline r).map (·.id)).idxOf? ref = none := by
      rw [List.idxOf?_eq_none_iff, List.mem_map]
      rintro ⟨q, hq, e'⟩
      exact hout q hq e'
    rw [if_neg hz, hno, Tree.typeNameOf, if_neg hz, (Tree.find?_eq_some_iff h.indexed).2 ⟨hn, e⟩]
    rfl

/-- the canonical form tells what a reference comes to -/
theorem targetIn_eq_iff (h : t.Formed) (hr : r ∈ t.nodes) {ref : NodeId} {x : Target} :
    t.targetIn ((t.outline r).map (·.id)) ref = x ↔ RefersTo t (t.outline r) ref x := by
  obtain ⟨y, hy⟩ := exists_refersTo t (t.outline r) ref
  constructor
  · intro e
    rw [← e, targetIn_of_refersTo h hr hy]
    exact hy
  · exact targetIn_of_refersTo h hr

/-- a reference comes to one thing only -/
theorem refersTo_unique (h : t.Formed) (hr : r ∈ t.nodes) {ref : NodeId} {x y : Target}
    (hx : RefersTo t (t.outline r) ref x) (hy : RefersTo t (t.outline r) ref y) : x = y :=
  (targetIn_of_refersTo h hr hx).symm.trans (targetIn_of_refersTo h hr hy)

/-- what holds a node below the first stands in the outline as well -/
theorem exists_parent (h : t.Formed) (hr : r ∈ t.nodes) {k : Nat} (hn : (t.outline r)[k]? = some n) (hk : 0 < k) :
    ∃ (p : Nat) (a : Node), (t.outline r)[p]? = some a ∧ a.id = n.parent := by
  obtain ⟨a, ha, haid, -⟩ := Tree.exists_holder_before h hr hn hk
  obtain ⟨p, hp⟩ := List.mem_iff_getElem?.1 (List.mem_of_mem_take ha)
  exact ⟨p, a, hp, haid⟩

/-- only the first node of an outline is its root -/
theorem id_ne_of_pos (h : t.Formed) (hr : r ∈ t.nodes) {k : Nat} (hn : (t.outline r)[k]? = some n) (hk : 0 < k) :
    n.id ≠ r.id := by
  intro e
  obtain ⟨p, a, ha, haid⟩ := exists_parent h hr hn hk
  obtain rfl := h.forest.eq_of_id_eq ((Tree.mem_outline h hr).1 (List.mem_of_getElem? hn)).1 hr e
  obtain ⟨ha, hab⟩ := (Tree.mem_outline h hr).1 (List.mem_of_getElem? ha)
  exact h.forest.not_liesAbove_parent hr (haid ▸ h.forest.nonzero a ha) (haid ▸ hab)

/-- two nodes have the same item if they read the same -/
theorem itemAt_eq_iff (ht : t.Formed) (hu : u.Formed) (hr : r ∈ t.nodes) (hs : s ∈ u.nodes) {k : Nat}
    (hn : (t.outline r)[k]? = some n) :
    itemAt t ((t.outline r).map (·.id)) k n = itemAt u ((u.outline s).map (·.id)) k m ↔
      Agree t (t.outline r) u (u.outline s) k n m := by
  have htarget : t.targetIn ((t.outline r).map (·.id)) n.ref = u.targetIn ((u.outline s).map (·.id)) m.ref ↔
      ∃ x, RefersTo t (t.outline r) n.ref x ∧ RefersTo u (u.outline s) m.ref x := by
    constructor
    · exact fun e => ⟨_, (targetIn_eq_iff ht hr).1 rfl, (targetIn_eq_iff hu hs).1 e.symm⟩
    · rintro ⟨x, hx, hx'⟩
      exact ((targetIn_eq_iff ht hr).2 hx).trans ((targetIn_eq_iff hu hs).2 hx').symm
  by_cases hk : k = 0
  · simp only [itemAt, if_pos hk, Tree.itemOf, Item.mk.injEq, true_and, htarget]
    constructor
    · rintro ⟨hkind, harrayLen, helementKind, hstructName, htextLen, hx⟩
      exact ⟨hkind, harrayLen, helementKind, hstructName, htextLen, hx, by omega, by omega, by omega⟩
    · exact fun h => ⟨h.kind, h.arrayLen, h.elementKind, h.structName, h.textLen, h.target⟩
  · have hpos : 0 < k := Nat.pos_of_ne_zero hk
    have hparent : ((t.outline r).map (·.id)).idxOf? n.parent = ((u.outline s).map (·.id)).idxOf? m.parent ↔
        ∃ (p : Nat) (a b : Node), (t.outline r)[p]? = some a ∧ a.id = n.parent ∧ (u.outline s)[p]? = some b ∧ b.id = m.parent := by
      constructor
      · intro e
        obtain ⟨p, a, ha, haid⟩ := exists_parent ht hr hn hpos
        rw [(idxOf?_map_id ht hr).2 ⟨a, ha, haid⟩] at e
        obtain ⟨b, hb, hbid⟩ := (idxOf?_map_id hu hs).1 e.symm
        exact ⟨p, a, b, ha, haid, hb, hbid⟩
      · rintro ⟨p, a, b, ha, haid, hb, hbid⟩
        rw [(idxOf?_map_id ht hr).2 ⟨a, ha, haid⟩, (idxOf?_map_id hu hs).2 ⟨b, hb, hbid⟩]
    simp only [itemAt, if_neg hk, Tree.itemOf, Item.mk.injEq, htarget, hparent]
    constructor
    · rintro ⟨hp, hkind, hname, hoffset, harrayLen, helementKind, hstructName, htextLen, hx⟩
      exact ⟨hkind, harrayLen, helementKind, hstructName, htextLen, hx, fun _ => hname, fun _ => hoffset, fun _ => hp⟩
    · exact fun h => ⟨h.parent hpos, h.kind, h.name hpos, h.offset hpos, h.arrayLen, h.elementKind, h.structName,
        h.textLen, h.target⟩

theorem length_items (h : t.Formed) (hr : r ∈ t.nodes) : (t.items r.id).length = (t.outline r).length := by
  rw [Tree.items, Tree.definition_eq_outline h hr]
  cases t.outline r with
  | nil => rfl
  | cons first rest => simp

/-- **Two canonical forms are the same if and only if the definitions have the same shape.** -/
theorem items_eq_iff (ht : t.Formed) (hu : u.Formed) (hr : r ∈ t.nodes) (hs : s ∈ u.nodes) :
    t.items r.id = u.items s.id ↔ SameShape t r u s := by
  constructor
  · intro e
    refine ⟨by rw [← length_items ht hr, ← length_items hu hs, e], fun k n m hn hm => ?_⟩
    have hk := items_getElem? hu hs k
    rw [← e, items_getElem? ht hr k, hn, hm, Option.map_some, Option.map_some] at hk
    exact (itemAt_eq_iff ht hu hr hs hn).1 (Option.some.inj hk)
  · intro h
    apply List.ext_getElem?
    intro k
    rw [items_getElem? ht hr, items_getElem? hu hs]
    by_cases hk : k < (t.outline r).length
    · have hn := List.getElem?_eq_getElem hk
      have hm := List.getElem?_eq_getElem (h.length ▸ hk)
      rw [hn, hm, Option.map_some, Option.map_some]
      exact congrArg some ((itemAt_eq_iff ht hu hr hs hn).2 (h.agree k _ _ hn hm))
    · rw [List.getElem?_eq_none (by omega), List.getElem?_eq_none (by rw [← h.length]; omega)]
      rfl

/-! ## Outlines that mirror each other -/

/-- the images of the nodes of an outline read the same, their references apart -/
structure Mirrors (t : Tree) (r : Node) (σ : Node → Node) : Prop where
  fields : ∀ n ∈ t.outline r, (σ n).kind = n.kind ∧ (σ n).arrayLen = n.arrayLen ∧ (σ n).elementKind = n.elementKind ∧
    (σ n).structName = n.structName ∧ (σ n).textLen = n.textLen
  labels : ∀ n ∈ t.outline r, n.id ≠ r.id → (σ n).name = n.name ∧ (σ n).offset = n.offset
  parents : ∀ n ∈ t.outline r, n.id ≠ r.id → ∀ a ∈ t.outline r, a.id = n.parent → (σ a).id = (σ n).parent

/-- a node reads as its image does if both references come to the same; what stands in the other outline is told by ids -/
theorem Mirrors.agree {σ : Node → Node} (h : Mirrors t r σ) (ht : t.Formed) (hr : r ∈ t.nodes) {ms : List Node}
    (hids : ms.map (·.id) = (t.outline r).map fun n => (σ n).id) {k : Nat} (hn : (t.outline r)[k]? = some n)
    (htarget : ∃ x, RefersTo t (t.outline r) n.ref x ∧ RefersTo u ms (σ n).ref x) :
    Agree t (t.outline r) u ms k n (σ n) := by
  have hmem := List.mem_of_getElem? hn
  obtain ⟨hkind, harrayLen, helementKind, hstructName, htextLen⟩ := h.fields n hmem
  have hbelow := id_ne_of_pos ht hr hn
  refine ⟨hkind.symm, harrayLen.symm, helementKind.symm, hstructName.symm, htextLen.symm, htarget,
    fun hk => (h.labels n hmem (hbelow hk)).1.symm, fun hk => (h.labels n hmem (hbelow hk)).2.symm, fun hk => ?_⟩
  obtain ⟨p, a, ha, haid⟩ := exists_parent ht hr hn hk
  have hplace := congrArg (·[p]?) hids
  simp only [List.getElem?_map, ha, Option.map_some] at hplace
  obtain ⟨b, hb, hbid⟩ := Option.map_eq_some_iff.1 hplace
  exact ⟨p, a, b, ha, haid, hb, hbid.trans (h.parents n hmem (hbelow hk) a (List.mem_of_getElem? ha) haid)⟩

/-- **If the nodes of one outline mirror those of another, the definitions have the same shape if and only if each
reference comes to the same.** -/
theorem Mirrors.sameShape_iff {σ : Node → Node} (h : Mirrors t r σ) (ht : t.Formed) (hr : r ∈ t.nodes)
    (ho : u.outline (σ r) = (t.outline r).map σ) : SameShape t r u (σ r) ↔
      ∀ n ∈ t.outline r, ∃ x, RefersTo t (t.outline r) n.ref x ∧ RefersTo u (u.outline (σ r)) (σ n).ref x := by
  constructor
  · intro hshape n hn
    obtain ⟨k, hk⟩ := List.mem_iff_getElem?.1 hn
    have hk' : (u.outline (σ r))[k]? = some (σ n) := by rw [ho, List.getElem?_map, hk, Option.map_some]
    exact (hshape.agree k n (σ n) hk hk').target
  · intro htarget
    refine ⟨by rw [ho, List.length_map], fun k n m hn hm => ?_⟩
    rw [ho, List.getElem?_map, hn, Option.map_some] at hm
    obtain rfl := Option.some.inj hm
    exact h.agree ht hr (by rw [ho, List.map_map]; rfl) hn (htarget n (List.mem_of_getElem? hn))

/-- a canonical form with another type name for what it defines -/
def retitled (name : String) (is : List Item) : List Item := is.modifyHead fun i => { i with structName := name }

theorem getElem?_retitled (name : String) (is : List Item) (k : Nat) :
    (retitled name is)[k]? = is[k]?.map fun i => if k = 0 then { i with structName := name } else i := by
  rw [retitled, List.getElem?_modifyHead]
  split_ifs with hk
  · rfl
  · exact Option.map_id'.symm

/-- **Images that mirror an outline under another type name have its canonical form under that name if and only if each
reference comes to the same.** -/
theorem Mirrors.items_eq_retitled_iff {σ : Node → Node} (h : Mirrors t r fun n => { σ n with structName := n.structName })
    (ht : t.Formed) (hu : u.Formed) (hr : r ∈ t.nodes) (hs : σ r ∈ u.nodes) (ho : u.outline (σ r) = (t.outline r).map σ)
    (hname : ∀ n ∈ t.outline r, n.id ≠ r.id → (σ n).structName = n.structName) :
    u.items (σ r).id = retitled (σ r).structName (t.items r.id) ↔
      ∀ n ∈ t.outline r, ∃ x, RefersTo t (t.outline r) n.ref x ∧ RefersTo u (u.outline (σ r)) (σ n).ref x := by
  have hids : (u.outline (σ r)).map (·.id) = (t.outline r).map fun n => (σ n).id := by
    rw [ho, List.map_map]
    rfl
  -- at each place the items are the same but for the name if the nodes read the same under the name of the original
  have hplace : ∀ (k : Nat) (n : Node), (t.outline r)[k]? = some n →
      ((u.items (σ r).id)[k]? = (retitled (σ r).structName (t.items r.id))[k]? ↔
        ∃ x, RefersTo t (t.outline r) n.ref x ∧ RefersTo u (u.outline (σ r)) (σ n).ref x) := by
    intro k n hn
    have hk : (u.outline (σ r))[k]? = some (σ n) := by rw [ho, List.getElem?_map, hn, Option.map_some]
    have hitems : (u.items (σ r).id)[k]? = (retitled (σ r).structName (t.items r.id))[k]? ↔
        itemAt t ((t.outline r).map (·.id)) k n =
          itemAt u ((u.outline (σ r)).map (·.id)) k { σ n with structName := n.structName } := by
      rw [getElem?_retitled, items_getElem? hu hs, items_getElem? ht hr, hk, hn]
      simp only [Option.map_some, Option.some_inj]
      by_cases hz : k = 0
      · subst hz
        rw [Tree.outline_eq_cons ht hr] at hn
        obtain rfl := Option.some.inj hn
        simp only [itemAt, if_true, Tree.itemOf, Item.mk.injEq]
        tauto
      · have hsame := hname n (List.mem_of_getElem? hn) (id_ne_of_pos ht hr hn (Nat.pos_of_ne_zero hz))
        simp only [itemAt, if_neg hz, ← hsame]
        exact eq_comm
    rw [hitems, itemAt_eq_iff ht hu hr hs hn]
    exact ⟨fun hagree => hagree.target, h.agree ht hr hids hn⟩
  constructor
  · intro e n hn
    obtain ⟨k, hk⟩ := List.mem_iff_getElem?.1 hn
    exact (hplace k n hk).1 (by rw [e])
  · intro htarget
    apply List.ext_getElem?
    intro k
    cases hk : (t.outline r)[k]? with
    | some n => exact (hplace k n hk).2 (htarget n (List.mem_of_getElem? hk))
    | none =>
      rw [getElem?_retitled, items_getElem? hu hs, items_getElem? ht hr, ho, List.getElem?_map, hk]
      rfl

/-! ## Other ids -/

/-- the same node under another id, folded or not; unless it is the node `r`, it stands where it stood under the name that
it had -/
structure Renames (f : NodeId → NodeId) (r n m : Node) : Prop where
  same : m = { n with
    id := f n.id, ref := f n.ref, parent := m.parent, name := m.name, offset := m.offset, collapsed := m.collapsed }
  below : n.id ≠ r.id → m.parent = f n.parent ∧ m.name = n.name ∧ m.offset = n.offset

section Renames

variable {f : NodeId → NodeId} {σ : Node → Node}

theorem Renames.id_eq (h : Renames f r n m) : m.id = f n.id := by
  rw [h.same]

theorem Renames.ref_eq (h : Renames f r n m) : m.ref = f n.ref := by
  rw [h.same]

theorem Renames.typeName_eq (h : Renames f r n m) (hne : n.id ≠ r.id) : m.typeName = n.typeName := by
  have hstruct : m.structName = n.structName := by rw [h.same]
  rw [Node.typeName, Node.typeName, hstruct, (h.below hne).2.1]

variable (ht : t.Formed) (hu : u.Formed) (hr : r ∈ t.nodes) (hf : Function.Injective f) (h0 : f 0 = 0)
  (hnodes : u.nodes = t.nodes.map σ) (h : ∀ n ∈ t.nodes, Renames f r n (σ n))

include ht hr hf h0 hnodes h

/-- what lies below the root still lies below it -/
theorem liesAbove_renamed {id : NodeId} (hab : LiesAbove t.nodes r.id id) : LiesAbove u.nodes (f r.id) (f id) := by
  induction hab with
  | self => exact .self
  | @up q hq hz hab ih =>
    have hne : q.id ≠ r.id := by
      intro e
      obtain rfl := ht.forest.eq_of_id_eq hq hr e
      exact ht.forest.not_liesAbove_parent hr hz hab
    have hparent := ((h q hq).below hne).1
    have hmem : σ q ∈ u.nodes := hnodes ▸ List.mem_map_of_mem hq
    have hz' : (σ q).parent ≠ 0 := by
      intro e
      rw [hparent, ← h0] at e
      exact hz (hf e)
    rw [← (h q hq).id_eq]
    exact .up hmem hz' (hparent ▸ ih)

include hu

/-- the children of a node below the root are the renamed ones, in the same order -/
theorem held_renamed (hn : n ∈ t.outline r) : u.held (σ n).id = (t.held n.id).map σ := by
  obtain ⟨hmem, hab⟩ := (Tree.mem_outline ht hr).1 hn
  have hid := (h n hmem).id_eq
  -- neither root has its parent in the outline
  have hroot : r.parent ≠ n.id := by
    intro e
    exact ht.forest.not_liesAbove_parent hr (e ▸ ht.forest.nonzero n hmem) (e ▸ hab)
  have hroot' : (σ r).parent ≠ f n.id := by
    intro e
    have hmem' : σ n ∈ u.nodes := hnodes ▸ List.mem_map_of_mem hmem
    have hr' : σ r ∈ u.nodes := hnodes ▸ List.mem_map_of_mem hr
    have hab' := liesAbove_renamed ht hr hf h0 hnodes h hab
    rw [← (h r hr).id_eq, ← hid] at hab'
    rw [← hid] at e
    exact hu.forest.not_liesAbove_parent hr' (e ▸ hu.forest.nonzero (σ n) hmem') (e ▸ hab')
  have hfilter : u.nodes.filter (fun q => q.parent == (σ n).id) = (t.nodes.filter fun q => q.parent == n.id).map σ := by
    rw [hnodes, List.filter_map, hid]
    congr 1
    refine List.filter_congr fun q hq => ?_
    rw [Function.comp_apply, Bool.eq_iff_iff, beq_iff_eq, beq_iff_eq]
    by_cases e : q.id = r.id
    · obtain rfl := ht.forest.eq_of_id_eq hq hr e
      exact iff_of_false hroot' hroot
    · rw [((h q hq).below e).1]
      exact ⟨fun e => hf e, congrArg f⟩
  have hoffset : ∀ q ∈ t.nodes.filter (fun q => q.parent == n.id), (σ q).offset = q.offset := by
    intro q hq
    obtain ⟨hq, hp⟩ := List.mem_filter.1 hq
    have hne : q.id ≠ r.id := by
      intro e
      obtain rfl := ht.forest.eq_of_id_eq hq hr e
      exact hroot (beq_iff_eq.1 hp)
    exact ((h q hq).below hne).2.2
  rw [Tree.held, hfilter, Tree.held]
  refine (List.map_insertionSort _ _ _ _ fun a ha b hb => ?_).symm
  rw [hoffset a ha, hoffset b hb]

/-- **Other ids make no difference.** Neither does the place or the name of the root, nor what is folded. -/
theorem Renames.sameShape : SameShape t r u (σ r) := by
  have hr' : σ r ∈ u.nodes := hnodes ▸ List.mem_map_of_mem hr
  have ho : u.outline (σ r) = (t.outline r).map σ :=
    Tree.outline_map ht hu hr hr' fun n hn => held_renamed ht hu hr hf h0 hnodes h hn
  have hmem : ∀ n ∈ t.outline r, n ∈ t.nodes := fun n hn => ((Tree.mem_outline ht hr).1 hn).1
  have hmirrors : Mirrors t r σ := by
    refine ⟨fun n hn => ?_, fun n hn hne => ((h n (hmem n hn)).below hne).2, fun n hn hne a ha e => ?_⟩
    · rw [(h n (hmem n hn)).same]
      exact ⟨rfl, rfl, rfl, rfl, rfl⟩
    · rw [(h a (hmem a ha)).id_eq, e, ((h n (hmem n hn)).below hne).1]
  refine (hmirrors.sameShape_iff ht hr ho).2 fun n hn => ?_
  have href := (h n (hmem n hn)).ref_eq
  have hids : ∀ q ∈ t.nodes, (σ q).id = f n.ref → q.id = n.ref := fun q hq e => hf ((h q hq).id_eq.symm.trans e)
  obtain ⟨x, hx⟩ : ∃ x, RefersTo t (t.outline r) n.ref x := ⟨_, (targetIn_eq_iff ht hr).1 rfl⟩
  refine ⟨x, hx, ?_⟩
  rw [href, ho]
  cases hx with
  | nothing hno =>
    refine .nothing (hno.imp (fun e => by rw [e, h0]) fun hno m hm e => ?_)
    rw [hnodes] at hm
    obtain ⟨q, hq, rfl⟩ := List.mem_map.1 hm
    exact hno q hq (hids q hq e)
  | @inside p q hq e =>
    refine .inside (n := σ q) (by rw [List.getElem?_map, hq, Option.map_some]) ?_
    rw [(h q (hmem q (List.mem_of_getElem? hq))).id_eq, e]
  | @named q hq e hout =>
    have hne : q.id ≠ r.id := by
      intro e'
      exact hout r ((Tree.mem_outline ht hr).2 ⟨hr, .self⟩) (e'.symm.trans e)
    rw [← (h q hq).typeName_eq hne]
    refine .named (hnodes ▸ List.mem_map_of_mem hq) (by rw [(h q hq).id_eq, e]) fun m hm e' => ?_
    obtain ⟨a, ha, rfl⟩ := List.mem_map.1 hm
    exact hout a ha (hids a (hmem a ha) e')

end Renames

end Definition

end ByteAtlas
