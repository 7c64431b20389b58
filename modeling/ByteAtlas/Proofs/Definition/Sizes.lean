/-
Sizes of definitions that are brought along. A name brings further names along, those of the types that its definition refers
to outside itself (`Tree.Brings`). If each of these references leads to the root struct that is found by its name, and if the
tree has none of the names (`Tree.BringsWhole`), then nothing that belongs to the name comes to anything but its copy.

`Adoption.Gathered` is what a plan made from one tree provides: its nodes are copies, each node belongs to one copy, each
definition is copied once, and copies are made for names that come along only. From this it follows that a node and its copy
know each other by their ids (`eq_of_original_id_eq`, `eq_of_copy_id_eq`), and that what one of them holds or refers to is
beside what the other one does (`down`, `back`, `refer`). So originals and copies correspond (`Gathered.corresponds`), and
`Tree.size_adopted` is what this means for their sizes.
-/
import ByteAtlas.Proofs.Definition.Names
import ByteAtlas.Proofs.Tree.Corresponding

namespace ByteAtlas

namespace Tree

variable {t o : Tree} {name : String}

/-- The names that come along with a name of a tree: the name itself, and with the name of a root struct the type names of all
that its definition refers to outside itself. -/
inductive Brings (o : Tree) (name : String) : String → Prop
  | self : Brings o name name
  | further {x : String} {root : NodeId} {n q : Node} : Brings o name x → o.rootNamed? x = some root →
      n ∈ o.definition root → q ∈ o.nodes → q.id = n.ref → q ∉ o.definition root → Brings o name q.typeName

/-- A name can be brought along with all that belongs to it: what leaves a definition leads to root structs that are found by
their names, and the tree has no root struct of any of these names. -/
structure BringsWhole (t o : Tree) (name : String) : Prop where
  found : ∀ x root, o.Brings name x → o.rootNamed? x = some root → ∀ n ∈ o.definition root, ∀ q ∈ o.nodes,
    q.id = n.ref → q ∉ o.definition root → o.rootNamed? q.typeName = some q.id
  new : ∀ x, o.Brings name x → t.rootNamed? x = none

/-- it is enough to look at names that lead to each other only -/
theorem bringsWhole_of_names {names : List String} (hname : name ∈ names) (hnew : ∀ x ∈ names, t.rootNamed? x = none)
    (hleads : ∀ x ∈ names, ∀ root ∈ o.rootNamed? x, ∀ n ∈ o.definition root, ∀ q ∈ o.nodes, q.id = n.ref →
      q ∉ o.definition root → q.typeName ∈ names ∧ o.rootNamed? q.typeName = some q.id) : t.BringsWhole o name := by
  have hnames : ∀ x, o.Brings name x → x ∈ names := by
    intro x hx
    induction hx with
    | self => exact hname
    | further _ hroot hn hq hid hout ih => exact (hleads _ ih _ hroot _ hn _ hq hid hout).1
  exact ⟨fun x root hx hroot n hn q hq hid hout => (hleads x (hnames x hx) root hroot n hn q hq hid hout).2,
    fun x hx => hnew x (hnames x hx)⟩

end Tree

namespace Adoption

variable {t o src : Tree} {others : List Tree} {d : Draft} {name : String} {root : NodeId}

/-! ## Names that come along -/

/-- a name that leads out of a definition is that of a node outside it -/
theorem exists_outside_of_leaving (h : src.Formed) {l : Nat × String} (hl : l ∈ leaving d src root) :
    ∃ n ∈ src.definition root, ∃ q ∈ src.nodes, q.id = n.ref ∧ q ∉ src.definition root ∧ q.typeName = l.2 := by
  obtain ⟨k, n, hn, -, hout⟩ := mem_leaving_iff.1 hl
  unfold outward at hout
  split_ifs at hout with hno
  rw [not_or, Option.not_isSome_iff_eq_none] at hno
  rw [Tree.typeNameOf, if_neg hno.1] at hout
  obtain ⟨q, hq, hname⟩ := Option.map_eq_some_iff.1 hout
  obtain ⟨hmem, hid⟩ := (Tree.find?_eq_some_iff h.indexed).1 hq
  refine ⟨n, List.mem_of_getElem? hn, q, hmem, hid, fun hin => ?_, hname⟩
  obtain ⟨fresh, hfresh, -⟩ := d.tree.exists_lookup_renumber (List.mem_map_of_mem (f := Node.id) hin)
  rw [hid] at hfresh
  exact absurd (hno.2.symm.trans hfresh) (by simp)

/-- only names that come along are planned -/
theorem brings_of_planned (ho : o.Formed) (depth : Nat) (hd : ∀ p ∈ d.planned, o.Brings name p.1) :
    ∀ p ∈ (resolve [o] depth d name).2.planned, o.Brings name p.1 := by
  refine resolve_induction (P := fun d => ∀ p ∈ d.planned, o.Brings name p.1) (Q := o.Brings name) ?_ ?_
    (fun d place id h => h) (fun d x h => ?_) depth hd .self
  · intro d x origin src root hx hfind l hl
    obtain ⟨hmem, hroot⟩ := firstDefining_some hfind
    obtain rfl := List.mem_singleton.1 hmem
    obtain ⟨n, hn, q, hq, hid, hout, hname⟩ := exists_outside_of_leaving ho hl
    exact hname ▸ .further hx hroot hn hq hid hout
  · intro d x origin src root hx h _ _ _
    exact List.forall_mem_cons.2 ⟨hx, h⟩
  · unfold Draft.miss
    split
    · exact h
    · exact h

end Adoption

/-! ## Copies beside each other -/

namespace Adoption

variable {t o : Tree} {name : String}

/-- copies of definitions of one tree that make up a plan -/
structure Gathered (t o : Tree) (name : String) (copies : List Copy) : Prop where
  nodes : (t.planAdoption [o] name).1.nodes = copies.flatMap Copy.nodes
  drawn : ∀ c ∈ copies, c.Drawn [o] (Linked t (t.planAdoption [o] name).1)
  fresh : ∀ n ∈ (t.planAdoption [o] name).1.nodes, t.nextId ≤ n.id
  distinct : ((t.planAdoption [o] name).1.nodes.map (·.id)).Nodup
  /-- no two of the new root structs have the same name -/
  single : ∀ x, (structsNamed (t.planAdoption [o] name).1.nodes x).length ≤ 1
  brought : ∀ x, ∀ n ∈ structsNamed (t.planAdoption [o] name).1.nodes x, o.Brings name x
  lost : ∀ x ∈ (t.planAdoption [o] name).1.unresolved, o.rootNamed? x = none
  asked : (o.rootNamed? name).isSome → ∃ id, RootAt (t.nodes ++ (t.planAdoption [o] name).1.nodes) name id

theorem exists_gathered (ht : t.WellFormed) (ho : o.Formed) (name : String)
    (hroom : (t.planAdoption [o] name).2.nextId.toNat < Word.top) : ∃ copies, Gathered t o name copies := by
  have hothers : ∀ u ∈ [o], u.Formed := List.forall_mem_singleton.2 ho
  obtain ⟨hsane, -, ⟨copies, hnodes, hcopies⟩, hfound, hlost⟩ := t.resolves_planAdoption hothers name
  obtain ⟨hfresh, hdistinct⟩ := Tree.fresh_planAdoption hothers name hroom
  have htidy := Tree.tidy_planAdoption ht.positive hothers name
  refine ⟨copies, hnodes, fun c hc => (hcopies c hc).imp ?_, hfresh, hdistinct, htidy.length_structsNamed_le, ?_, ?_, ?_⟩
  · intro x ref hx
    rcases hx with ⟨hdefined, hroot⟩ | ⟨-, hmissing, h0⟩
    · exact (if_neg fun hin => hsane.missing x hin hdefined).mpr hroot
    · exact (if_pos hmissing).mpr h0
  · intro x n hn
    exact brings_of_planned ho _ (by simp) _ (htidy.mem_planned hn)
  · intro x hx
    rw [← Option.not_isSome_iff_eq_none]
    exact fun hyes => hsane.missing x hx (Or.inr ⟨o, List.mem_singleton_self o, hyes⟩)
  · intro hyes
    cases hid : (t.planAdoption [o] name).1.resolution.id? with
    | some id => exact ⟨id, (hfound id hid).2⟩
    | none => exact absurd (Or.inr ⟨o, List.mem_singleton_self o, hyes⟩) (hlost hid)

/-- a node beside its copy in one of some copies -/
def Paired (copies : List Copy) (a b : Node) : Prop := ∃ c ∈ copies, (a, b) ∈ c.pairs

namespace Gathered

variable {copies : List Copy} {c c' : Copy} {p p' : Node × Node} (h : Gathered t o name copies)

include h

/-! ### Which copy a node belongs to -/

theorem mem_nodes (hc : c ∈ copies) (hp : p ∈ c.pairs) : p.2 ∈ (t.planAdoption [o] name).1.nodes :=
  h.nodes ▸ List.mem_flatMap.2 ⟨c, hc, List.mem_map_of_mem hp⟩

theorem exists_pair_of_mem {b : Node} (hb : b ∈ (t.planAdoption [o] name).1.nodes) : ∃ a, Paired copies a b := by
  rw [h.nodes] at hb
  obtain ⟨c, hc, hb⟩ := List.mem_flatMap.1 hb
  obtain ⟨p, hp, rfl⟩ := List.mem_map.1 hb
  exact ⟨p.1, c, hc, hp⟩

theorem original (hc : c ∈ copies) (hp : p ∈ c.pairs) : p.1 ∈ o.nodes ∧ LiesAbove o.nodes c.root p.1.id := by
  have hsource : c.source = o := List.mem_singleton.1 (h.drawn c hc).source
  exact hsource ▸ ((h.drawn c hc).subtree p.1).1 (List.mem_map_of_mem hp)

theorem exists_pair (hc : c ∈ copies) {a : Node} (ha : a ∈ o.nodes)
    (hab : LiesAbove o.nodes c.root a.id) : ∃ b, (a, b) ∈ c.pairs := by
  have hsource : c.source = o := List.mem_singleton.1 (h.drawn c hc).source
  obtain ⟨p, hp, rfl⟩ := List.mem_map.1 (((h.drawn c hc).subtree a).2 (hsource ▸ ⟨ha, hab⟩))
  exact ⟨p.2, hp⟩

theorem nodup : (copies.flatMap Copy.nodes).Nodup := (h.nodes ▸ h.distinct).of_map _

/-- no node belongs to two copies -/
theorem eq_of_mem (hc : c ∈ copies) (hc' : c' ∈ copies) {b : Node} (hb : b ∈ c.nodes) (hb' : b ∈ c'.nodes) : c = c' := by
  by_contra hne
  have hapart : copies.Pairwise (Function.onFun List.Disjoint Copy.nodes) := (List.nodup_flatMap.1 h.nodup).2
  have : Std.Symm (Function.onFun List.Disjoint Copy.nodes) := ⟨fun _ _ hd => hd.symm⟩
  exact hapart.forall hc hc' hne hb hb'

/-- a copy is known by its id -/
theorem eq_of_copy_id_eq (hc : c ∈ copies) (hp : p ∈ c.pairs) (hc' : c' ∈ copies)
    (hp' : p' ∈ c'.pairs) (e : p.2.id = p'.2.id) : p = p' := by
  have hsame : p.2 = p'.2 := List.inj_on_of_nodup_map h.distinct (h.mem_nodes hc hp) (h.mem_nodes hc' hp') e
  obtain rfl := h.eq_of_mem hc hc' (List.mem_map_of_mem hp) (hsame ▸ List.mem_map_of_mem hp')
  exact List.inj_on_of_nodup_map ((List.nodup_flatMap.1 h.nodup).1 c hc) hp hp' hsame

/-- a copy starts with a root struct, and its original is what is found by the name -/
theorem exists_root (ho : o.Formed) (hc : c ∈ copies) : ∃ p ∈ c.pairs, p.1.id = c.root ∧ p.1.isRoot ∧
    p.2 ∈ structsNamed (t.planAdoption [o] name).1.nodes p.1.typeName ∧ o.rootNamed? p.1.typeName = some c.root := by
  have hd := h.drawn c hc
  obtain ⟨r, hr, hid, hroot, hkind⟩ := hd.root
  obtain ⟨x, hx⟩ := hd.found
  rw [List.mem_singleton.1 hd.source] at hr hx
  obtain ⟨b, hb⟩ := h.exists_pair hc hr (hid ▸ .self)
  obtain ⟨m, hm, hmid, -, -, hname⟩ := Tree.rootAt_of_rootNamed? hx
  obtain rfl := ho.forest.eq_of_id_eq hm hr (hmid.trans hid.symm)
  have hfields : b = { m with id := b.id, parent := b.parent, ref := b.ref } := hd.fields (m, b) hb
  refine ⟨(m, b), hb, hid, hroot, mem_structsNamed.2 ⟨h.mem_nodes hc hb, ?_, ?_, ?_⟩, hname ▸ hx⟩
  · exact beq_iff_eq.2 (hd.top (m, b) hb hid)
  · rw [hfields]
    exact hkind
  · rw [hfields]
    rfl

/-- no definition is copied twice -/
theorem eq_of_root_eq (ho : o.Formed) (hc : c ∈ copies) (hc' : c' ∈ copies) (e : c.root = c'.root) : c = c' := by
  obtain ⟨p, hp, hid, -, hin, -⟩ := h.exists_root ho hc
  obtain ⟨p', hp', hid', -, hin', -⟩ := h.exists_root ho hc'
  have hsame : p.1 = p'.1 :=
    ho.forest.eq_of_id_eq (h.original hc hp).1 (h.original hc' hp').1 (hid.trans (e.trans hid'.symm))
  rw [← hsame] at hin'
  have hone : p.2 = p'.2 := by
    obtain ⟨m, hm⟩ := List.length_eq_one_iff.1 (Nat.le_antisymm (h.single _) (List.length_pos_of_mem hin))
    rw [hm, List.mem_singleton] at hin hin'
    rw [hin, hin']
  exact h.eq_of_mem hc hc' (List.mem_map_of_mem hp) (hone ▸ List.mem_map_of_mem hp')

/-- an original is known by its id as well: it lies below one root struct only -/
theorem eq_of_original_id_eq (ho : o.Formed) (hc : c ∈ copies) (hp : p ∈ c.pairs)
    (hc' : c' ∈ copies) (hp' : p' ∈ c'.pairs) (e : p.1.id = p'.1.id) : p = p' := by
  obtain ⟨q, hq, hid, hroot, -⟩ := h.exists_root ho hc
  obtain ⟨q', hq', hid', hroot', -⟩ := h.exists_root ho hc'
  have hab : LiesAbove o.nodes q.1.id p.1.id := hid ▸ (h.original hc hp).2
  have hab' : LiesAbove o.nodes q'.1.id p.1.id := hid' ▸ e ▸ (h.original hc' hp').2
  have hsame := ho.forest.eq_of_roots_above (h.original hc hq).1 hroot (h.original hc' hq').1 hroot' hab hab'
  obtain rfl := h.eq_of_root_eq ho hc hc' (hid.symm.trans (hsame ▸ hid'))
  exact List.inj_on_of_nodup_map (h.drawn c hc).distinct hp hp' e

/-! ### What stands beside what -/

theorem id_ne_zero (ht : t.WellFormed) (hc : c ∈ copies) (hp : p ∈ c.pairs) : p.2.id ≠ 0 :=
  (UInt64.ne_of_lt (UInt64.lt_of_lt_of_le ht.positive (h.fresh _ (h.mem_nodes hc hp)))).symm

/-- the only new node of a copy on the outermost level is that of the root -/
theorem original_of_isRoot (ht : t.WellFormed) (hc : c ∈ copies) (hp : p ∈ c.pairs)
    (hroot : p.2.isRoot) : p.1.id = c.root := by
  by_contra hne
  obtain ⟨q, hq, -, hparent⟩ := (h.drawn c hc).held p hp hne
  exact h.id_ne_zero ht hc hq (hparent.symm.trans (beq_iff_eq.1 hroot))

/-- it is the copy of what is found by its name -/
theorem rootNamed?_of_isRoot (ht : t.WellFormed) (ho : o.Formed) (hc : c ∈ copies)
    (hp : p ∈ c.pairs) (hroot : p.2.isRoot) : o.rootNamed? p.2.typeName = some c.root := by
  obtain ⟨q, hq, hid, -, -, hfound⟩ := h.exists_root ho hc
  obtain rfl := h.eq_of_original_id_eq ho hc hq hc hp (hid.trans (h.original_of_isRoot ht hc hp hroot).symm)
  have hname : q.2.typeName = q.1.typeName := by
    rw [(h.drawn c hc).fields q hq]
    rfl
  rw [hname, hfound]

/-- a root struct whose name is new is a copy of what is found by the name -/
theorem exists_copy_of_rootAt (ht : t.WellFormed) (ho : o.Formed) {x : String} {id : NodeId}
    (hx : t.rootNamed? x = none) (hroot : RootAt (t.nodes ++ (t.planAdoption [o] name).1.nodes) x id) :
    ∃ c ∈ copies, o.rootNamed? x = some c.root ∧ ∃ p ∈ c.pairs, p.1.id = c.root ∧ p.2.id = id := by
  obtain ⟨m, hm, hid, hisRoot, hkind, rfl⟩ := hroot
  rcases List.mem_append.1 hm with hold | hnew
  · have hmem := mem_structsNamed.2 ⟨hold, hisRoot, hkind, rfl⟩
    rw [show structsNamed t.nodes m.typeName = [] from Tree.rootNamed?_eq_none_iff.1 hx] at hmem
    exact absurd hmem List.not_mem_nil
  · obtain ⟨k, c, hc, hk⟩ := h.exists_pair_of_mem hnew
    exact ⟨c, hc, h.rootNamed?_of_isRoot ht ho hc hk hisRoot, (k, m), hk, h.original_of_isRoot ht hc hk hisRoot, hid⟩

/-- what an original holds has a copy, which is held by the copy of the original -/
theorem down (ho : o.Formed) {a b k : Node} (hab : Paired copies a b) (hk : k ∈ o.nodes)
    (hparent : k.parent = a.id) : ∃ k', Paired copies k k' ∧ k'.parent = b.id := by
  obtain ⟨c, hc, hp⟩ := hab
  obtain ⟨ha, hbelow⟩ := h.original hc hp
  have hz : k.parent ≠ 0 := hparent ▸ ho.forest.nonzero a ha
  obtain ⟨k', hk'⟩ := h.exists_pair hc hk (.up hk hz (hparent ▸ hbelow))
  have hne : k.id ≠ c.root := by
    intro e
    obtain ⟨r, hr, hrid, hroot, -⟩ := h.exists_root ho hc
    obtain rfl := ho.forest.eq_of_id_eq (h.original hc hr).1 hk (hrid.trans e.symm)
    exact hz (beq_iff_eq.1 hroot)
  obtain ⟨q, hq, hqid, hqparent⟩ := (h.drawn c hc).held (k, k') hk' hne
  obtain rfl := h.eq_of_original_id_eq ho hc hq hc hp (hqid.trans hparent)
  exact ⟨k', ⟨c, hc, hk'⟩, hqparent⟩

/-- what is held by a copy is the copy of what its original holds -/
theorem back (ht : t.WellFormed) {a b k' : Node} (hab : Paired copies a b)
    (hk' : k' ∈ t.nodes ++ (t.planAdoption [o] name).1.nodes) (hparent : k'.parent = b.id) :
    ∃ k, Paired copies k k' ∧ k.parent = a.id := by
  obtain ⟨c, hc, hp⟩ := hab
  have hz : b.id ≠ 0 := h.id_ne_zero ht hc hp
  rcases List.mem_append.1 hk' with hold | hnew
  · -- what was there before is held by what was there before
    rcases ht.forest.held k' hold with h0 | ⟨m, hm, hmid, -⟩
    · exact absurd (hparent.symm.trans h0) hz
    · have hlt := UInt64.lt_of_lt_of_le (ht.below m hm) (h.fresh b (h.mem_nodes hc hp))
      exact absurd (hmid.trans hparent) (UInt64.ne_of_lt hlt)
  · obtain ⟨k, c', hc', hk⟩ := h.exists_pair_of_mem hnew
    have hd := h.drawn c' hc'
    have hne : k.id ≠ c'.root := fun e => hz (hparent.symm.trans (hd.top (k, k') hk e))
    obtain ⟨q, hq, hqid, hqparent⟩ := hd.held (k, k') hk hne
    obtain rfl := h.eq_of_copy_id_eq hc' hq hc hp (hqparent.symm.trans hparent)
    exact ⟨k, ⟨c', hc', hk⟩, hqid.symm⟩

/-- what a copy refers to is the copy of what its original refers to, if that is there -/
theorem refer (ht : t.WellFormed) (ho : o.Formed) (hwhole : t.BringsWhole o name) {a b : Node} (hab : Paired copies a b) :
    ((∀ q ∈ o.nodes, q.id ≠ a.ref) ∧ b.ref = 0) ∨ ∃ q q', Paired copies q q' ∧ q.id = a.ref ∧ q'.id = b.ref := by
  obtain ⟨c, hc, hp⟩ := hab
  have hd := h.drawn c hc
  by_cases hin : ∃ q ∈ c.pairs, a.ref = q.1.id
  · obtain ⟨q, hq, e⟩ := hin
    exact Or.inr ⟨q.1, q.2, ⟨c, hc, hq⟩, e.symm, (hd.inward (a, b) hp q hq e).symm⟩
  · have hout := hd.outward (a, b) hp fun q hq e => hin ⟨q, hq, e⟩
    rw [List.mem_singleton.1 hd.source] at hout
    by_cases hthere : ∃ q ∈ o.nodes, q.id = a.ref
    · right
      obtain ⟨q, hq, hid⟩ := hthere
      -- the reference leaves a definition, so that it leads to what is found by its name
      obtain ⟨r, hr, -, -, hplanned, hroot⟩ := h.exists_root ho hc
      have hbrings := h.brought _ _ hplanned
      have hdefinition : a ∈ o.definition c.root := (Tree.mem_definition_iff ho).2 (h.original hc hp)
      have houtside : q ∉ o.definition c.root := by
        intro hmem
        obtain ⟨q', hq'⟩ := h.exists_pair hc hq ((Tree.mem_definition_iff ho).1 hmem).2
        exact hin ⟨(q, q'), hq', hid.symm⟩
      have hfound := hwhole.found _ _ hbrings hroot a hdefinition q hq hid houtside
      have hnew := hwhole.new _ (.further hbrings hroot hdefinition hq hid houtside)
      rw [← hid, Tree.typeNameOf_of_mem ho hq] at hout
      have hlinked : RootAt (t.nodes ++ (t.planAdoption [o] name).1.nodes) q.typeName b.ref := by
        refine (if_neg fun hlost => ?_).mp hout
        exact absurd ((h.lost _ hlost).symm.trans hfound) (by simp)
      obtain ⟨c', hc', hroot', p, hp', hpid, hcopy⟩ := h.exists_copy_of_rootAt ht ho hnew hlinked
      have hsame := Option.some.inj (hroot'.symm.trans hfound)
      exact ⟨p.1, p.2, ⟨c', hc', hp'⟩, hpid.trans (hsame.trans hid), hcopy⟩
    · left
      have hno : ∀ q ∈ o.nodes, q.id ≠ a.ref := fun q hq e => hthere ⟨q, hq, e⟩
      rw [Tree.typeNameOf_eq_none ho.indexed (Or.inr hno)] at hout
      exact ⟨hno, hout⟩

/-- **Originals and copies correspond.** -/
theorem corresponds (ht : t.WellFormed) (ho : o.Formed) (hwhole : t.BringsWhole o name) {u : Tree} (hu : u.Formed)
    (hnodes : u.nodes = t.nodes ++ (t.planAdoption [o] name).1.nodes) : o.Corresponds u (Paired copies) where
  left := by
    rintro a b ⟨c, hc, hp⟩
    exact (h.original hc hp).1
  right := by
    rintro a b ⟨c, hc, hp⟩
    exact hnodes ▸ List.mem_append_right _ (h.mem_nodes hc hp)
  same := by
    rintro a b ⟨c, hc, hp⟩
    exact (h.drawn c hc).fields (a, b) hp
  id_iff := by
    rintro a b a' b' ⟨c, hc, hp⟩ ⟨c', hc', hp'⟩
    constructor
    · intro e
      exact congrArg (fun p => p.2.id) (h.eq_of_original_id_eq ho hc hp hc' hp' e)
    · intro e
      exact congrArg (fun p => p.1.id) (h.eq_of_copy_id_eq hc hp hc' hp' e)
  down := fun a b hab k hk hparent => h.down ho hab hk hparent
  back := fun a b hab k' hk' hparent => h.back ht hab (hnodes ▸ hk') hparent
  refer := by
    intro a b hab
    refine (h.refer ht ho hwhole hab).imp_left ?_
    rintro ⟨hno, h0⟩
    exact ⟨hno, fun q' hq' => h0 ▸ hu.forest.nonzero q' hq'⟩

/-- every definition that comes along is copied -/
theorem exists_copy (ht : t.WellFormed) (ho : o.Formed) (hwhole : t.BringsWhole o name)
    {x : String} (hx : o.Brings name x) : ∀ root, o.rootNamed? x = some root → ∃ c ∈ copies, c.root = root := by
  induction hx with
  | self =>
    intro root hroot
    obtain ⟨id, hid⟩ := h.asked (Option.isSome_of_eq_some hroot)
    obtain ⟨c, hc, hsame, -⟩ := h.exists_copy_of_rootAt ht ho (hwhole.new _ .self) hid
    exact ⟨c, hc, Option.some.inj (hsame.symm.trans hroot)⟩
  | @further x above n q hx habove hn hq hid hout ih =>
    intro root hroot
    have hfound := hwhole.found x above hx habove n hn q hq hid hout
    obtain ⟨c, hc, rfl⟩ := ih above habove
    obtain ⟨hmem, hbelow⟩ := (Tree.mem_definition_iff ho).1 hn
    obtain ⟨n', hn'⟩ := h.exists_pair hc hmem hbelow
    rcases h.refer ht ho hwhole ⟨c, hc, hn'⟩ with ⟨hno, -⟩ | ⟨q₁, q', ⟨c', hc', hq'⟩, hqid, -⟩
    · exact absurd hid (hno q hq)
    · obtain ⟨hmem', hbelow'⟩ := h.original hc' hq'
      obtain rfl := ho.forest.eq_of_id_eq hmem' hq (hqid.trans hid.symm)
      obtain ⟨m, hm, hmid, hmroot, -⟩ := Tree.rootAt_of_rootNamed? hfound
      obtain rfl := ho.forest.eq_of_id_eq hm hq hmid
      have hsame := ho.forest.eq_of_liesAbove_root hq hmroot hbelow'
      exact ⟨c', hc', hsame.trans (Option.some.inj (hfound.symm.trans hroot))⟩

end Gathered

end Adoption

namespace Tree

open Adoption

variable {t o : Tree} {name : String}

/-- **Copies have the size of their originals.** If a name can be brought along from another tree with all that belongs to it,
then every definition that comes along is copied, and every node of a copy covers as many bytes in the tree as its
original does in the other one. This includes definitions that refer to each other in rings. -/
theorem size_adopted (ht : t.WellFormed) (ho : o.WellFormed) (hwhole : t.BringsWhole o name)
    (hroom : (t.planAdoption [o] name).2.nextId.toNat < Word.top) :
    (t.planAdoption [o] name).2.insert (t.planAdoption [o] name).1.nodes = .ok (t.adoptNow [o] name).2 ∧
    ∃ copies : List Copy, (t.planAdoption [o] name).1.nodes = copies.flatMap Copy.nodes ∧
      (∀ c ∈ copies, c.Holds [o] (Linked t (t.planAdoption [o] name).1)) ∧
      (∀ x root, o.Brings name x → o.rootNamed? x = some root → ∃ c ∈ copies, c.root = root) ∧
      ∀ c ∈ copies, ∀ p ∈ c.pairs, ∃ i j, o.nodes[i]? = some p.1 ∧ (t.adoptNow [o] name).2.nodes[j]? = some p.2 ∧
        (t.adoptNow [o] name).2.size j = o.size i := by
  have hothers : ∀ u ∈ [o], u.Formed := List.forall_mem_singleton.2 ho.toFormed
  have hinsert := insert_planAdoption ht hothers name hroom
  have hformed := ((t.spent_planAdoption [o] name).formed ht.toFormed).insert hinsert
  obtain ⟨copies, h⟩ := exists_gathered ht ho.toFormed name hroom
  have hbeside := h.corresponds ht ho.toFormed hwhole hformed (nodes_adoptNow t [o] name)
  refine ⟨hinsert, copies, h.nodes, fun c hc => (h.drawn c hc).toHolds, ?_, fun c hc p hp => ?_⟩
  · exact fun x root hx hroot => h.exists_copy ht ho.toFormed hwhole hx root hroot
  · have hpair : Paired copies p.1 p.2 := ⟨c, hc, hp⟩
    obtain ⟨i, hi⟩ := List.mem_iff_getElem?.1 (hbeside.left _ _ hpair)
    obtain ⟨j, hj⟩ := List.mem_iff_getElem?.1 (hbeside.right _ _ hpair)
    exact ⟨i, j, hi, hj, (hbeside.size_eq ho.toFormed hformed hi hj hpair).symm⟩

/-- a struct that embeds another one, which holds a row of the first and refers to something that is not there -/
def knotNodes : List Node :=
  [{ Node.rootStruct "outer" "Outer" with id := 1 }, { Node.field 1 0 .uint32 "count" with id := 2 },
    { Node.field 1 8 .struct "inner" with id := 3, ref := 4 }, { Node.rootStruct "inner" "Inner" with id := 4 },
    { Node.array 4 4 "outers" .struct 3 with id := 5, ref := 1 },
    { Node.field 4 16 .pointer64 "lost" with id := 6, ref := 99 }]

def knot : Tree := knotNodes.foldl push (empty 0)

theorem ofNodes_knot : ofNodes 0 knotNodes 1 = .ok knot := rfl

/-- the knot is brought along for the pair, in whose tree its structs have the same sizes -/
theorem size_adopted_knot :
    pair.BringsWhole knot "Outer" ∧ knot.Brings "Outer" "Inner" ∧ knot.size 0 = 32 ∧ knot.size 3 = 28 ∧
    (pair.adoptNow [knot] "Outer").2.nodes.length = 9 ∧
    ∃ copies : List Copy, (pair.planAdoption [knot] "Outer").1.nodes = copies.flatMap Copy.nodes ∧
      (∃ c ∈ copies, c.root = 1) ∧ (∃ c ∈ copies, c.root = 4) ∧
      ∀ c ∈ copies, ∀ p ∈ c.pairs, ∃ i j, knot.nodes[i]? = some p.1 ∧
        (pair.adoptNow [knot] "Outer").2.nodes[j]? = some p.2 ∧ (pair.adoptNow [knot] "Outer").2.size j = knot.size i := by
  have houter : knot.rootNamed? "Outer" = some 1 := by decide
  have hinner : knot.rootNamed? "Inner" = some 4 := by decide
  have hdouter : knot.definition 1 = knotNodes.take 3 := by decide
  have hdinner : knot.definition 4 = knotNodes.drop 3 := by decide
  have hnames : "Outer" ∈ ["Outer", "Inner"] := by decide
  have hwhole : pair.BringsWhole knot "Outer" := by
    refine bringsWhole_of_names hnames (by decide) ?_
    rw [List.forall_mem_cons, List.forall_mem_singleton, houter, hinner]
    constructor
    · rintro _ ⟨rfl⟩
      rw [hdouter]
      decide
    · rintro _ ⟨rfl⟩
      rw [hdinner]
      decide
  have hbrings : knot.Brings "Outer" "Inner" := by
    refine .further (n := knotNodes[2]) (q := knotNodes[3]) .self houter ?_ (by decide) (by decide) ?_
    · rw [hdouter]
      decide
    · rw [hdouter]
      decide
  obtain ⟨-, copies, hnodes, -, hall, hsize⟩ :=
    size_adopted (wellFormed_ofNodes ofNodes_pair) (wellFormed_ofNodes ofNodes_knot) hwhole (by decide)
  exact ⟨hwhole, hbrings, by decide, by decide, by decide, copies, hnodes, hall "Outer" 1 .self houter,
    hall "Inner" 4 hbrings hinner, hsize⟩

end Tree

end ByteAtlas
