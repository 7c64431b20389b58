/-
Drafts while names are brought along, and what every piece of work on them keeps right.

- `Draft.Sane`: a name that is being brought along is defined and its root struct is there; a name that is missing is
  defined nowhere; new ids are the next ones in order.
- `Draft.Grown`: what is there stays. New nodes are appended, and of old ones only references change.

Opening a definition, pointing a node at something and noting a missing name do both (`Sane.opened`, `Sane.link`,
`Sane.miss`). Opening one also leaves fewer nodes of the other trees whose names are still to be brought along
(`unplanned_opened_lt`), which is why looking names up comes to an end.
-/
import ByteAtlas.Proofs.Definition.Copies

namespace ByteAtlas

/-! ## Names and root structs -/

def RootAt (ns : List Node) (name : String) (id : NodeId) : Prop :=
  ∃ m ∈ ns, m.id = id ∧ m.isRoot ∧ m.kind = .struct ∧ m.typeName = name

theorem RootAt.mono {ns ms : List Node} {name : String} {id : NodeId} (h : RootAt ns name id) (hs : ns ⊆ ms) :
    RootAt ms name id := by
  obtain ⟨m, hm, h⟩ := h
  exact ⟨m, hs hm, h⟩

theorem Tree.rootAt_of_rootNamed? {t : Tree} {name : String} {id : NodeId} (h : t.rootNamed? name = some id) :
    RootAt t.nodes name id := by
  obtain ⟨m, hm, hid⟩ := Option.map_eq_some_iff.1 h
  have hyes := List.find?_some hm
  simp only [Bool.and_eq_true, beq_iff_eq] at hyes
  exact ⟨m, List.mem_of_find?_eq_some hm, hid, hyes.1.1, hyes.1.2, hyes.2⟩

theorem Tree.Spent.rootNamed? {t u : Tree} (h : t.Spent u) (name : String) : u.rootNamed? name = t.rootNamed? name := by
  rw [Tree.rootNamed?, Tree.rootNamed?, h.nodes]

namespace Adoption

/-- whether a name is that of a root struct of the tree or of one of the others -/
def Defined (t : Tree) (others : List Tree) (name : String) : Prop :=
  (t.rootNamed? name).isSome ∨ ∃ o ∈ others, (o.rootNamed? name).isSome

theorem firstDefining_some {name : String} {others : List Tree} {i origin : Nat} {o : Tree} {root : NodeId}
    (h : firstDefining name i others = some (origin, o, root)) : o ∈ others ∧ o.rootNamed? name = some root := by
  induction others generalizing i with
  | nil => simp [firstDefining] at h
  | cons u rest ih =>
    rw [firstDefining] at h
    cases hu : u.rootNamed? name with
    | some id =>
      rw [hu] at h
      simp only [Option.some.injEq, Prod.mk.injEq] at h
      obtain ⟨-, rfl, rfl⟩ := h
      exact ⟨List.mem_cons_self, hu⟩
    | none =>
      rw [hu] at h
      obtain ⟨ho, hroot⟩ := ih h
      exact ⟨List.mem_cons_of_mem _ ho, hroot⟩

/-- the tree that defines a name is found at its place among the others -/
theorem getElem?_of_firstDefining {name : String} {others : List Tree} {i origin : Nat} {o : Tree} {root : NodeId}
    (h : firstDefining name i others = some (origin, o, root)) : i ≤ origin ∧ others[origin - i]? = some o := by
  induction others generalizing i with
  | nil => simp [firstDefining] at h
  | cons u rest ih =>
    rw [firstDefining] at h
    cases hu : u.rootNamed? name with
    | some found =>
      rw [hu] at h
      simp only [Option.some.injEq, Prod.mk.injEq] at h
      obtain ⟨rfl, rfl, -⟩ := h
      exact ⟨Nat.le_refl _, by rw [Nat.sub_self]; rfl⟩
    | none =>
      rw [hu] at h
      obtain ⟨hle, hget⟩ := ih h
      refine ⟨Nat.le_of_succ_le hle, ?_⟩
      rw [show origin - i = origin - (i + 1) + 1 by omega, List.getElem?_cons_succ, hget]

theorem firstDefining_none {name : String} {others : List Tree} {i : Nat} (h : firstDefining name i others = none) :
    ∀ o ∈ others, o.rootNamed? name = none := by
  induction others generalizing i with
  | nil => simp
  | cons u rest ih =>
    rw [firstDefining] at h
    cases hu : u.rootNamed? name with
    | some id => simp [hu] at h
    | none =>
      rw [hu] at h
      exact List.forall_mem_cons.2 ⟨hu, ih h⟩

namespace Draft

/-! ## What is kept right -/

/-- what holds of every draft for a tree -/
structure Sane (t : Tree) (others : List Tree) (d : Draft) : Prop where
  spent : t.Spent d.tree
  planned : ∀ p ∈ d.planned, Defined t others p.1 ∧ RootAt (t.nodes ++ d.nodes) p.1 p.2
  missing : ∀ name ∈ d.missing, ¬ Defined t others name
  /-- unless the ids have run out, the new nodes have the next ones in order -/
  numbered : d.tree.nextId.toNat < Word.top → d.tree.nextId.toNat = t.nextId.toNat + d.nodes.length ∧
    d.nodes.map (fun n => n.id.toNat) = List.range' t.nextId.toNat d.nodes.length

/-- what is in a draft is still there in a later one -/
structure Grown (t : Tree) (d d' : Draft) : Prop where
  planned : d.planned ⊆ d'.planned
  missing : d.missing ⊆ d'.missing
  roots : ∀ name id, RootAt (t.nodes ++ d.nodes) name id → RootAt (t.nodes ++ d'.nodes) name id

variable {t : Tree} {others : List Tree} {d d' d'' : Draft}

theorem Grown.refl (t : Tree) (d : Draft) : Grown t d d := ⟨List.Subset.refl _, List.Subset.refl _, fun _ _ h => h⟩

theorem Grown.trans (h : Grown t d d') (h' : Grown t d' d'') : Grown t d d'' :=
  ⟨List.Subset.trans h.planned h'.planned, List.Subset.trans h.missing h'.missing,
    fun name id hr => h'.roots name id (h.roots name id hr)⟩

/-! ## Pointing a node at something -/

theorem grown_link (t : Tree) (d : Draft) (place : Nat) (id : NodeId) : Grown t d (d.link place id) := by
  refine ⟨List.Subset.refl _, List.Subset.refl _, fun name root hr => ?_⟩
  obtain ⟨m, hm, hid, hroot, hkind, hname⟩ := hr
  rcases List.mem_append.1 hm with hm | hm
  · exact ⟨m, List.mem_append_left _ hm, hid, hroot, hkind, hname⟩
  · obtain ⟨i, hi⟩ := List.mem_iff_getElem?.1 hm
    have hmod : (d.link place id).nodes[i]? = some (if place = i then { m with ref := id } else m) := by
      rw [link, List.getElem?_modify, hi]
      split <;> rfl
    refine ⟨_, List.mem_append_right _ (List.mem_of_getElem? hmod), ?_⟩
    split <;> exact ⟨hid, hroot, hkind, hname⟩

theorem Sane.link (h : Sane t others d) (place : Nat) (id : NodeId) : Sane t others (d.link place id) where
  spent := h.spent
  planned := fun p hp => ⟨(h.planned p hp).1, (grown_link t d place id).roots p.1 p.2 (h.planned p hp).2⟩
  missing := h.missing
  numbered := by
    intro htop
    obtain ⟨hnext, hids⟩ := h.numbered htop
    have hlen : (d.link place id).nodes.length = d.nodes.length := List.length_modify _ _ _
    have hmap : (d.link place id).nodes.map (fun n => n.id.toNat) = d.nodes.map fun n => n.id.toNat := by
      apply List.ext_getElem?
      intro i
      rw [List.getElem?_map, List.getElem?_map, Draft.link, List.getElem?_modify]
      cases d.nodes[i]? with
      | none => simp
      | some m => by_cases e : place = i <;> simp [e]
    rw [hlen, hmap]
    exact ⟨hnext, hids⟩

/-! ## Noting a missing name -/

theorem mem_missing_miss (d : Draft) (name : String) : name ∈ (d.miss name).missing := by
  unfold miss
  split
  · next h => exact List.contains_iff_mem.1 h
  · exact List.mem_append_right _ List.mem_cons_self

theorem grown_miss (t : Tree) (d : Draft) (name : String) : Grown t d (d.miss name) := by
  unfold miss
  split
  · exact .refl t d
  · exact ⟨List.Subset.refl _, List.subset_append_left _ _, fun _ _ h => h⟩

theorem nodes_miss (d : Draft) (name : String) : (d.miss name).nodes = d.nodes := by
  unfold miss
  split <;> rfl

theorem Sane.miss (h : Sane t others d) {name : String} (hname : ¬ Defined t others name) :
    Sane t others (d.miss name) := by
  unfold Draft.miss
  split
  · exact h
  · refine ⟨h.spent, h.planned, fun x hx => ?_, h.numbered⟩
    rcases List.mem_append.1 hx with hx | hx
    · exact h.missing x hx
    · exact List.mem_singleton.1 hx ▸ hname

end Draft

/-! ## Opening a definition -/

variable {t src : Tree} {others : List Tree} {d : Draft} {name : String} {root : NodeId}

theorem map_fst_newIds (d : Draft) (src : Tree) (root : NodeId) :
    (newIds d src root).1.map Prod.fst = (src.definition root).map (·.id) :=
  d.tree.map_fst_renumber _

/-- looking up the keys of a list of pairs gives the other sides, in order -/
theorem map_lookup_eq {ids : List (NodeId × NodeId)} (hd : (ids.map Prod.fst).Nodup) :
    (ids.map Prod.fst).map (fun id => (ids.lookup id).getD 0) = ids.map Prod.snd := by
  induction ids with
  | nil => rfl
  | cons p rest ih =>
    obtain ⟨a, b⟩ := p
    rw [List.map_cons, List.nodup_cons] at hd
    rw [List.map_cons, List.map_cons, List.map_cons, ← ih hd.2]
    refine List.cons_eq_cons.2 ⟨by simp, List.map_congr_left fun id hid => ?_⟩
    have hne : (id == a) = false := by
      rw [beq_eq_false_iff_ne]
      intro e
      exact hd.1 (e ▸ hid)
    rw [List.lookup_cons, hne]

theorem map_id_copies (h : src.Formed) (d : Draft) (root : NodeId) (start : Nat) :
    (copyOf src (newIds d src root).1 start (src.definition root)).1.map (·.id) =
      (newIds d src root).1.map Prod.snd := by
  have hd := Tree.nodup_map_id_definition h root
  rw [← map_fst_newIds d src root] at hd
  rw [← map_lookup_eq hd, map_fst_newIds, copyOf, List.map_map, List.map_map]
  have hzip : (src.definition root).zipIdx.map Prod.fst = src.definition root := List.zipIdx_map_fst 0 _
  conv_rhs => rw [← hzip, List.map_map]
  rfl

theorem grown_opened (t : Tree) (d : Draft) (name : String) (src : Tree) (root : NodeId) :
    Draft.Grown t d (d.opened name src root) :=
  ⟨List.subset_cons_self _ _, List.Subset.refl _, fun _ _ h =>
    h.mono (List.append_subset.2 ⟨List.subset_append_left _ _,
      List.Subset.trans (List.subset_append_left _ _) (List.subset_append_right _ _)⟩)⟩

/-- the root of the definition is among the new nodes -/
theorem rootAt_opened (h : src.Formed) (d : Draft) (hroot : src.rootNamed? name = some root) :
    RootAt (d.opened name src root).nodes name (((newIds d src root).1.lookup root).getD 0) := by
  obtain ⟨r, hr, rfl, -, hkind, hname⟩ := Tree.rootAt_of_rootNamed? hroot
  obtain ⟨rest, hcons⟩ := Tree.definition_eq_cons h hr
  refine ⟨recast (newIds d src r.id).1 true r, List.mem_append_right _ ?_, rfl, rfl, hkind, hname⟩
  rw [copyOf, hcons]
  exact List.mem_cons_self

theorem Draft.Sane.opened (hd : Draft.Sane t others d) (h : src.Formed) (hsrc : src ∈ others)
    (hroot : src.rootNamed? name = some root) : Draft.Sane t others (d.opened name src root) where
  spent := hd.spent.trans (d.tree.spent_renumber _)
  planned := by
    intro p hp
    rcases List.mem_cons.1 hp with rfl | hp
    · exact ⟨Or.inr ⟨src, hsrc, by rw [hroot]; rfl⟩,
        (rootAt_opened h d hroot).mono (List.subset_append_right _ _)⟩
    · exact ⟨(hd.planned p hp).1, (grown_opened t d name src root).roots p.1 p.2 (hd.planned p hp).2⟩
  missing := hd.missing
  numbered := by
    intro htop
    obtain ⟨hnext, hids⟩ := d.tree.renumber_numbers htop
    have hle := UInt64.le_iff_toNat_le.1 (d.tree.spent_renumber ((src.definition root).map (·.id))).le
    obtain ⟨hnext', hids'⟩ := hd.numbered (Nat.lt_of_le_of_lt hle htop)
    rw [List.length_map] at hnext hids
    have hlen : (d.opened name src root).nodes.length = d.nodes.length + (src.definition root).length := by
      rw [Draft.opened, List.length_append, copyOf, List.length_map, List.length_zipIdx]
    have hnew : (copyOf src (newIds d src root).1 d.nodes.length (src.definition root)).1.map (fun n => n.id.toNat) =
        List.range' d.tree.nextId.toNat (src.definition root).length := by
      rw [← hids]
      have hmap := congrArg (List.map UInt64.toNat) (map_id_copies h d root d.nodes.length)
      rwa [List.map_map, List.map_map] at hmap
    rw [hlen]
    constructor
    · calc (newIds d src root).2.nextId.toNat = d.tree.nextId.toNat + (src.definition root).length := hnext
        _ = t.nextId.toNat + (d.nodes.length + (src.definition root).length) := by omega
    · rw [Draft.opened, List.map_append, hids', hnew, hnext', List.range'_append_1]

/-! ## Names that are still to be brought along -/

/-- how many nodes of the other trees have a name that is not being brought along -/
def unplanned (others : List Tree) (d : Draft) : Nat :=
  ((others.flatMap (·.nodes)).filter fun n => !(d.planned.map Prod.fst).contains n.typeName).length

theorem unplanned_le (others : List Tree) {d d' : Draft} (h : d.planned ⊆ d'.planned) :
    unplanned others d' ≤ unplanned others d := by
  refine List.Sublist.length_le (List.monotone_filter_right _ fun n hn => ?_)
  simp only [Bool.not_eq_true', List.contains_eq_mem, decide_eq_false_iff_not, List.mem_map, not_exists, not_and] at hn ⊢
  exact fun p hp => hn p (h hp)

theorem unplanned_opened_lt (hplanned : d.planned.lookup name = none) (hsrc : src ∈ others)
    (hroot : src.rootNamed? name = some root) : unplanned others (d.opened name src root) < unplanned others d := by
  obtain ⟨r, hr, -, -, -, hname⟩ := Tree.rootAt_of_rootNamed? hroot
  have hnew : name ∉ d.planned.map Prod.fst := by
    intro hin
    obtain ⟨p, hp, e⟩ := List.mem_map.1 hin
    have hno := List.lookup_eq_none_iff.1 hplanned p hp
    simp [e] at hno
  have hfilter : ((others.flatMap (·.nodes)).filter fun n =>
      !((d.opened name src root).planned.map Prod.fst).contains n.typeName) =
      ((others.flatMap (·.nodes)).filter fun n => !(d.planned.map Prod.fst).contains n.typeName).filter
        fun n => n.typeName != name := by
    rw [List.filter_filter]
    refine List.filter_congr ?_
    intro n _
    rw [Draft.opened, List.map_cons, List.contains_cons, Bool.not_or]
    rfl
  rw [unplanned, hfilter, unplanned, List.length_filter_lt_length_iff_exists]
  refine ⟨r, List.mem_filter.2 ⟨List.mem_flatMap.2 ⟨src, hsrc, hr⟩, ?_⟩, by simp [hname]⟩
  simpa [hname] using hnew

end Adoption

end ByteAtlas
