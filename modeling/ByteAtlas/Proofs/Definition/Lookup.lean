/-
Two ways of looking a type name up. One stops at the first tree that has a root struct of the name and copies its definition;
the other collects the definitions of all trees with their digests. Both go through the trees in one order, the tree itself
first, and mean the same by a definition.

- `Adoption.firstDefining_eq_some_iff`: what the search stops at.
- `Tree.resolution_planAdoption`: what a plan says of its name, told by that search alone.
- `Tree.mem_rivals_iff`, `Tree.pairwise_rivals`: which definitions are collected, and in which order.
- `Tree.head?_rivals`: the first of them is what the search stops at.
- `Tree.lookup_agrees`: plans and collections agree.
-/
import ByteAtlas.Definition.Rivals
import ByteAtlas.Proofs.Definition.Fidelity

namespace ByteAtlas

variable {t : Tree} {others : List Tree} {name : String}

/-! ## The search that stops -/

namespace Adoption

/-- **The search stops at the first tree that defines the name**, and tells its place. -/
theorem firstDefining_eq_some_iff {i k : Nat} {src : Tree} {root : NodeId} :
    firstDefining name i others = some (k, src, root) ↔ i ≤ k ∧ others[k - i]? = some src ∧
      src.rootNamed? name = some root ∧ ∀ j < k - i, ∀ o, others[j]? = some o → o.rootNamed? name = none := by
  induction others generalizing i with
  | nil => simp [firstDefining]
  | cons o rest ih =>
    rw [firstDefining]
    cases ho : o.rootNamed? name with
    | some found =>
      constructor
      · rintro ⟨⟩
        refine ⟨le_rfl, by simp, ho, fun j hj => absurd hj (by omega)⟩
      · rintro ⟨hle, hget, hroot, hfirst⟩
        -- an earlier place than that of a tree which defines the name
        have hk : k = i := by
          by_contra hne
          simpa [ho] using hfirst 0 (by omega) o rfl
        subst hk
        obtain rfl : o = src := by simpa using hget
        obtain rfl := Option.some.inj (ho.symm.trans hroot)
        rfl
    | none =>
      rw [ih]
      constructor
      · rintro ⟨hle, hget, hroot, hfirst⟩
        refine ⟨by omega, ?_, hroot, fun j hj u hu => ?_⟩
        · rw [show k - i = k - (i + 1) + 1 by omega, List.getElem?_cons_succ, hget]
        · cases j with
          | zero => exact Option.some.inj hu ▸ ho
          | succ j => exact hfirst j (by omega) u hu
      · rintro ⟨hle, hget, hroot, hfirst⟩
        have hlt : i < k := by
          refine lt_of_le_of_ne hle fun e => ?_
          subst e
          obtain rfl : o = src := by simpa using hget
          simp [ho] at hroot
        refine ⟨hlt, ?_, hroot, fun j hj u hu => hfirst (j + 1) (by omega) u hu⟩
        rwa [show k - i = k - (i + 1) + 1 by omega, List.getElem?_cons_succ] at hget

end Adoption

namespace Tree

open Adoption

/-- what a plan says of its name: it is there, or the search stops at another tree, or nothing defines it -/
theorem resolution_planAdoption (t : Tree) (others : List Tree) (name : String) :
    (t.planAdoption others name).1.resolution =
      match t.rootNamed? name, firstDefining name 0 others with
      | some id, _ => .present id
      | none, some (k, src, root) => .copied (((newIds ⟨t, [], [], []⟩ src root).1.lookup root).getD 0) k
      | none, none => .unresolved := by
  change (resolve others ((others.flatMap (·.nodes)).length + 2) ⟨t, [], [], []⟩ name).1 = _
  cases hlocal : t.rootNamed? name with
  | some id => rw [resolve, hlocal]
  | none =>
    cases hfind : firstDefining name 0 others with
    | none => rw [resolve, hlocal, hfind]; rfl
    | some found => rw [resolve_copied hlocal rfl hfind]

end Tree

/-! ## The collection -/

/-- the place of a definition's tree in the order of the search, in which the tree itself comes first -/
def Rival.place (r : Rival) : Nat := r.origin.elim 0 (· + 1)

namespace Tree

open Adoption

theorem rival?_eq_some_iff {origin : Option Nat} {r : Rival} : t.rival? origin name = some r ↔
    r.origin = origin ∧ t.rootNamed? name = some r.id ∧ t.digest r.id = some r.digest := by
  obtain ⟨o, id, digest⟩ := r
  unfold rival?
  cases t.rootNamed? name with
  | none => simp
  | some found =>
    simp only [Option.map_eq_some_iff, Rival.mk.injEq, Option.some.injEq]
    constructor
    · rintro ⟨d, hd, rfl, rfl, rfl⟩
      exact ⟨rfl, rfl, hd⟩
    · rintro ⟨rfl, rfl, hd⟩
      exact ⟨digest, hd, rfl, rfl, rfl⟩

/-- **Every definition of the name is collected**, that of each tree under the tree's place. -/
theorem mem_rivals_iff {r : Rival} : r ∈ t.rivals others name ↔
    ∃ o, (t :: others)[r.place]? = some o ∧ o.rootNamed? name = some r.id ∧ o.digest r.id = some r.digest := by
  obtain ⟨origin, id, digest⟩ := r
  simp only [rivals, List.mem_append, Option.mem_toList, List.mem_filterMap, rival?_eq_some_iff, Rival.place]
  cases origin with
  | none => simp
  | some k =>
    simp only [reduceCtorEq, false_and, false_or, Option.elim_some, List.getElem?_cons_succ, Option.some.injEq]
    constructor
    · rintro ⟨⟨o, j⟩, hmem, rfl, hroot, hdigest⟩
      exact ⟨o, List.mem_zipIdx_iff_getElem?.1 hmem, hroot, hdigest⟩
    · rintro ⟨o, ho, hroot, hdigest⟩
      exact ⟨(o, k), List.mem_zipIdx_iff_getElem?.2 ho, rfl, hroot, hdigest⟩

/-- **The collection is in the order of the search**, and no tree is in it twice. -/
theorem pairwise_rivals (t : Tree) (others : List Tree) (name : String) :
    (t.rivals others name).Pairwise fun a b => a.place < b.place := by
  have hplaces : others.zipIdx.Pairwise fun a b => a.2 < b.2 := by
    rw [← List.pairwise_map (f := Prod.snd) (R := (· < ·)), List.zipIdx_map_snd]
    exact List.pairwise_lt_range'
  rw [rivals, List.pairwise_append]
  refine ⟨?_, hplaces.filterMap _ fun a b hlt r hr s hs => ?_, fun a ha b hb => ?_⟩
  · cases t.rival? none name <;> simp
  · rw [Rival.place, Rival.place, (rival?_eq_some_iff.1 hr).1, (rival?_eq_some_iff.1 hs).1]
    exact Nat.succ_lt_succ hlt
  · obtain ⟨x, -, hx⟩ := List.mem_filterMap.1 hb
    rw [Rival.place, Rival.place, (rival?_eq_some_iff.1 (Option.mem_toList.1 ha)).1, (rival?_eq_some_iff.1 hx).1]
    exact Nat.succ_pos _

/-- in a formed tree every root struct has a digest -/
theorem rival?_eq_map (h : t.Formed) (origin : Option Nat) :
    t.rival? origin name = (t.rootNamed? name).map fun id => ⟨origin, id, (t.digest id).getD []⟩ := by
  cases hroot : t.rootNamed? name with
  | none => rw [rival?, hroot]; rfl
  | some id =>
    obtain ⟨r, hr, rfl, -⟩ := rootAt_of_rootNamed? hroot
    obtain ⟨bytes, hbytes⟩ : ∃ bytes, t.digest r.id = some bytes := by
      rw [digest, canonicalBytes_eq_some h hr]
      exact ⟨_, rfl⟩
    simp [rival?, hroot, hbytes]

/-- **The first definition collected is the one that the search stops at.** -/
theorem head?_rivals (ht : t.Formed) (hothers : ∀ o ∈ others, o.Formed) : (t.rivals others name).head? =
    match t.rootNamed? name, firstDefining name 0 others with
    | some id, _ => some ⟨none, id, (t.digest id).getD []⟩
    | none, some (k, src, root) => some ⟨some k, root, (src.digest root).getD []⟩
    | none, none => none := by
  have hsearch : ∀ i, (others.zipIdx i).findSome? (fun x => x.1.rival? (some x.2) name) =
      (firstDefining name i others).map fun x => ⟨some x.1, x.2.2, (x.2.1.digest x.2.2).getD []⟩ := by
    induction others with
    | nil => exact fun _ => rfl
    | cons o rest ih =>
      intro i
      rw [List.forall_mem_cons] at hothers
      rw [List.zipIdx_cons, List.findSome?_cons, rival?_eq_map hothers.1, firstDefining]
      cases o.rootNamed? name with
      | some id => rfl
      | none => exact ih hothers.2 (i + 1)
  rw [rivals, List.head?_append, List.head?_filterMap, hsearch, rival?_eq_map ht]
  cases t.rootNamed? name with
  | some id => rfl
  | none => cases firstDefining name 0 others <;> rfl

/-- there is a disagreement if and only if two definitions have different digests, and it tells all of them -/
theorem disagreement?_eq_some_iff {d : Disagreement} : t.disagreement? others name = some d ↔
    (∃ a ∈ t.rivals others name, ∃ b ∈ t.rivals others name, a.digest ≠ b.digest) ∧
      d = ⟨name, t.rivals others name⟩ := by
  unfold disagreement?
  cases t.rivals others name with
  | nil => simp
  | cons first rest =>
    have hiff : (rest.any fun r => r.digest != first.digest) = true ↔
        ∃ a ∈ first :: rest, ∃ b ∈ first :: rest, a.digest ≠ b.digest := by
      rw [List.any_eq_true]
      simp only [bne_iff_ne]
      constructor
      · rintro ⟨r, hr, hne⟩
        exact ⟨r, List.mem_cons_of_mem _ hr, first, List.mem_cons_self, hne⟩
      · rintro ⟨a, ha, b, hb, hne⟩
        by_contra hno
        push Not at hno
        -- all have the digest of the first one
        have hall : ∀ r ∈ first :: rest, r.digest = first.digest := List.forall_mem_cons.2 ⟨rfl, hno⟩
        exact hne ((hall a ha).trans (hall b hb).symm)
    rw [← hiff]
    change (if rest.any (fun r => r.digest != first.digest) then some ⟨name, first :: rest⟩ else none) = some d ↔ _
    split_ifs with hany
    · rw [Option.some_inj, and_iff_right hany, eq_comm]
    · exact ⟨fun hno => (nomatch hno), fun hyes => absurd hyes.1 hany⟩

end Tree

/-! ## Both together -/

/-- the planned nodes start with a copy of the whole definition that is collected, and the copy of its root has an id -/
def Adoption.StartsWith (t : Tree) (others : List Tree) (plan : Adoption) (r : Rival) (id : NodeId) : Prop :=
  ∃ (c : Copy) (root : Node × Node) (below : List (Node × Node)), (t :: others)[r.place]? = some c.source ∧ c.root = r.id ∧
    c.Holds others (Linked t plan) ∧ c.nodes <+: plan.nodes ∧
    c.pairs = root :: below ∧ root.1.id = r.id ∧ root.2.id = id

namespace Adoption

/-- what a name has come to while looking up is what it comes to in the plan -/
theorem Settled.linked {d : Draft} (hd : d.Sane t others) {r : Resolution} {x : String} {ref : NodeId}
    (h : Settled t others d x ref) : Linked t ⟨r, d.nodes, d.missing⟩ x ref := by
  rcases h with ⟨hdefined, hroot⟩ | ⟨-, hmissing, h0⟩
  · exact (if_neg fun hin => hd.missing x hin hdefined).mpr hroot
  · exact (if_pos hmissing).mpr h0

/-- the id of the planned root is told by the plan -/
theorem StartsWith.id_eq {plan : Adoption} {r : Rival} {id id' : NodeId} (h : plan.StartsWith t others r id)
    (h' : plan.StartsWith t others r id') : id = id' := by
  have hhead : ∀ {id}, plan.StartsWith t others r id → (plan.nodes.head?).map (·.id) = some id := by
    rintro id ⟨c, root, below, -, -, -, ⟨rest, hrest⟩, hpairs, -, rfl⟩
    rw [← hrest, Copy.nodes, hpairs]
    rfl
  exact Option.some.inj ((hhead h).symm.trans (hhead h'))

end Adoption

namespace Tree

open Adoption

/-- if a name is copied, the planned nodes start with the copy of the definition that was found for it -/
theorem startsWith_of_copied (hothers : ∀ o ∈ others, o.Formed) {id : NodeId} {k : Nat} {r : Rival}
    (hcopied : (t.planAdoption others name).1.resolution = .copied id k) (hr : (t.rivals others name).head? = some r)
    (hk : r.origin = some k) : (t.planAdoption others name).1.StartsWith t others r id := by
  have hsane : Draft.Sane t others ⟨t, [], [], []⟩ := ⟨.refl t, by simp, by simp, fun _ => ⟨rfl, rfl⟩⟩
  have hdepth : unplanned others ⟨t, [], [], []⟩ < (others.flatMap (·.nodes)).length + 2 :=
    Nat.lt_of_le_of_lt (List.length_filter_le _ _) (by omega)
  obtain ⟨-, src, root, hplace, hroot, hid, hsane', pairs, copies, hnodes, hfst, hfits, -⟩ :=
    following_of_copied hothers hsane hdepth hcopied
  obtain ⟨n, hn, rfl, hisRoot, hstruct, -⟩ := rootAt_of_rootNamed? hroot
  have hsrc := hothers src (List.mem_of_getElem? hplace)
  have hcasts : Casts src n (newIds ⟨t, [], [], []⟩ src n.id).1 pairs (Linked t (t.planAdoption others name).1) := by
    refine ⟨hsrc, hn, map_fst_newIds _ src n.id, hfst, fun j p hp => (hfits j p hp).mono fun x _ hx => ?_⟩
    exact (hx.resolve_left fun hno => absurd hno.2 List.not_mem_nil).linked hsane'
  obtain ⟨below, hbelow⟩ := definition_eq_cons hsrc hn
  obtain ⟨root, rest, hpairs, hfirst⟩ : ∃ root rest, pairs = root :: rest ∧ root.1 = n := by
    cases pairs with
    | nil => simp [hbelow] at hfst
    | cons root rest => exact ⟨root, rest, rfl, (List.cons.inj (hfst.trans hbelow)).1⟩
  obtain ⟨o, ho, hrid, -⟩ := mem_rivals_iff.1 (List.mem_of_mem_head? hr)
  have hrsrc : (t :: others)[r.place]? = some src := by rw [Rival.place, hk]; exact hplace
  obtain rfl : o = src := Option.some.inj (ho.symm.trans hrsrc)
  have hrn : r.id = n.id := Option.some.inj (hrid.symm.trans hroot)
  refine ⟨⟨o, n.id, pairs⟩, root, rest, ho, hrn.symm, hcasts.holds (List.mem_of_getElem? hplace) hisRoot hstruct, ?_,
    hpairs, by rw [hfirst, hrn], ?_⟩
  · exact ⟨_, hnodes.symm⟩
  · rw [hcasts.id_eq (hpairs ▸ List.mem_cons_self), hfirst, hid]

theorem resolution_eq_present_iff (ht : t.Formed) (hothers : ∀ o ∈ others, o.Formed) {id : NodeId} :
    (t.planAdoption others name).1.resolution = .present id ↔
      ∃ r, (t.rivals others name).head? = some r ∧ r.origin = none ∧ r.id = id := by
  rw [resolution_planAdoption, head?_rivals ht hothers]
  cases t.rootNamed? name with
  | some found => simp
  | none => cases firstDefining name 0 others <;> simp

theorem resolution_eq_unresolved_iff (ht : t.Formed) (hothers : ∀ o ∈ others, o.Formed) :
    (t.planAdoption others name).1.resolution = .unresolved ↔ t.rivals others name = [] := by
  rw [← List.head?_eq_none_iff, resolution_planAdoption, head?_rivals ht hothers]
  cases t.rootNamed? name with
  | some found => simp
  | none => cases firstDefining name 0 others <;> simp

theorem exists_resolution_eq_copied_iff (ht : t.Formed) (hothers : ∀ o ∈ others, o.Formed) {k : Nat} :
    (∃ id, (t.planAdoption others name).1.resolution = .copied id k) ↔
      ∃ r, (t.rivals others name).head? = some r ∧ r.origin = some k := by
  rw [resolution_planAdoption, head?_rivals ht hothers]
  cases t.rootNamed? name with
  | some found => simp
  | none => cases firstDefining name 0 others <;> simp

theorem resolution_eq_copied_iff (ht : t.Formed) (hothers : ∀ o ∈ others, o.Formed) {id : NodeId} {k : Nat} :
    (t.planAdoption others name).1.resolution = .copied id k ↔ ∃ r, (t.rivals others name).head? = some r ∧
      r.origin = some k ∧ (t.planAdoption others name).1.StartsWith t others r id := by
  constructor
  · intro hcopied
    obtain ⟨r, hr, hk⟩ := (exists_resolution_eq_copied_iff ht hothers).1 ⟨id, hcopied⟩
    exact ⟨r, hr, hk, startsWith_of_copied hothers hcopied hr hk⟩
  · rintro ⟨r, hr, hk, hstarts⟩
    obtain ⟨id', hcopied⟩ := (exists_resolution_eq_copied_iff ht hothers).2 ⟨r, hr, hk⟩
    rw [hstarts.id_eq (startsWith_of_copied hothers hcopied hr hk), hcopied]

/-- **Looking a name up and collecting its definitions agree.** A plan finds the name in the tree exactly when the first
definition collected is that of the tree, under this id. It copies the name from another tree exactly when the first
definition is that of this tree, and then the planned nodes start with a copy of that definition, with the new id at its
root. It leaves the name unresolved exactly when nothing is collected. There is a disagreement exactly when two of the
definitions have different digests, and it tells all that are collected. Collected is every definition that one of the trees
has, in the order in which they are searched. -/
theorem lookup_agrees (ht : t.WellFormed) (hothers : ∀ o ∈ others, o.WellFormed) (name : String) :
    let plan := (t.planAdoption others name).1
    let found := t.rivals others name
    (∀ id, plan.resolution = .present id ↔ ∃ r, found.head? = some r ∧ r.origin = none ∧ r.id = id) ∧
    (∀ id k, plan.resolution = .copied id k ↔
      ∃ r, found.head? = some r ∧ r.origin = some k ∧ plan.StartsWith t others r id) ∧
    (plan.resolution = .unresolved ↔ found = []) ∧
    (∀ d, t.disagreement? others name = some d ↔
      (∃ a ∈ found, ∃ b ∈ found, a.digest ≠ b.digest) ∧ d = ⟨name, found⟩) ∧
    (∀ r, r ∈ found ↔
      ∃ o, (t :: others)[r.place]? = some o ∧ o.rootNamed? name = some r.id ∧ o.digest r.id = some r.digest) ∧
    found.Pairwise fun a b => a.place < b.place := by
  intro plan found
  have hformed : ∀ o ∈ others, o.Formed := fun o ho => (hothers o ho).toFormed
  exact ⟨fun id => resolution_eq_present_iff ht.toFormed hformed, fun id k => resolution_eq_copied_iff ht.toFormed hformed,
    resolution_eq_unresolved_iff ht.toFormed hformed, fun d => disagreement?_eq_some_iff, fun r => mem_rivals_iff,
    pairwise_rivals t others name⟩

/-- an owner is defined in the second of two other trees alone, and the pair in the tree itself and in both -/
theorem lookup_agrees_owner :
    (∃ r, (pair.rivals [pair, chain] "Owner").head? = some r ∧ r.origin = some 1 ∧
      (pair.planAdoption [pair, chain] "Owner").1.StartsWith pair [pair, chain] r 4) ∧
    (∃ r, (pair.rivals [pair, chain] "Pair").head? = some r ∧ r.origin = none ∧ r.id = 1) ∧
    pair.rivals [pair, chain] "Inner" = [] ∧
    (∀ r ∈ pair.rivals [pair, chain] "Pair", ∃ o, [pair, pair, chain][r.place]? = some o ∧
      o.rootNamed? "Pair" = some r.id) := by
  have hothers : ∀ o ∈ [pair, chain], o.WellFormed := by
    intro o ho
    simp only [List.mem_cons, List.not_mem_nil, or_false] at ho
    rcases ho with rfl | rfl
    exacts [wellFormed_ofNodes ofNodes_pair, wellFormed_ofNodes ofNodes_chain]
  have h := lookup_agrees (wellFormed_ofNodes ofNodes_pair) hothers
  refine ⟨((h "Owner").2.1 4 1).1 (by decide), ((h "Pair").1 1).1 (by decide), ((h "Inner").2.2.1).1 (by decide),
    fun r hr => ?_⟩
  obtain ⟨o, ho, hroot, -⟩ := ((h "Pair").2.2.2.2.1 r).1 hr
  exact ⟨o, ho, hroot⟩

end Tree

end ByteAtlas
