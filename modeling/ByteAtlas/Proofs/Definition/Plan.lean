/-
What a plan to bring a name along consists of: copies of definitions of other trees, linked with each other and with the
tree by their names (`Tree.copies_of_planAdoption`).

Looking a name up and bringing its definition along is told as one step from draft to draft (`Adoption.Resolves`). While
the references that leave a definition are followed, nodes are appended behind it, and its own nodes are completed one
reference after the other (`Adoption.Following`). `Adoption.resolves` is the induction over the nesting of definitions;
what gets smaller is the number of nodes of the other trees whose names are not being brought along yet, so that the
nesting never reaches its bound.
-/
import ByteAtlas.Proofs.Definition.Drafts

namespace ByteAtlas

namespace Adoption

variable {t src : Tree} {others : List Tree} {d d' : Draft} {name : String} {root : NodeId}

/-! ## One name -/

/-- what a reference by name is in a draft once it was looked up -/
def Settled (t : Tree) (others : List Tree) (d : Draft) (name : String) (ref : NodeId) : Prop :=
  (Defined t others name ∧ RootAt (t.nodes ++ d.nodes) name ref) ∨
    (¬ Defined t others name ∧ name ∈ d.missing ∧ ref = 0)

theorem Settled.grown {ref : NodeId} (h : Settled t others d name ref) (hg : Draft.Grown t d d') :
    Settled t others d' name ref := by
  rcases h with ⟨hname, hroot⟩ | ⟨hname, hmissing, h0⟩
  · exact Or.inl ⟨hname, hg.roots name ref hroot⟩
  · exact Or.inr ⟨hname, hg.missing hmissing, h0⟩

/-- what looking a name up comes to: copies of definitions are appended, and the answer is right -/
structure Resolves (t : Tree) (others : List Tree) (d : Draft) (name : String) (o : Resolution × Draft) : Prop where
  sane : Draft.Sane t others o.2
  grown : Draft.Grown t d o.2
  copies : ∃ copies : List Copy, o.2.nodes = d.nodes ++ copies.flatMap Copy.nodes ∧
    ∀ c ∈ copies, c.Drawn others (Settled t others o.2)
  found : ∀ id, o.1.id? = some id → Defined t others name ∧ RootAt (t.nodes ++ o.2.nodes) name id
  lost : o.1.id? = none → ¬ Defined t others name

/-- a name that is found without copying anything -/
theorem Resolves.idle (h : Draft.Sane t others d) {r : Resolution}
    (found : ∀ id, r.id? = some id → Defined t others name ∧ RootAt (t.nodes ++ d.nodes) name id)
    (lost : r.id? = none → ¬ Defined t others name) : Resolves t others d name (r, d) :=
  ⟨h, .refl t d, ⟨[], by simp, by simp⟩, found, lost⟩

/-! ## Following what leaves a definition -/

theorem modify_append_middle {α : Type} (pre xs post : List α) {k : Nat} (hk : k < xs.length) (f : α → α) :
    (pre ++ (xs ++ post)).modify (pre.length + k) f = pre ++ (xs.modify k f ++ post) := by
  apply List.ext_getElem?
  intro i
  rw [List.getElem?_modify]
  rcases Nat.lt_or_ge i pre.length with hi | hi
  · rw [List.getElem?_append_left hi, List.getElem?_append_left hi]
    have hne : pre.length + k ≠ i := by omega
    simp [hne]
  · rw [List.getElem?_append_right hi, List.getElem?_append_right hi]
    rcases Nat.lt_or_ge (i - pre.length) xs.length with hx | hx
    · rw [List.getElem?_append_left hx, List.getElem?_append_left (by rwa [List.length_modify]), List.getElem?_modify]
      have hiff : pre.length + k = i ↔ k = i - pre.length := by omega
      simp [hiff]
    · rw [List.getElem?_append_right hx, List.getElem?_append_right (by rwa [List.length_modify]), List.length_modify]
      have hne : pre.length + k ≠ i := by omega
      simp [hne]

/-- a node beside its copy, with the copy pointing at an id -/
def pointed (id : NodeId) (p : Node × Node) : Node × Node := (p.1, { p.2 with ref := id })

theorem map_snd_modify_pointed (pairs : List (Node × Node)) (k : Nat) (id : NodeId) :
    (pairs.modify k (pointed id)).map Prod.snd = (pairs.map Prod.snd).modify k fun n => { n with ref := id } := by
  apply List.ext_getElem?
  intro i
  rw [List.getElem?_map, List.getElem?_modify, List.getElem?_modify, List.getElem?_map]
  cases pairs[i]? with
  | none => simp
  | some p => by_cases e : k = i <;> simp [e, pointed]

theorem map_fst_modify_pointed (pairs : List (Node × Node)) (k : Nat) (id : NodeId) :
    (pairs.modify k (pointed id)).map Prod.fst = pairs.map Prod.fst := by
  apply List.ext_getElem?
  intro i
  rw [List.getElem?_map, List.getElem?_modify, List.getElem?_map]
  cases pairs[i]? with
  | none => simp
  | some p => by_cases e : k = i <;> simp [e, pointed]

theorem Fits.pointed {ids : List (NodeId × NodeId)} {k : Nat} {p : Node × Node} {linked linked' : String → NodeId → Prop}
    (h : Fits src ids k p linked) (hout : outward src ids p.1 = some name) {id : NodeId} (hl : linked' name id) :
    Fits src ids k (pointed id p) linked' where
  cast := by
    change { p.2 with ref := id } = { recast ids (k == 0) p.1 with ref := id }
    rw [h.cast]
  ref := by
    rw [Adoption.pointed, hout]
    exact hl

/-- a definition that is copied into a draft, with some of the references that leave it still to be followed -/
structure Following (t : Tree) (others : List Tree) (d : Draft) (src : Tree) (root : NodeId)
    (todo : List (Nat × String)) (d' : Draft) : Prop where
  sane : Draft.Sane t others d'
  parts : ∃ (pairs : List (Node × Node)) (copies : List Copy),
    d'.nodes = d.nodes ++ (pairs.map Prod.snd ++ copies.flatMap Copy.nodes) ∧
    pairs.map Prod.fst = src.definition root ∧
    (∀ k p, pairs[k]? = some p → Fits src (newIds d src root).1 k p fun name ref =>
      (ref = 0 ∧ (d.nodes.length + k, name) ∈ todo) ∨ Settled t others d' name ref) ∧
    ∀ c ∈ copies, c.Drawn others (Settled t others d')

theorem mem_leaving_iff {l : Nat × String} : l ∈ leaving d src root ↔
    ∃ k n, (src.definition root)[k]? = some n ∧ l.1 = d.nodes.length + k ∧
      outward src (newIds d src root).1 n = some l.2 := by
  rw [leaving, copyOf, List.mem_filterMap]
  constructor
  · intro h
    obtain ⟨x, hx, hl⟩ := h
    obtain ⟨name, hname, rfl⟩ := Option.map_eq_some_iff.1 hl
    exact ⟨x.2, x.1, List.mem_zipIdx_iff_getElem?.1 hx, rfl, hname⟩
  · intro h
    obtain ⟨k, n, hn, hk, hname⟩ := h
    refine ⟨(n, k), List.mem_zipIdx_iff_getElem?.2 hn, Option.map_eq_some_iff.2 ⟨l.2, hname, ?_⟩⟩
    rw [← hk]

/-- a reference that leaves a definition is cleared at first -/
theorem ref_recast_of_outward {ids : List (NodeId × NodeId)} {n : Node} (h : outward src ids n = some name)
    (isFirst : Bool) : (recast ids isFirst n).ref = 0 := by
  unfold outward at h
  split at h
  · simp at h
  · next hno =>
    rw [not_or, Option.not_isSome_iff_eq_none] at hno
    rw [recast]
    simp [hno.2]

/-- right after a definition is copied, everything that leaves it is still to be followed -/
theorem following_opened (hd : Draft.Sane t others d) (h : src.Formed) (hsrc : src ∈ others)
    (hroot : src.rootNamed? name = some root) :
    Following t others d src root (leaving d src root) (d.opened name src root) := by
  refine ⟨hd.opened h hsrc hroot,
    (src.definition root).zipIdx.map (fun x => (x.1, recast (newIds d src root).1 (x.2 == 0) x.1)), [], ?_, ?_, ?_, ?_⟩
  · rw [Draft.opened, copyOf, List.map_map, List.flatMap_nil, List.append_nil]
    rfl
  · rw [List.map_map]
    exact List.zipIdx_map_fst 0 _
  · intro k p hp
    rw [List.getElem?_map, List.getElem?_zipIdx, Option.map_map] at hp
    obtain ⟨n, hn, rfl⟩ := Option.map_eq_some_iff.1 hp
    simp only [Function.comp_apply, Nat.zero_add]
    refine ⟨rfl, ?_⟩
    cases hout : outward src (newIds d src root).1 n with
    | none => rfl
    | some name => exact Or.inl ⟨ref_recast_of_outward hout _, mem_leaving_iff.2 ⟨k, n, hn, rfl, hout⟩⟩
  · simp

/-- looking a name up appends copies behind -/
theorem Following.resolved {todo : List (Nat × String)} (h : Following t others d src root todo d')
    {o : Resolution × Draft} (hr : Resolves t others d' name o) : Following t others d src root todo o.2 := by
  obtain ⟨-, pairs, copies, hnodes, hfst, hfits, hcopies⟩ := h
  obtain ⟨hsane, hgrown, ⟨more, hmore, hcopies'⟩, -, -⟩ := hr
  refine ⟨hsane, pairs, copies ++ more, ?_, hfst, ?_, ?_⟩
  · rw [hmore, hnodes, List.flatMap_append, List.append_assoc, List.append_assoc]
  · exact fun k p hp => (hfits k p hp).mono fun x _ hx => hx.imp_right fun hx => hx.grown hgrown
  · intro c hc
    rcases List.mem_append.1 hc with hc | hc
    · exact (hcopies c hc).imp fun x ref hx => hx.grown hgrown
    · exact hcopies' c hc

section Place

variable {l : Nat × String} {todo : List (Nat × String)} {k : Nat} {n : Node} {id : NodeId}

/-- once the first reference was followed, one at another place is still to be followed, or settled as before -/
theorem tail_or_settled (hg : Draft.Grown t d d') {place : Nat} (hne : place ≠ l.1) {ref : NodeId}
    (h : (ref = 0 ∧ (place, name) ∈ l :: todo) ∨ Settled t others d name ref) :
    (ref = 0 ∧ (place, name) ∈ todo) ∨ Settled t others d' name ref := by
  rcases h with ⟨h0, hin⟩ | hsettled
  · rcases List.mem_cons.1 hin with e | hin
    · exact absurd (congrArg Prod.fst e) hne
    · exact Or.inl ⟨h0, hin⟩
  · exact Or.inr (hsettled.grown hg)

/-- the pair at the place of a node has this node as its original -/
theorem fst_of_getElem? {pairs : List (Node × Node)} {p : Node × Node} (hfst : pairs.map Prod.fst = src.definition root)
    (hn : (src.definition root)[k]? = some n) (hp : pairs[k]? = some p) : p.1 = n := by
  rw [← hfst, List.getElem?_map, hp] at hn
  exact Option.some.inj hn

/-- the first reference is pointed at what was found for it -/
theorem Following.link (h : Following t others d src root (l :: todo) d') (hl : l ∈ leaving d src root)
    (hdefined : Defined t others l.2) (hroot : RootAt (t.nodes ++ d'.nodes) l.2 id) :
    Following t others d src root todo (d'.link l.1 id) := by
  obtain ⟨hsane, pairs, copies, hnodes, hfst, hfits, hcopies⟩ := h
  obtain ⟨k, n, hn, hplace, hout⟩ := mem_leaving_iff.1 hl
  have hgrown := Draft.grown_link t d' l.1 id
  refine ⟨hsane.link l.1 id, pairs.modify k (pointed id), copies, ?_, ?_, ?_, ?_⟩
  · have hk : k < (pairs.map Prod.snd).length := by
      have hlen := (List.getElem?_eq_some_iff.1 hn).1
      rwa [← hfst, List.length_map, ← List.length_map (f := Prod.snd)] at hlen
    change d'.nodes.modify l.1 (fun m => { m with ref := id }) = _
    rw [hplace, hnodes, modify_append_middle _ _ _ hk, map_snd_modify_pointed]
  · rw [map_fst_modify_pointed, hfst]
  · intro j p hp
    rw [List.getElem?_modify] at hp
    obtain ⟨q, hq, rfl⟩ := Option.map_eq_some_iff.1 hp
    split
    · next e =>
      subst e
      refine (hfits k q hq).pointed (by rw [fst_of_getElem? hfst hn hq, hout]) ?_
      exact Or.inr (Or.inl ⟨hdefined, hgrown.roots _ _ hroot⟩)
    · next hne => exact (hfits j q hq).mono fun x _ hx => tail_or_settled hgrown (by omega) hx
  · exact fun c hc => (hcopies c hc).imp fun x ref hx => hx.grown hgrown

/-- nothing was found for the first reference, and its name is noted as missing -/
theorem Following.miss (h : Following t others d src root (l :: todo) d') (hl : l ∈ leaving d src root)
    (hlost : ¬ Defined t others l.2) : Following t others d src root todo (d'.miss l.2) := by
  obtain ⟨hsane, pairs, copies, hnodes, hfst, hfits, hcopies⟩ := h
  obtain ⟨k, n, hn, hplace, hout⟩ := mem_leaving_iff.1 hl
  have hgrown := Draft.grown_miss t d' l.2
  refine ⟨hsane.miss hlost, pairs, copies, ?_, hfst, fun j p hp => ?_, ?_⟩
  · rw [Draft.nodes_miss, hnodes]
  · refine (hfits j p hp).mono ?_
    intro x hx hlinked
    by_cases e : j = k
    · subst e
      rw [fst_of_getElem? hfst hn hp, hout] at hx
      obtain rfl := Option.some.inj hx
      have h0 : p.2.ref = 0 := by
        rcases hlinked with ⟨h0, -⟩ | ⟨hdefined, -⟩ | ⟨-, -, h0⟩
        · exact h0
        · exact absurd hdefined hlost
        · exact h0
      exact Or.inr (Or.inr ⟨hlost, d'.mem_missing_miss l.2, h0⟩)
    · exact tail_or_settled hgrown (by omega) hlinked
  · exact fun c hc => (hcopies c hc).imp fun x ref hx => hx.grown hgrown

/-- one reference is followed: what is found for it is appended behind, and it is settled -/
theorem Following.follow (h : Following t others d src root (l :: todo) d') (hl : l ∈ leaving d src root) {depth : Nat}
    (hr : Resolves t others d' l.2 (resolve others depth d' l.2)) :
    Following t others d src root todo (follow others depth d' l) ∧ Draft.Grown t d' (follow others depth d' l) := by
  have h' := h.resolved hr
  unfold Adoption.follow
  cases hid : (resolve others depth d' l.2).1.id? with
  | some id =>
    obtain ⟨hdefined, hroot⟩ := hr.found id hid
    exact ⟨h'.link hl hdefined hroot, hr.grown.trans (Draft.grown_link t _ l.1 id)⟩
  | none => exact ⟨h'.miss hl (hr.lost hid), hr.grown.trans (Draft.grown_miss t _ l.2)⟩

end Place

/-! ## Definitions within definitions -/

/-- all references that leave a definition are followed, one after the other -/
theorem Following.foldl {todo : List (Nat × String)} (h : Following t others d src root todo d')
    (htodo : todo ⊆ leaving d src root) {depth : Nat} (hdepth : unplanned others d' < depth)
    (ih : ∀ d' : Draft, Draft.Sane t others d' → unplanned others d' < depth →
      ∀ name, Resolves t others d' name (resolve others depth d' name)) :
    Following t others d src root [] (todo.foldl (Adoption.follow others depth) d') ∧
      Draft.Grown t d' (todo.foldl (Adoption.follow others depth) d') := by
  induction todo generalizing d' with
  | nil => exact ⟨h, .refl t d'⟩
  | cons l rest ihr =>
    rw [List.cons_subset] at htodo
    obtain ⟨hfollow, hgrown⟩ := h.follow htodo.1 (ih d' h.sane hdepth l.2)
    have hdepth' := Nat.lt_of_le_of_lt (unplanned_le others hgrown.planned) hdepth
    obtain ⟨hrest, hgrown'⟩ := ihr hfollow htodo.2 hdepth'
    exact ⟨hrest, hgrown.trans hgrown'⟩

/-- a definition from which everything was followed is copied -/
theorem Following.exists_copies (h : Following t others d src root [] d') (hsrc : src.Formed) (hmem : src ∈ others)
    (hroot : src.rootNamed? name = some root) : ∃ copies : List Copy,
      d'.nodes = d.nodes ++ copies.flatMap Copy.nodes ∧ ∀ c ∈ copies, c.Drawn others (Settled t others d') := by
  obtain ⟨-, pairs, copies, hnodes, hfst, hfits, hcopies⟩ := h
  obtain ⟨r, hr, rfl, hisRoot, hstruct, -⟩ := Tree.rootAt_of_rootNamed? hroot
  refine ⟨⟨src, r.id, pairs⟩ :: copies, hnodes, List.forall_mem_cons.2 ⟨?_, hcopies⟩⟩
  have hcasts : Casts src r (newIds d src r.id).1 pairs (Settled t others d') := by
    refine ⟨hsrc, hr, map_fst_newIds d src r.id, hfst, fun k p hp => (hfits k p hp).mono fun x _ hx => ?_⟩
    exact hx.resolve_left fun hno => by simp at hno
  exact ⟨hcasts.holds hmem hisRoot hstruct, name, hroot⟩

/-- **Names are resolved.** By induction over the nesting, which is shorter than the number of nodes whose names are not
being brought along yet. -/
theorem resolves (hothers : ∀ o ∈ others, o.Formed) {depth : Nat} (hd : Draft.Sane t others d)
    (hdepth : unplanned others d < depth) (name : String) :
    Resolves t others d name (resolve others depth d name) := by
  induction depth generalizing d name with
  | zero => omega
  | succ depth ih =>
    have hlocal' := hd.spent.rootNamed? name
    cases hlocal : d.tree.rootNamed? name with
    | some id =>
      rw [resolve, hlocal]
      rw [hlocal] at hlocal'
      refine .idle hd (fun id' hid => ?_) fun hno => by simp [Resolution.id?] at hno
      obtain rfl := Option.some.inj hid
      exact ⟨Or.inl (by rw [← hlocal']; rfl),
        (Tree.rootAt_of_rootNamed? hlocal'.symm).mono (List.subset_append_left _ _)⟩
    | none =>
      cases hplanned : d.planned.lookup name with
      | some id =>
        rw [resolve, hlocal, hplanned]
        obtain ⟨l₁, l₂, he, -⟩ := List.lookup_eq_some_iff.1 hplanned
        refine .idle hd (fun id' hid => ?_) fun hno => by simp [Resolution.id?] at hno
        obtain rfl := Option.some.inj hid
        exact hd.planned (name, id) (by rw [he]; simp)
      | none =>
        cases hfind : firstDefining name 0 others with
        | none =>
          rw [resolve, hlocal, hplanned, hfind]
          refine .idle hd (fun id' hid => by simp [Resolution.id?] at hid) ?_
          intro _ hdefined
          rcases hdefined with hyes | ⟨o, ho, hyes⟩
          · simp [← hlocal', hlocal] at hyes
          · simp [firstDefining_none hfind o ho] at hyes
        | some found =>
          obtain ⟨origin, src, root⟩ := found
          obtain ⟨hsrc, hroot⟩ := firstDefining_some hfind
          have hformed := hothers src hsrc
          have hlt : unplanned others (d.opened name src root) < unplanned others d :=
            unplanned_opened_lt hplanned hsrc hroot
          obtain ⟨hfollowing, hgrown⟩ := (following_opened hd hformed hsrc hroot).foldl (List.Subset.refl _)
            (by omega) fun d' hd' hdepth' name => ih hd' hdepth' name
          rw [resolve_copied hlocal hplanned hfind]
          have hplanned' := (hd.opened hformed hsrc hroot).planned
            (name, ((newIds d src root).1.lookup root).getD 0) List.mem_cons_self
          refine ⟨hfollowing.sane, (grown_opened t d name src root).trans hgrown,
            hfollowing.exists_copies hformed hsrc hroot, fun id hid => ?_, fun hno => by simp [Resolution.id?] at hno⟩
          obtain rfl := Option.some.inj hid
          exact ⟨hplanned'.1, hgrown.roots _ _ hplanned'.2⟩

end Adoption

/-! ## Plans -/

/-- what a name that leads out of a planned definition comes to: nothing if it is told as unresolved, or else a root struct
of that name, in the tree or among the new nodes -/
def Adoption.Linked (t : Tree) (plan : Adoption) (name : String) (ref : NodeId) : Prop :=
  if name ∈ plan.unresolved then ref = 0 else RootAt (t.nodes ++ plan.nodes) name ref

namespace Tree

/-- the draft that a plan is made of -/
theorem resolves_planAdoption (t : Tree) {others : List Tree} (hothers : ∀ o ∈ others, o.Formed) (name : String) :
    Adoption.Resolves t others ⟨t, [], [], []⟩ name
      (Adoption.resolve others ((others.flatMap (·.nodes)).length + 2) ⟨t, [], [], []⟩ name) := by
  have hsane : Adoption.Draft.Sane t others ⟨t, [], [], []⟩ := ⟨.refl t, by simp, by simp, fun _ => ⟨rfl, rfl⟩⟩
  refine Adoption.resolves hothers hsane ?_ name
  have hle := List.length_filter_le (fun n : Node => !([] : List String).contains n.typeName) (others.flatMap (·.nodes))
  exact Nat.lt_of_le_of_lt hle (by omega)

/-- **A plan consists of copies of definitions of other trees.** Unless the ids run out, the new nodes have new ids, each
its own. They are copies of definitions, each whole and alone; what leads from one into another, or into the tree, follows
the names. Of the tree only ids are spent. -/
theorem copies_of_planAdoption {t : Tree} (ht : t.WellFormed) {others : List Tree} (hothers : ∀ o ∈ others, o.WellFormed)
    (name : String) (hroom : (t.planAdoption others name).2.nextId.toNat < Word.top) :
    (∀ n ∈ (t.planAdoption others name).1.nodes, n.id ≠ 0 ∧ t.nextId ≤ n.id ∧ t.contains n.id = false) ∧
    ((t.planAdoption others name).1.nodes.map (·.id)).Nodup ∧
    (∃ copies : List Adoption.Copy, (t.planAdoption others name).1.nodes = copies.flatMap Adoption.Copy.nodes ∧
      ∀ c ∈ copies, c.Holds others (Adoption.Linked t (t.planAdoption others name).1)) ∧
    (t.planAdoption others name).2 = { t with nextId := (t.planAdoption others name).2.nextId } := by
  obtain ⟨hsane, -, ⟨copies, hnodes, hcopies⟩, -, -⟩ := t.resolves_planAdoption (fun o ho => (hothers o ho).toFormed) name
  obtain ⟨-, hids⟩ := hsane.numbered hroom
  have hnext : ∀ n ∈ (t.planAdoption others name).1.nodes, t.nextId ≤ n.id := by
    intro n hn
    have hmem : n.id.toNat ∈ (t.planAdoption others name).1.nodes.map fun n => n.id.toNat := List.mem_map_of_mem hn
    rw [show (t.planAdoption others name).1.nodes.map (fun n => n.id.toNat) = _ from hids, List.mem_range'_1] at hmem
    exact UInt64.le_iff_toNat_le.2 hmem.1
  refine ⟨fun n hn => ⟨?_, hnext n hn, ?_⟩, ?_, ⟨copies, hnodes, fun c hc => ?_⟩, hsane.spent.same⟩
  · exact (UInt64.ne_of_lt (UInt64.lt_of_lt_of_le ht.positive (hnext n hn))).symm
  · rw [contains_eq_false_iff ht.indexed]
    exact fun m hm => UInt64.ne_of_lt (UInt64.lt_of_lt_of_le (ht.below m hm) (hnext n hn))
  · have hnodup : ((t.planAdoption others name).1.nodes.map fun n => n.id.toNat).Nodup := by
      rw [show (t.planAdoption others name).1.nodes.map (fun n => n.id.toNat) = _ from hids]
      exact List.nodup_range'
    rw [← Function.comp_def UInt64.toNat, ← List.map_map] at hnodup
    exact hnodup.of_map _
  · refine (hcopies c hc).mono ?_
    intro x ref hx
    rcases hx with ⟨hdefined, hroot⟩ | ⟨-, hmissing, h0⟩
    · exact (if_neg fun hin => hsane.missing x hin hdefined).mpr hroot
    · exact (if_pos hmissing).mpr h0

/-- lists of pairs: a definition that refers to itself, to another one, to one that the small tree has, to a struct that
is no root, and to nothing -/
def chainNodes : List Node :=
  [{ Node.rootStruct "list" "List" with id := 1 }, { Node.field 1 0 .pointer64 "next" with id := 2, ref := 1 },
    { Node.field 1 8 .pointer64 "owner" with id := 3, ref := 6 }, { Node.field 1 16 .pointer64 "lost" with id := 4, ref := 99 },
    { Node.field 1 24 .pointer64 "part" with id := 5, ref := 8 }, { Node.rootStruct "owner" "Owner" with id := 6 },
    { Node.field 6 0 .pointer64 "pair" with id := 7, ref := 9 },
    { Node.field 6 8 .struct "inner" with id := 8, structName := "Inner" }, { Node.rootStruct "pair" "Pair" with id := 9 }]

def chain : Tree := chainNodes.foldl push (empty 0)

theorem ofNodes_chain : ofNodes 0 chainNodes 1 = .ok chain := rfl

theorem copies_of_planAdoption_chain :
    (pair.planAdoption [chain] "List").1.unresolved = ["Inner"] ∧
    (pair.planAdoption [chain] "List").1.nodes.length = 8 ∧
    ∃ copies : List Adoption.Copy, (pair.planAdoption [chain] "List").1.nodes = copies.flatMap Adoption.Copy.nodes ∧
      ∀ c ∈ copies, c.Holds [chain] (Adoption.Linked pair (pair.planAdoption [chain] "List").1) := by
  refine ⟨by decide, by decide, ?_⟩
  have hothers : ∀ o ∈ [chain], o.WellFormed := by
    intro o ho
    rw [List.mem_singleton.1 ho]
    exact wellFormed_ofNodes ofNodes_chain
  exact (copies_of_planAdoption (wellFormed_ofNodes ofNodes_pair) hothers "List" (by decide)).2.2.1

end Tree

end ByteAtlas
