/-
Names that are brought along, and the root structs that they come to.

Every name is planned at most once, none of them is one that the tree has, and the root structs among the new nodes are
those of the planned names, each with its own (`Draft.Tidy`). The new nodes also stand parents first. `resolve_induction`
is what makes this a matter of single steps: a draft changes by opening a definition, pointing a node at something, or
noting a missing name.

- `Tree.extends_adoptNow`: bringing a name along adds at most one root struct of each name, and none of a name that is
  there.
- `Tree.insert_planAdoption`: unless the ids run out, planned nodes can be inserted.
-/
import ByteAtlas.Proofs.Definition.Plan
import ByteAtlas.Proofs.Tree.Outline

namespace ByteAtlas

/-! ## Parents first -/

/-- every node that is held is held by one that stands before it -/
def ParentsFirst (ns : List Node) : Prop := ∀ (k : Nat) (n : Node), ns[k]? = some n → CanHold (ns.take k) n.parent

theorem ParentsFirst.append {ns ms : List Node} (hn : ParentsFirst ns) (hm : ParentsFirst ms) :
    ParentsFirst (ns ++ ms) := by
  intro k n hk
  rw [List.take_append]
  rcases Nat.lt_or_ge k ns.length with hlt | hge
  · rw [List.getElem?_append_left hlt] at hk
    exact (hn k n hk).mono (List.subset_append_left _ _)
  · rw [List.getElem?_append_right hge] at hk
    exact (hm _ n hk).mono (List.subset_append_right _ _)

/-- the check passes a node with an id of its own that is held by one that is there or stands before it, or by none -/
theorem Tree.checkInsert_step {t : Tree} (h : t.Indexed) {ns before rest : List Node} {n : Node}
    (hd : (ns.map (·.id)).Nodup) (hsub : before ⊆ ns) (h0 : n.id ≠ 0)
    (hbefore : ∀ b ∈ before, b.id ≠ 0 ∧ t.contains b.id = false) (hnew : t.contains n.id = false)
    (hother : ∀ b ∈ before, b.id ≠ n.id) (hheld : CanHold (t.nodes ++ before) n.parent) :
    t.checkInsert ns before (n :: rest) = t.checkInsert ns (before ++ [n]) rest := by
  have hdup : (t.contains n.id || before.any fun b => b.id == n.id) = false := by
    rw [Bool.or_eq_false_iff, List.any_eq_false]
    exact ⟨hnew, fun b hb e => hother b hb (beq_iff_eq.1 e)⟩
  rw [Tree.checkInsert, if_neg h0, hdup]
  simp only [Bool.false_eq_true, if_false]
  by_cases hyes : before.any fun b => b.id == n.parent
  · obtain ⟨b, hb, hbid⟩ := List.any_eq_true.1 hyes
    have hbid := beq_iff_eq.1 hbid
    -- what holds the node is this one, since no node that is there has its id
    have hbk : b.kind.canHold := by
      rcases hheld with hz | ⟨p, hp, hpid, hpk⟩
      · exact absurd (hbid.trans hz) (hbefore b hb).1
      · rcases List.mem_append.1 hp with hp | hp
        · exact absurd (hpid.trans hbid.symm) ((Tree.contains_eq_false_iff h).1 (hbefore b hb).2 p hp)
        · rwa [List.inj_on_of_nodup_map hd (hsub hb) (hsub hp) (hbid.trans hpid.symm)]
    have hcan : ((ns.find? fun b => b.id == n.parent).any fun p => !p.kind.canHold) = false := by
      rw [← Bool.not_eq_true, Option.any_eq_true]
      rintro ⟨q, hq, hqk⟩
      have hqid : q.id = n.parent := by simpa using List.find?_some hq
      have hsame := List.inj_on_of_nodup_map hd (List.mem_of_find?_eq_some hq) (hsub hb) (hqid.trans hbid.symm)
      rw [hsame, hbk] at hqk
      simp at hqk
    simp only [hyes, hcan, if_true, Bool.false_eq_true, if_false]
  · have hthere : t.checkHolder n.parent = .ok () := by
      refine (Tree.checkHolder_eq_ok_iff h).2 (hheld.imp_right ?_)
      rintro ⟨p, hp, hpid, hpk⟩
      refine ⟨p, (List.mem_append.1 hp).resolve_right fun hin => hyes ?_, hpid, hpk⟩
      exact List.any_eq_true.2 ⟨p, hin, beq_iff_eq.2 hpid⟩
    simp only [hyes, hthere, Bool.false_eq_true, if_false]

/-- nodes can be checked one after the other if each is held by one that is there or stands before it -/
theorem Tree.checkInsert_eq_ok {t : Tree} (h : t.Indexed) (before : List Node) {rest : List Node}
    (hp : ∀ k n, (before ++ rest)[k]? = some n → CanHold (t.nodes ++ (before ++ rest).take k) n.parent)
    (h0 : ∀ n ∈ before ++ rest, n.id ≠ 0) (hnew : ∀ n ∈ before ++ rest, t.contains n.id = false)
    (hd : ((before ++ rest).map (·.id)).Nodup) : t.checkInsert (before ++ rest) before rest = .ok () := by
  induction rest generalizing before with
  | nil => rfl
  | cons n rest ih =>
    have hmem : n ∈ before ++ n :: rest := List.mem_append_right _ List.mem_cons_self
    have hother : ∀ b ∈ before, b.id ≠ n.id := by
      intro b hb
      rw [List.map_append, List.nodup_append] at hd
      exact hd.2.2 _ (List.mem_map_of_mem hb) _ (by simp)
    have hheld := hp before.length n (by simp)
    rw [List.take_left] at hheld
    have hbefore : ∀ b ∈ before, b.id ≠ 0 ∧ t.contains b.id = false := fun b hb =>
      ⟨h0 b (List.mem_append_left _ hb), hnew b (List.mem_append_left _ hb)⟩
    rw [Tree.checkInsert_step h hd (List.subset_append_left _ _) (h0 n hmem) hbefore (hnew n hmem) hother hheld]
    have hsplit : before ++ n :: rest = (before ++ [n]) ++ rest := by simp
    rw [hsplit] at hp h0 hnew hd ⊢
    exact ih (before ++ [n]) hp h0 hnew hd

/-- **When nodes are inserted.** Each needs an id of its own, and a holder that is there or stands before it. -/
theorem Tree.insert_of_held {t : Tree} (h : t.Indexed) {ns : List Node}
    (hp : ∀ k n, ns[k]? = some n → CanHold (t.nodes ++ ns.take k) n.parent) (h0 : ∀ n ∈ ns, n.id ≠ 0)
    (hnew : ∀ n ∈ ns, ∀ m ∈ t.nodes, m.id ≠ n.id) (hd : (ns.map (·.id)).Nodup) :
    t.insert ns = .ok (ns.foldl Tree.push t) := by
  have hnew' : ∀ n ∈ ns, t.contains n.id = false := fun n hn => (Tree.contains_eq_false_iff h).2 (hnew n hn)
  exact Tree.insert_eq_ok_iff.2 ⟨Tree.checkInsert_eq_ok h [] hp h0 hnew' hd, rfl⟩

namespace Adoption

variable {t src : Tree} {others : List Tree} {d : Draft} {name : String} {root : NodeId}

/-- **A draft changes in three ways.** What all of them keep is kept by looking names up. Only names are looked up that are
asked for, or that one of them leads to. -/
theorem resolve_induction {P : Draft → Prop} {Q : String → Prop} {others : List Tree}
    (hleaving : ∀ d name origin src root, Q name → firstDefining name 0 others = some (origin, src, root) →
      ∀ l ∈ leaving d src root, Q l.2)
    (hopened : ∀ d name origin src root, Q name → P d → d.tree.rootNamed? name = none → d.planned.lookup name = none →
      firstDefining name 0 others = some (origin, src, root) → P (d.opened name src root))
    (hlink : ∀ d place id, P d → P (d.link place id)) (hmiss : ∀ d name, P d → P (d.miss name)) (depth : Nat)
    {d : Draft} (hd : P d) {name : String} (hname : Q name) : P (resolve others depth d name).2 := by
  induction depth generalizing d name with
  | zero => exact hd
  | succ depth ih =>
    cases hlocal : d.tree.rootNamed? name with
    | some id =>
      rw [resolve, hlocal]
      exact hd
    | none =>
      cases hplanned : d.planned.lookup name with
      | some id =>
        rw [resolve, hlocal, hplanned]
        exact hd
      | none =>
        cases hfind : firstDefining name 0 others with
        | none =>
          rw [resolve, hlocal, hplanned, hfind]
          exact hd
        | some found =>
          obtain ⟨origin, src, root⟩ := found
          rw [resolve_copied hlocal hplanned hfind]
          have hfold : ∀ (todo : List (Nat × String)) (d : Draft), (∀ l ∈ todo, Q l.2) → P d →
              P (todo.foldl (follow others depth) d) := by
            intro todo
            induction todo with
            | nil => exact fun _ _ hd => hd
            | cons l rest ihr =>
              intro d htodo hd
              rw [List.forall_mem_cons] at htodo
              refine ihr _ htodo.2 ?_
              have hl := ih hd htodo.1
              unfold follow
              split
              · exact hlink _ _ _ hl
              · exact hmiss _ _ hl
          exact hfold _ _ (hleaving d name origin src root hname hfind)
            (hopened d name origin src root hname hd hlocal hplanned hfind)

/-! ## New nodes without their references -/

/-- a node but for what it refers to -/
def bare (n : Node) : Node := { n with ref := 0 }

theorem map_bare_link (d : Draft) (place : Nat) (id : NodeId) : (d.link place id).nodes.map bare = d.nodes.map bare := by
  apply List.ext_getElem?
  intro i
  rw [List.getElem?_map, List.getElem?_map, Draft.link, List.getElem?_modify]
  cases d.nodes[i]? with
  | none => simp
  | some m => by_cases e : place = i <;> simp [e, bare]

theorem canHold_map_bare {ns : List Node} {id : NodeId} : CanHold (ns.map bare) id ↔ CanHold ns id := by
  simp [CanHold, bare]

theorem parentsFirst_map_bare {ns : List Node} : ParentsFirst (ns.map bare) ↔ ParentsFirst ns := by
  unfold ParentsFirst
  constructor
  · intro h k n hk
    have hbare := h k (bare n) (by rw [List.getElem?_map, hk, Option.map_some])
    rwa [← List.map_take, canHold_map_bare] at hbare
  · intro h k n hk
    rw [List.getElem?_map] at hk
    obtain ⟨m, hm, rfl⟩ := Option.map_eq_some_iff.1 hk
    rw [← List.map_take, canHold_map_bare]
    exact h k m hm

def heads (ns : List Node) : List (String × NodeId) := (ns.filter (·.isRoot)).map fun n => (n.typeName, n.id)

theorem heads_map_bare (ns : List Node) : heads (ns.map bare) = heads ns := by
  rw [heads, List.filter_map, List.map_map]
  rfl

theorem heads_append (ns ms : List Node) : heads (ns ++ ms) = heads ns ++ heads ms := by
  rw [heads, List.filter_append, List.map_append, heads, heads]

/-! ## Definitions under new ids -/

/-- the copies of a definition, the first apart from those below it -/
theorem copies_cons (src : Tree) (ids : List (NodeId × NodeId)) (start : Nat) (r : Node) (below : List Node) :
    (copyOf src ids start (r :: below)).1 = recast ids true r :: below.map (recast ids false) := by
  have hrest : ∀ k, 0 < k → (below.zipIdx k).map (fun x => recast ids (x.2 == 0) x.1) = below.map (recast ids false) := by
    induction below with
    | nil => exact fun _ _ => rfl
    | cons n rest ih =>
      intro k hk
      have hne : (k == 0) = false := beq_eq_false_iff_ne.2 (Nat.ne_of_gt hk)
      rw [List.zipIdx_cons, List.map_cons, ih (k + 1) (Nat.succ_pos k), List.map_cons, hne]
  rw [copyOf, List.zipIdx_cons, List.map_cons, hrest 1 Nat.zero_lt_one]
  rfl

section Copies

variable {r : Node} (h : src.Formed) (hr : r ∈ src.nodes)

include h hr

/-- the copies stand parents first, as the nodes of the definition do -/
theorem parentsFirst_copies (d : Draft) (start : Nat) :
    ParentsFirst (copyOf src (newIds d src r.id).1 start (src.definition r.id)).1 := by
  intro k m hk
  rw [copyOf, List.getElem?_map, List.getElem?_zipIdx] at hk
  obtain ⟨x, hx, rfl⟩ := Option.map_eq_some_iff.1 hk
  obtain ⟨n, hn, rfl⟩ := Option.map_eq_some_iff.1 hx
  rcases Nat.eq_zero_or_pos k with rfl | hpos
  · exact Or.inl rfl
  · rw [Tree.definition_eq_outline h hr] at hn
    obtain ⟨p, hp, hpid, hpk⟩ := Tree.exists_holder_before h hr hn hpos
    obtain ⟨i, hi⟩ := List.mem_iff_getElem?.1 hp
    rw [List.getElem?_take] at hi
    split at hi
    · next hik =>
      have hcopy : ((copyOf src (newIds d src r.id).1 start (src.definition r.id)).1.take k)[i]? =
          some (recast (newIds d src r.id).1 (i == 0) p) := by
        rw [List.getElem?_take, if_pos hik, copyOf, List.getElem?_map, List.getElem?_zipIdx,
          Tree.definition_eq_outline h hr, hi]
        simp
      have hne : (0 + k == 0) = false := beq_eq_false_iff_ne.2 (by omega)
      refine Or.inr ⟨_, List.mem_of_getElem? hcopy, ?_, hpk⟩
      rw [recast, hpid]
      simp only [recast, hne, Bool.false_eq_true, if_false]
    · simp at hi

/-- the only copy on the outermost level is that of the root -/
theorem filter_isRoot_copies {d : Draft} (hpos : 0 < d.tree.nextId) (start : Nat) :
    (copyOf src (newIds d src r.id).1 start (src.definition r.id)).1.filter (·.isRoot) =
      [recast (newIds d src r.id).1 true r] := by
  obtain ⟨below, hcons⟩ := Tree.definition_eq_cons h hr
  have hbelow : ∀ n ∈ below, (recast (newIds d src r.id).1 false n).isRoot = false := by
    intro n hn
    obtain ⟨k, hk⟩ := List.mem_iff_getElem?.1 hn
    have hk' : (src.outline r)[k + 1]? = some n := by
      rw [← Tree.definition_eq_outline h hr, hcons]
      exact hk
    obtain ⟨p, hp, hpid, -⟩ := Tree.exists_holder_before h hr hk' (Nat.succ_pos k)
    have hp' : p ∈ src.definition r.id := Tree.definition_eq_outline h hr ▸ List.mem_of_mem_take hp
    obtain ⟨fresh, hfresh, hle⟩ := d.tree.exists_lookup_renumber (List.mem_map_of_mem (f := Node.id) hp')
    have hne : fresh ≠ 0 := (UInt64.ne_of_lt (UInt64.lt_of_lt_of_le hpos hle)).symm
    rw [Node.isRoot, recast, ← hpid, newIds, hfresh]
    exact beq_eq_false_iff_ne.2 hne
  have hnone : (below.map (recast (newIds d src r.id).1 false)).filter (·.isRoot) = [] := by
    rw [List.filter_eq_nil_iff]
    intro m hm
    obtain ⟨n, hn, rfl⟩ := List.mem_map.1 hm
    rw [hbelow n hn]
    exact Bool.false_ne_true
  rw [hcons, copies_cons, List.filter_cons_of_pos rfl, hnone]

end Copies

/-! ## Drafts -/

/-- what holds of the names and the new nodes of a draft -/
structure Draft.Tidy (t : Tree) (d : Draft) : Prop where
  spent : t.Spent d.tree
  /-- the new nodes on the outermost level are those of the names that are being brought along -/
  heads : heads d.nodes = d.planned.reverse
  structs : ∀ n ∈ d.nodes, n.isRoot → n.kind = .struct
  /-- no name is brought along twice -/
  distinct : (d.planned.map Prod.fst).Nodup
  /-- no name is brought along that the tree has -/
  absent : ∀ p ∈ d.planned, t.rootNamed? p.1 = none
  ordered : ParentsFirst d.nodes

theorem Draft.Tidy.link (hd : d.Tidy t) (place : Nat) (id : NodeId) : (d.link place id).Tidy t where
  spent := hd.spent
  heads := by
    rw [← heads_map_bare, map_bare_link, heads_map_bare]
    exact hd.heads
  structs := by
    intro n hn hroot
    have hbare : bare n ∈ d.nodes.map bare := map_bare_link d place id ▸ List.mem_map_of_mem hn
    obtain ⟨m, hm, e⟩ := List.mem_map.1 hbare
    have hparent : (bare m).parent = (bare n).parent := congrArg Node.parent e
    have hkind : (bare m).kind = (bare n).kind := congrArg Node.kind e
    have hroot' : m.isRoot := (congrArg (· == 0) hparent).trans hroot
    exact hkind.symm.trans (hd.structs m hm hroot')
  distinct := hd.distinct
  absent := hd.absent
  ordered := by
    rw [← parentsFirst_map_bare, map_bare_link, parentsFirst_map_bare]
    exact hd.ordered

theorem Draft.Tidy.miss (hd : d.Tidy t) (name : String) : (d.miss name).Tidy t := by
  unfold Draft.miss
  split
  · exact hd
  · exact ⟨hd.spent, hd.heads, hd.structs, hd.distinct, hd.absent, hd.ordered⟩

theorem Draft.Tidy.opened (hd : d.Tidy t) (hpos : 0 < t.nextId) (h : src.Formed)
    (hlocal : d.tree.rootNamed? name = none) (hplanned : d.planned.lookup name = none)
    (hroot : src.rootNamed? name = some root) : (d.opened name src root).Tidy t := by
  obtain ⟨r, hr, rfl, -, hkind, hname⟩ := Tree.rootAt_of_rootNamed? hroot
  have hpos' : 0 < d.tree.nextId := UInt64.lt_of_lt_of_le hpos hd.spent.le
  have hfilter := filter_isRoot_copies h hr hpos' d.nodes.length
  refine ⟨hd.spent.trans (d.tree.spent_renumber _), ?_, fun n hn hisRoot => ?_, ?_, ?_, ?_⟩
  · rw [Draft.opened, heads_append, hd.heads, Adoption.heads, hfilter, List.reverse_cons, ← hname]
    rfl
  · rcases List.mem_append.1 hn with hn | hn
    · exact hd.structs n hn hisRoot
    · have hmem := List.mem_filter.2 ⟨hn, hisRoot⟩
      rw [hfilter] at hmem
      rw [List.mem_singleton.1 hmem]
      exact hkind
  · rw [Draft.opened, List.map_cons, List.nodup_cons]
    refine ⟨fun hin => ?_, hd.distinct⟩
    obtain ⟨p, hp, e⟩ := List.mem_map.1 hin
    have hno := List.lookup_eq_none_iff.1 hplanned p hp
    simp [e] at hno
  · refine List.forall_mem_cons.2 ⟨?_, hd.absent⟩
    rw [← hd.spent.rootNamed?]
    exact hlocal
  · exact hd.ordered.append (parentsFirst_copies h hr d d.nodes.length)

/-- looking a name up keeps a draft tidy -/
theorem tidy_resolve (hpos : 0 < t.nextId) (hothers : ∀ o ∈ others, o.Formed) (depth : Nat) (hd : d.Tidy t)
    (name : String) : (resolve others depth d name).2.Tidy t := by
  refine resolve_induction (Q := fun _ => True) (fun _ _ _ _ _ _ _ _ _ => trivial) ?_
    (fun d place id h => h.link place id) (fun d name h => h.miss name) depth hd trivial
  intro d name origin src root _ h hlocal hplanned hfind
  obtain ⟨hsrc, hroot⟩ := firstDefining_some hfind
  exact h.opened hpos (hothers src hsrc) hlocal hplanned hroot

/-! ## Root structs of a name -/

def structsNamed (ns : List Node) (name : String) : List Node :=
  ns.filter fun n => n.isRoot && n.kind == .struct && n.typeName == name

theorem mem_structsNamed {ns : List Node} {n : Node} :
    n ∈ structsNamed ns name ↔ n ∈ ns ∧ n.isRoot ∧ n.kind = .struct ∧ n.typeName = name := by
  rw [structsNamed, List.mem_filter, Bool.and_eq_true, Bool.and_eq_true, beq_iff_eq, beq_iff_eq, and_assoc]

theorem structsNamed_append (ns ms : List Node) (name : String) :
    structsNamed (ns ++ ms) name = structsNamed ns name ++ structsNamed ms name := List.filter_append ..

/-- the root structs of a name that is being brought along, and no others, are new -/
theorem Draft.Tidy.mem_planned (hd : d.Tidy t) {n : Node} (hn : n ∈ structsNamed d.nodes name) :
    (name, n.id) ∈ d.planned := by
  obtain ⟨hmem, hroot, -, hname⟩ := mem_structsNamed.1 hn
  rw [← List.mem_reverse, ← hd.heads, ← hname]
  exact List.mem_map_of_mem (List.mem_filter.2 ⟨hmem, hroot⟩)

/-- none of them has a name that the tree has -/
theorem Draft.Tidy.structsNamed_eq_nil (hd : d.Tidy t) (hname : t.rootNamed? name ≠ none) :
    structsNamed d.nodes name = [] := by
  rw [List.eq_nil_iff_forall_not_mem]
  intro n hn
  exact hname (hd.absent _ (hd.mem_planned hn))

/-- no two of them have the same name -/
theorem Draft.Tidy.length_structsNamed_le (hd : d.Tidy t) (name : String) : (structsNamed d.nodes name).length ≤ 1 := by
  have hnames : (d.nodes.filter (·.isRoot)).map (·.typeName) = (d.planned.map Prod.fst).reverse := by
    rw [← List.map_reverse, ← hd.heads, Adoption.heads, List.map_map]
    rfl
  have hsub : (structsNamed d.nodes name).Sublist (d.nodes.filter (·.isRoot)) :=
    List.monotone_filter_right _ fun n hn => by
      rw [Bool.and_eq_true, Bool.and_eq_true] at hn
      exact hn.1.1
  have hnodup : ((structsNamed d.nodes name).map (·.typeName)).Nodup := by
    refine List.Nodup.sublist (hsub.map _) ?_
    rw [hnames]
    exact List.nodup_reverse.2 hd.distinct
  have hsame : (structsNamed d.nodes name).map (·.typeName) = List.replicate (structsNamed d.nodes name).length name := by
    rw [List.eq_replicate_iff, List.length_map]
    refine ⟨rfl, fun y hy => ?_⟩
    obtain ⟨n, hn, rfl⟩ := List.mem_map.1 hy
    exact (mem_structsNamed.1 hn).2.2.2
  rwa [hsame, List.nodup_replicate] at hnodup

end Adoption

/-! ## Plans -/

namespace Tree

open Adoption (structsNamed)

variable {t u : Tree} {others : List Tree}

def rootsNamed (t : Tree) (name : String) : List Node := structsNamed t.nodes name

theorem rootNamed?_eq_head? (t : Tree) (name : String) : t.rootNamed? name = (t.rootsNamed name).head?.map (·.id) := by
  rw [rootNamed?, rootsNamed, structsNamed, List.head?_filter]

theorem rootNamed?_eq_none_iff {name : String} : t.rootNamed? name = none ↔ t.rootsNamed name = [] := by
  rw [rootNamed?_eq_head?, Option.map_eq_none_iff, List.head?_eq_none_iff]

/-- the only root struct of a name is what is found by it -/
theorem rootNamed?_of_mem {name : String} {n : Node} (hone : (t.rootsNamed name).length ≤ 1)
    (hn : n ∈ t.rootsNamed name) : t.rootNamed? name = some n.id := by
  obtain ⟨m, hm⟩ := List.length_eq_one_iff.1 (Nat.le_antisymm hone (List.length_pos_of_mem hn))
  rw [hm, List.mem_singleton] at hn
  rw [rootNamed?_eq_head?, hm, hn]
  rfl

/-- the draft that a plan is made of is tidy -/
theorem tidy_planAdoption (hpos : 0 < t.nextId) (hothers : ∀ o ∈ others, o.Formed) (name : String) :
    (Adoption.resolve others ((others.flatMap (·.nodes)).length + 2) ⟨t, [], [], []⟩ name).2.Tidy t :=
  Adoption.tidy_resolve hpos hothers _ ⟨.refl t, rfl, by simp, by simp, by simp, fun k n hk => by simp at hk⟩ name

/-- the tree after bringing a name along has the planned nodes behind its own -/
theorem nodes_adoptNow (t : Tree) (others : List Tree) (name : String) :
    (t.adoptNow others name).2.nodes = t.nodes ++ (t.planAdoption others name).1.nodes := by
  rw [adoptNow, nodes_foldl_push, (t.spent_planAdoption others name).nodes]

/-- what holds of the second tree if it is the first one with definitions brought along: the nodes stay, a name that was
there keeps its root structs, and one that was not has one at most -/
structure Extends (t u : Tree) : Prop where
  nodes : t.nodes <+: u.nodes
  kept : ∀ name, t.rootsNamed name ≠ [] → u.rootsNamed name = t.rootsNamed name
  single : ∀ name, t.rootsNamed name = [] → (u.rootsNamed name).length ≤ 1

namespace Extends

variable {v : Tree}

theorem of_nodes_eq (h : u.nodes = t.nodes) : t.Extends u := by
  have hsame : ∀ name, u.rootsNamed name = t.rootsNamed name := fun name => by rw [rootsNamed, rootsNamed, h]
  refine ⟨h ▸ List.prefix_refl _, fun name _ => hsame name, fun name hno => ?_⟩
  rw [hsame, hno]
  exact Nat.zero_le 1

theorem refl (t : Tree) : t.Extends t := of_nodes_eq rfl

theorem trans (h : t.Extends u) (h' : u.Extends v) : t.Extends v where
  nodes := h.nodes.trans h'.nodes
  kept := by
    intro name hyes
    have hkept := h.kept name hyes
    rw [h'.kept name (hkept ▸ hyes), hkept]
  single := by
    intro name hno
    by_cases hmid : u.rootsNamed name = []
    · exact h'.single name hmid
    · rw [h'.kept name hmid]
      exact h.single name hno

end Extends

/-- **Bringing a name along extends a tree.** The new root structs are those of the planned names, of which none was there
and none is planned twice. -/
theorem extends_adoptNow (hpos : 0 < t.nextId) (hothers : ∀ o ∈ others, o.Formed) (name : String) :
    t.Extends (t.adoptNow others name).2 := by
  have htidy := tidy_planAdoption hpos hothers name
  have hnodes := nodes_adoptNow t others name
  have hroots : ∀ x, (t.adoptNow others name).2.rootsNamed x =
      t.rootsNamed x ++ structsNamed (t.planAdoption others name).1.nodes x := by
    intro x
    rw [rootsNamed, hnodes, Adoption.structsNamed_append, rootsNamed]
  refine ⟨hnodes ▸ List.prefix_append _ _, fun x hyes => ?_, fun x hno => ?_⟩
  · have hnone : structsNamed (t.planAdoption others name).1.nodes x = [] :=
      htidy.structsNamed_eq_nil fun e => hyes (rootNamed?_eq_none_iff.1 e)
    rw [hroots, hnone, List.append_nil]
  · rw [hroots, hno, List.nil_append]
    exact htidy.length_structsNamed_le x

/-- unless the ids run out, planned nodes have new ids, each its own -/
theorem fresh_planAdoption (hothers : ∀ o ∈ others, o.Formed) (name : String)
    (hroom : (t.planAdoption others name).2.nextId.toNat < Word.top) :
    (∀ n ∈ (t.planAdoption others name).1.nodes, t.nextId ≤ n.id) ∧
      ((t.planAdoption others name).1.nodes.map (·.id)).Nodup := by
  obtain ⟨hsane, -, -, -, -⟩ := t.resolves_planAdoption hothers name
  have hids : (t.planAdoption others name).1.nodes.map (fun n => n.id.toNat) = _ := (hsane.numbered hroom).2
  constructor
  · intro n hn
    have hmem : n.id.toNat ∈ (t.planAdoption others name).1.nodes.map fun n => n.id.toNat := List.mem_map_of_mem hn
    rw [hids, List.mem_range'_1] at hmem
    exact UInt64.le_iff_toNat_le.2 hmem.1
  · have hnumbers : ((t.planAdoption others name).1.nodes.map fun n => n.id.toNat).Nodup := by
      rw [hids]
      exact List.nodup_range'
    rw [← Function.comp_def UInt64.toNat, ← List.map_map] at hnumbers
    exact hnumbers.of_map _

/-- **Planned nodes can be inserted**, which is the same as bringing the name along at once. -/
theorem insert_planAdoption (ht : t.WellFormed) (hothers : ∀ o ∈ others, o.Formed) (name : String)
    (hroom : (t.planAdoption others name).2.nextId.toNat < Word.top) :
    (t.planAdoption others name).2.insert (t.planAdoption others name).1.nodes = .ok (t.adoptNow others name).2 := by
  have htidy := tidy_planAdoption ht.positive hothers name
  obtain ⟨hnext, hnodup⟩ := fresh_planAdoption hothers name hroom
  have hspent := t.spent_planAdoption others name
  refine insert_of_held (hspent.formed ht.toFormed).indexed (fun k n hk => ?_) (fun n hn => ?_) (fun n hn m hm => ?_) hnodup
  · exact (htidy.ordered k n hk).mono (List.subset_append_right _ _)
  · exact (UInt64.ne_of_lt (UInt64.lt_of_lt_of_le ht.positive (hnext n hn))).symm
  · exact UInt64.ne_of_lt (UInt64.lt_of_lt_of_le (ht.below m (hspent.nodes ▸ hm)) (hnext n hn))

/-- a name that the tree has is found, and nothing is planned -/
theorem planAdoption_of_present (others : List Tree) {name : String} {id : NodeId} (h : t.rootNamed? name = some id) :
    t.planAdoption others name = (⟨.present id, [], []⟩, t) := by
  simp only [planAdoption, Adoption.resolve, h]

/-- what a name was found to be is found by its name afterwards -/
theorem rootNamed?_adoptNow (hpos : 0 < t.nextId) (hothers : ∀ o ∈ others, o.Formed) {name : String} {id : NodeId}
    (hid : (t.adoptNow others name).1.id? = some id) : (t.adoptNow others name).2.rootNamed? name = some id := by
  cases hlocal : t.rootNamed? name with
  | some found =>
    rw [adoptNow, planAdoption_of_present others hlocal] at hid ⊢
    exact hlocal.trans hid
  | none =>
    obtain ⟨-, -, -, hfound, -⟩ := t.resolves_planAdoption hothers name
    obtain ⟨-, m, hm, hmid, hroot, hkind, hname⟩ := hfound id hid
    have hmem : m ∈ (t.adoptNow others name).2.rootsNamed name := by
      rw [rootsNamed, Adoption.mem_structsNamed, nodes_adoptNow]
      exact ⟨hm, hroot, hkind, hname⟩
    have hone := (extends_adoptNow hpos hothers name).single name (rootNamed?_eq_none_iff.1 hlocal)
    rw [rootNamed?_of_mem hone hmem, hmid]

end Tree

end ByteAtlas
