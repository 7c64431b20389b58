/-
The recursive walk: a node, and then what the walks from its children list, one after the other. It is told here as a
relation on the nodes alone, with no stack, no ids that were seen and no bound on its steps.

- `Siblings`: all that an id holds, by offset, and with one offset in storage order. There is one such list, that of the
  children (`siblings_iff`).
- `Descent`: going down from some positions in turn.
- `descent_iff`: from nodes of a forest there is one way to go down, and it lists the branches of these nodes.
- `Descent.exists_parent_before`: whatever is listed has its parent before it, unless the walk set out from there.
- `subtree_descent`: the walk with a stack is the recursive walk, and lists what the walk upwards says lies below.
-/
import ByteAtlas.Proofs.Tree.Preorder
import ByteAtlas.Proofs.Tree.Acyclic
import ByteAtlas.Proofs.Tree.Building

namespace ByteAtlas.Tree

open Relation

variable {t : Tree} {j : Nat} {is js cs : List Nat} {parent : NodeId}

/-! ## Siblings -/

/-- the positions of all that an id holds, by offset, and with one offset in storage order -/
structure Siblings (t : Tree) (parent : NodeId) (cs : List Nat) : Prop where
  mem_iff : ∀ c, c ∈ cs ↔ ∃ n, t.nodes[c]? = some n ∧ n.parent = parent
  ordered : cs.Pairwise t.Earlier

theorem Earlier.not_earlier {a b : Nat} (hab : t.Earlier a b) : ¬ t.Earlier b a := by
  rintro ⟨q', p', hq', hp', -, hba⟩
  obtain ⟨p, q, hp, hq, -, hab⟩ := hab
  obtain rfl := Option.some.inj (hp.symm.trans hp')
  obtain rfl := Option.some.inj (hq.symm.trans hq')
  simp only [UInt64.lt_iff_toNat_lt, ← UInt64.toNat_inj] at hab hba
  omega

instance : Std.Asymm t.Earlier := ⟨fun _ _ => Earlier.not_earlier⟩

/-- what an id holds stands in one order only -/
theorem siblings_iff : t.Siblings parent cs ↔ cs = t.children parent := by
  constructor
  · intro hcs
    exact hcs.ordered.eq_of_mem_iff (pairwise_children parent) fun c => (hcs.mem_iff c).trans mem_children.symm
  · rintro rfl
    exact ⟨fun c => mem_children, pairwise_children parent⟩

/-! ## Going down -/

/-- Going down from some positions in turn lists the first of them, then what going down from its children lists, and
then what going down from the other positions lists. -/
inductive Descent (t : Tree) : List Nat → List Nat → Prop
  | nil : Descent t [] []
  | cons {i : Nat} {n : Node} {cs below rest listed : List Nat} : t.nodes[i]? = some n → t.Siblings n.id cs →
      Descent t cs below → Descent t rest listed → Descent t (i :: rest) (i :: below ++ listed)

/-- going down lists branches -/
theorem Descent.eq_flatMap (h : t.Formed) (hd : t.Descent is js) : js = is.flatMap t.under := by
  induction hd with
  | nil => rfl
  | cons hn hcs _ _ ihbelow ihrest =>
    rw [List.flatMap_cons, under_eq_cons h hn, ← siblings_iff.1 hcs, ← ihbelow, ← ihrest]

/-- from every node there is a way to go down to the end -/
theorem descent_flatMap (h : t.Formed) (hv : ∀ i ∈ is, ∃ n, t.nodes[i]? = some n) :
    t.Descent is (is.flatMap t.under) := by
  -- children are no part of the list that they are reached from, so the induction is on how much there is to list
  induction hk : (is.flatMap t.under).length using Nat.strong_induction_on generalizing is with
  | _ k ih =>
    cases is with
    | nil => exact .nil
    | cons i rest =>
      obtain ⟨⟨n, hn⟩, hrest⟩ := List.forall_mem_cons.1 hv
      have hchildren : ∀ c ∈ t.children n.id, ∃ q, t.nodes[c]? = some q :=
        fun c hc => (mem_children.1 hc).imp fun _ hq => hq.1
      rw [List.flatMap_cons, under_eq_cons h hn] at hk ⊢
      rw [List.length_append, List.length_cons] at hk
      exact .cons hn (siblings_iff.2 rfl) (ih _ (by omega) hchildren rfl) (ih _ (by omega) hrest rfl)

/-- **From nodes of a forest there is one way to go down**, and it lists their branches. -/
theorem descent_iff (h : t.Formed) (hv : ∀ i ∈ is, ∃ n, t.nodes[i]? = some n) :
    t.Descent is js ↔ js = is.flatMap t.under :=
  ⟨Descent.eq_flatMap h, fun e => e ▸ descent_flatMap h hv⟩

/-- what stands in two lists put together stands in the second or in the first -/
theorem eq_of_append_eq_append_cons {α : Type*} {xs ys before after : List α} {a : α}
    (he : xs ++ ys = before ++ a :: after) :
    (∃ front, before = xs ++ front ∧ ys = front ++ a :: after) ∨ ∃ back, xs = before ++ a :: back := by
  rcases List.append_eq_append_iff.1 he with hfront | ⟨back, hxs, hback⟩
  · exact Or.inl hfront
  · cases back with
    | nil => exact Or.inl ⟨[], by simpa using hxs.symm, hback.symm⟩
    | cons b back =>
      obtain ⟨rfl, -⟩ := List.cons.inj hback
      exact Or.inr ⟨back, hxs⟩

/-- **What is listed has its parent before it**, unless the walk set out from there. -/
theorem Descent.exists_parent_before (hd : t.Descent is js) {before after : List Nat} (he : js = before ++ j :: after) :
    j ∈ is ∨ ∃ k ∈ before, ∃ p c, t.nodes[k]? = some p ∧ t.nodes[j]? = some c ∧ c.parent = p.id := by
  induction hd generalizing before after with
  | nil => simp at he
  | @cons i n cs below rest listed hn hcs _ _ ihbelow ihrest =>
    rcases eq_of_append_eq_append_cons he with ⟨front, rfl, hlisted⟩ | ⟨back, hbelow⟩
    · rcases ihrest hlisted with hj | ⟨k, hk, hparent⟩
      · exact Or.inl (List.mem_cons_of_mem _ hj)
      · exact Or.inr ⟨k, List.mem_append_right _ hk, hparent⟩
    · cases before with
      | nil =>
        obtain ⟨rfl, -⟩ := List.cons.inj hbelow
        exact Or.inl List.mem_cons_self
      | cons k before =>
        obtain ⟨rfl, htail⟩ := List.cons.inj hbelow
        refine Or.inr ?_
        rcases ihbelow htail with hj | ⟨k, hk, hparent⟩
        · obtain ⟨c, hc, hcn⟩ := (hcs.mem_iff j).1 hj
          exact ⟨_, List.mem_cons_self, n, c, hn, hc, hcn⟩
        · exact ⟨k, List.mem_cons_of_mem _ hk, hparent⟩

/-! ## The two walks agree -/

/-- **The walk with a stack is the recursive walk, over what the walk upwards finds below.** One id lies above another just
if steps from a node to one that it holds lead from the first to the second. The subtree of an id that is there has the
positions of the nodes that the id lies above, and no other, each once; it starts with the id, and all else comes after its
parent. Going down from the id lists the subtree, position by position, and nothing else, and no number of steps beyond that
of the nodes makes the walk with a stack list anything else. -/
theorem subtree_descent (h : t.Formed) :
    (∀ above id, t.liesAbove above id = true ↔ ReflTransGen t.Holds above id) ∧
    ∀ id i, t.position? id = some i →
      (∀ j, j ∈ t.subtree id ↔ ∃ m, t.nodes[j]? = some m ∧ t.liesAbove id m.id = true) ∧
      (t.subtree id).Nodup ∧
      (t.subtree id).head? = some i ∧
      (∀ before j after, t.subtree id = before ++ j :: after → j ≠ i →
        ∃ k ∈ before, ∃ p c, t.nodes[k]? = some p ∧ t.nodes[j]? = some c ∧ c.parent = p.id) ∧
      (∀ js, t.Descent [i] js ↔ js = t.subtree id) ∧
      ∀ steps > t.nodes.length, t.unstack steps [i] [] = t.subtree id := by
  refine ⟨fun above id => (liesAbove_iff h).trans (reflTransGen_holds_iff h).symm, fun id i hi => ?_⟩
  obtain ⟨n, hn, rfl⟩ := Option.map_eq_some_iff.1 ((h.indexed id i).1 hi)
  have hdescent : ∀ js, t.Descent [i] js ↔ js = t.subtree n.id := fun js => by
    rw [descent_iff h (by simp [hn]), List.flatMap_singleton, subtree_eq_under h hn]
  refine ⟨fun j => ?_, nodup_subtree h n.id, ?_, fun before j after he hj => ?_, hdescent, ?_⟩
  · simp only [liesAbove_iff h, mem_subtree_iff h]
  · rw [subtree_eq_under h hn, under_eq_cons h hn, List.head?_cons]
  · exact (((hdescent _).2 rfl).exists_parent_before he).resolve_left fun hmem => hj (List.mem_singleton.1 hmem)
  · exact fun steps hs => (unstack_singleton h hn hs).trans (subtree_eq_under h hn).symm

/-- a struct with a number in front, and then a struct and a raw member upon each other; the member of the inner struct is
stored before all of them, and another struct after them -/
def strayNodes : List Node :=
  [{ Node.field 3 4 .float "x" with id := 1 }, { Node.rootStruct "player" "Player" with id := 2 },
    { Node.field 2 8 .struct "position" with id := 3 }, { Node.field 2 8 .hex32 "raw" with id := 4 },
    { Node.field 2 0 .int32 "health" with id := 5 }, { Node.rootStruct "other" "Other" with id := 6 }]

def strayTree : Tree := strayNodes.foldl push (empty 0)

/-- the number comes first, though it is stored last, and the inner struct with its member before the raw member; the member
comes after the inner struct, and steps more than there are nodes list the same -/
theorem subtree_descent_stray :
    strayTree.Formed ∧ strayTree.position? 2 = some 1 ∧ strayTree.subtree 2 = [1, 4, 2, 0, 3] ∧
      strayTree.Descent [1] [1, 4, 2, 0, 3] ∧
      (∃ k ∈ [1, 4, 2], ∃ p c, strayTree.nodes[k]? = some p ∧ strayTree.nodes[0]? = some c ∧ c.parent = p.id) ∧
      strayTree.unstack 7 [1] [] = [1, 4, 2, 0, 3] ∧
      ReflTransGen strayTree.Holds 2 1 ∧ ¬ ReflTransGen strayTree.Holds 6 1 := by
  have h : strayTree.Formed :=
    (wellFormed_ofNodes (show ofNodes 0 strayNodes 1 = .ok strayTree from rfl)).toFormed
  have hlisted : strayTree.subtree 2 = [1, 4, 2, 0, 3] := by decide
  obtain ⟨hways, hwalks⟩ := subtree_descent h
  obtain ⟨-, -, -, hparents, hdescent, hsteps⟩ := hwalks 2 1 rfl
  refine ⟨h, rfl, hlisted, (hdescent _).2 hlisted.symm, hparents [1, 4, 2] 0 [3] hlisted (by decide),
    (hsteps 7 (by decide)).trans hlisted, (hways 2 1).1 (by decide), ?_⟩
  rw [← hways]
  decide

end ByteAtlas.Tree
