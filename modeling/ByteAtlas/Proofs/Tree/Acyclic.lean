/-
Trees without rings. One node leads to another if it holds it or is filled by it: a struct or a row of structs that holds
nothing itself has the members of the struct that it refers to. Other references are never followed.

- `acc_of_noRing`: among finitely many, a way on from which no ring is reached comes to its end.
- `noRing_of_rank`: there is no ring where every step goes down a rank.
- `Tree.Holds`, `reflTransGen_holds_iff`: what lies above a node is what leads to it by steps from a node to one that it
  holds.
- `Tree.Acyclic`: no way leads back to where it started.
- `Acyclic.exists_rank`: then every way goes down a rank that is smaller than the number of nodes.
- `acyclic_of_noRing`: that is so where holding and referring run in no ring at all (`Tree.Uses`).
-/
import ByteAtlas.Proofs.Tree.WellFormed

namespace ByteAtlas

open Relation

/-- among finitely many, a way on from which no ring is reached comes to its end -/
theorem acc_of_noRing {α : Type} [Finite α] {r : α → α → Prop} {a : α}
    (h : ∀ b, ReflTransGen r a b → ¬ TransGen r b b) : Acc (fun b a => r a b) a := by
  let Calm := { x : α // ∀ b, ReflTransGen r x b → ¬ TransGen r b b }
  let below (x y : Calm) : Prop := TransGen r y.1 x.1
  have : IsTrans Calm below := ⟨fun _ _ _ hxy hyz => hyz.trans hxy⟩
  have : Std.Irrefl below := ⟨fun x hx => x.2 x.1 .refl hx⟩
  have hwf := Finite.wellFounded_of_trans_of_irrefl below
  have key : ∀ x : Calm, Acc (fun b a => r a b) x.1 := fun x => by
    induction x using hwf.induction with
    | _ x ih => exact ⟨_, fun y hy => ih ⟨y, fun b hb => x.2 b (.head hy hb)⟩ (.single hy)⟩
  exact key ⟨a, h⟩

section Rank

variable {α : Type} {r : α → α → Prop} {rank : α → Nat}

theorem rank_lt_of_transGen (hrank : ∀ a b, r a b → rank b < rank a) {a b : α} (hab : TransGen r a b) :
    rank b < rank a := by
  induction hab with
  | single hab => exact hrank _ _ hab
  | tail _ hbc ih => exact Nat.lt_trans (hrank _ _ hbc) ih

/-- ways that only go down lead nowhere back -/
theorem noRing_of_rank (hrank : ∀ a b, r a b → rank b < rank a) (a : α) : ¬ TransGen r a a :=
  fun ha => Nat.lt_irrefl _ (rank_lt_of_transGen hrank ha)

end Rank

namespace Tree

variable {t : Tree}

def Holds (t : Tree) (a b : NodeId) : Prop := ∃ p ∈ t.nodes, ∃ c ∈ t.nodes, p.id = a ∧ c.id = b ∧ c.parent = p.id

/-- what lies above a node leads to it by steps from a node to one that it holds, and nothing else does -/
theorem reflTransGen_holds_iff (h : t.Formed) {a id : NodeId} :
    ReflTransGen t.Holds a id ↔ LiesAbove t.nodes a id := by
  constructor
  · intro hway
    induction hway with
    | refl => exact .self
    | tail _ hstep ih =>
      obtain ⟨p, hp, c, hc, rfl, rfl, hparent⟩ := hstep
      exact .up hc (hparent ▸ h.forest.nonzero p hp) (hparent ▸ ih)
  · intro hab
    induction hab with
    | self => exact .refl
    | @up c hc hz _ ih =>
      obtain ⟨p, hp, hpid, -⟩ := (h.forest.held c hc).resolve_left hz
      exact ih.tail ⟨p, hp, c, hc, hpid, rfl, hpid.symm⟩

/-- a struct or a row of structs has no members and refers to a struct, whose members fill it -/
structure FilledBy (t : Tree) (n d : Node) : Prop where
  holder : n.kind = .struct ∨ n.kind = .array ∧ n.elementKind = .struct
  empty : ∀ k ∈ t.nodes, k.parent ≠ n.id
  ref : n.ref = d.id
  mem : d ∈ t.nodes
  kind : d.kind = .struct

/-- one node holds another or is filled by it -/
inductive Leads (t : Tree) : NodeId → NodeId → Prop
  | holds {n m : Node} : n ∈ t.nodes → m ∈ t.nodes → m.parent = n.id → Leads t n.id m.id
  | filled {n m : Node} : n ∈ t.nodes → t.FilledBy n m → Leads t n.id m.id

/-- no way leads back to where it started -/
def Acyclic (t : Tree) : Prop := ∀ id, ¬ TransGen t.Leads id id

/-- one node holds another or refers to it, whether or not the reference is followed anywhere -/
def Uses (t : Tree) (a b : NodeId) : Prop :=
  ∃ n ∈ t.nodes, ∃ m ∈ t.nodes, n.id = a ∧ m.id = b ∧ (m.parent = n.id ∨ n.ref = m.id)

theorem Leads.uses {a b : NodeId} (hab : t.Leads a b) : t.Uses a b := by
  cases hab with
  | holds hn hm hp => exact ⟨_, hn, _, hm, rfl, rfl, .inl hp⟩
  | filled hn hfill => exact ⟨_, hn, _, hfill.mem, rfl, rfl, .inr hfill.ref⟩

theorem acyclic_of_noRing (hring : ∀ id, ¬ TransGen t.Uses id id) : t.Acyclic := fun id hid =>
  hring id (TransGen.mono (fun _ _ => Leads.uses) _ _ hid)

/-- **Without rings every way is shorter than the list of nodes.** -/
theorem Acyclic.exists_rank (h : t.Acyclic) : ∃ rank : NodeId → Nat, (∀ n ∈ t.nodes, rank n.id < t.nodes.length) ∧
    ∀ a b, t.Leads a b → rank b < rank a := by
  classical
  -- the rank of an id is the number of nodes that it leads to
  let ends (id : NodeId) : Finset NodeId := (t.nodes.map (·.id)).toFinset.filter fun b => TransGen t.Leads id b
  refine ⟨fun id => (ends id).card, fun n hn => ?_, fun a b hab => ?_⟩
  · have hlt : ends n.id ⊂ (t.nodes.map (·.id)).toFinset := by
      refine ⟨Finset.filter_subset _ _, fun hsub => ?_⟩
      have hmem := hsub (List.mem_toFinset.2 (List.mem_map_of_mem hn))
      exact h _ (Finset.mem_filter.1 hmem).2
    calc (ends n.id).card < (t.nodes.map (·.id)).toFinset.card := Finset.card_lt_card hlt
      _ ≤ (t.nodes.map (·.id)).length := List.toFinset_card_le _
      _ = t.nodes.length := List.length_map _
  · have hb : b ∈ (t.nodes.map (·.id)).toFinset := by
      cases hab with
      | holds _ hm _ => exact List.mem_toFinset.2 (List.mem_map_of_mem hm)
      | filled _ hm => exact List.mem_toFinset.2 (List.mem_map_of_mem hm.mem)
    refine Finset.card_lt_card ⟨fun c hc => ?_, fun hsub => ?_⟩
    · obtain ⟨hc, hbc⟩ := Finset.mem_filter.1 hc
      exact Finset.mem_filter.2 ⟨hc, .head hab hbc⟩
    · exact h b (Finset.mem_filter.1 (hsub (Finset.mem_filter.2 ⟨hb, .single hab⟩))).2

theorem Holds.leads {a b : NodeId} (hab : t.Holds a b) : t.Leads a b := by
  obtain ⟨p, hp, c, hc, rfl, rfl, hparent⟩ := hab
  exact .holds hp hc hparent

theorem leads_of_liesAbove (h : t.Formed) {a id : NodeId} (hab : LiesAbove t.nodes a id) : ReflTransGen t.Leads a id :=
  ReflTransGen.mono (fun _ _ => Holds.leads) _ _ ((reflTransGen_holds_iff h).2 hab)

end Tree

end ByteAtlas
