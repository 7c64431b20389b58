/-
Documents that are reachable: from an empty tree, or from a list of nodes that is accepted, by adding nodes, by requests,
and by going back and forth in the history, in any order and number.

- `Document.Governed`: what edits of one sort carry on, the steps of a history of such edits carry on.
- `Document.Orderly`: the tree is steady and every edit of the history is sound. One event keeps this
  (`Orderly.step`), so every run does.
- `Document.run_wellFormed`: every reachable tree is well-formed as long as its ids have not run out, and no run moves the
  next new id back.
-/
import ByteAtlas.Proofs.Document.Steps

namespace ByteAtlas.Document

variable {τ : Type}

/-! ## Histories of one sort of edits -/

/-- a property of the tree, and one of each edit of the history -/
structure Governed (P : Tree → Prop) (S : Edit → Prop) (d : Document τ) : Prop where
  tree : P d.tree
  done : ∀ e ∈ d.history.done, S e
  undone : ∀ e ∈ d.history.undone, S e

section Governed

variable [Transport τ] {P : Tree → Prop} {R : Tree → Tree → Prop} {S : Edit → Prop} {d : Document τ}

/-- an edit that carries a relation of trees on, made and recorded if it is not refused -/
theorem Governed.perform (h : d.Governed P S) (hR : Edit.Carrier P R) {e : Edit} (hs : S e) (hc : e.Carries τ P R) :
    (d.perform e).2.Governed P S ∧ R d.tree (d.perform e).2.tree := by
  have hnext := (hc d.scene h.tree).1
  cases happ : e.apply d.scene with
  | mk r s =>
    rw [happ] at hnext
    cases r with
    | error err =>
      rw [perform_of_error happ]
      exact ⟨⟨hR.holds h.tree hnext, h.done, h.undone⟩, hnext⟩
    | ok _ =>
      rw [perform_of_ok happ]
      refine ⟨⟨hR.holds h.tree hnext, fun e' he' => ?_, by simp [history, History.record]⟩, hnext⟩
      rcases List.mem_cons.1 (History.cut_subset _ _ he') with rfl | he'
      · exact hs
      · exact h.done e' he'

theorem Governed.undo (h : d.Governed P S) (hR : Edit.Carrier P R) (hc : ∀ e, S e → e.Carries τ P R) :
    d.undo.2.Governed P S ∧ R d.tree d.undo.2.tree := by
  cases hd : d.history.done with
  | nil =>
    rw [undo_of_nil hd]
    exact ⟨h, hR.refl h.tree⟩
  | cons e es =>
    obtain ⟨hs, hes⟩ := List.forall_mem_cons.1 (hd ▸ h.done)
    have hnext := (hc e hs d.scene h.tree).2
    cases hback : e.retract d.scene with
    | mk r s =>
      rw [hback] at hnext
      cases r with
      | error err =>
        rw [undo_of_error hd hback]
        exact ⟨⟨hR.holds h.tree hnext, h.done, h.undone⟩, hnext⟩
      | ok _ =>
        rw [undo_of_ok hd hback]
        exact ⟨⟨hR.holds h.tree hnext, hes, List.forall_mem_cons.2 ⟨hs, h.undone⟩⟩, hnext⟩

theorem Governed.redo (h : d.Governed P S) (hR : Edit.Carrier P R) (hc : ∀ e, S e → e.Carries τ P R) :
    d.redo.2.Governed P S ∧ R d.tree d.redo.2.tree := by
  cases hd : d.history.undone with
  | nil =>
    rw [redo_of_nil hd]
    exact ⟨h, hR.refl h.tree⟩
  | cons e es =>
    obtain ⟨hs, hes⟩ := List.forall_mem_cons.1 (hd ▸ h.undone)
    have hnext := (hc e hs d.scene h.tree).1
    cases happ : e.apply d.scene with
    | mk r s =>
      rw [happ] at hnext
      cases r with
      | error err =>
        rw [redo_of_error hd happ]
        exact ⟨⟨hR.holds h.tree hnext, h.done, h.undone⟩, hnext⟩
      | ok _ =>
        rw [redo_of_ok hd happ]
        exact ⟨⟨hR.holds h.tree hnext, List.forall_mem_cons.2 ⟨hs, h.done⟩, hes⟩, hnext⟩

end Governed

/-! ## The invariant -/

/-- a steady tree, and a history of sound edits -/
structure Orderly (d : Document τ) : Prop where
  tree : d.tree.Steady
  done : ∀ e ∈ d.history.done, e.Sound
  undone : ∀ e ∈ d.history.undone, e.Sound

/-- a document whose next new id is not before that of another one, and which is orderly -/
structure Advances (d d' : Document τ) : Prop where
  orderly : d'.Orderly
  le : d.tree.nextId ≤ d'.tree.nextId

variable {d d' d'' : Document τ}

theorem Advances.refl (h : d.Orderly) : d.Advances d := ⟨h, UInt64.le_refl _⟩

theorem Advances.trans (h : d.Advances d') (h' : d'.Advances d'') : d.Advances d'' :=
  ⟨h'.orderly, UInt64.le_trans h.le h'.le⟩

theorem Orderly.governed (h : d.Orderly) : d.Governed Tree.Steady Edit.Sound := ⟨h.tree, h.done, h.undone⟩

theorem Advances.of_governed (h : d'.Governed Tree.Steady Edit.Sound ∧ d'.tree.Steady ∧ d.tree.nextId ≤ d'.tree.nextId) :
    d.Advances d' :=
  ⟨⟨h.1.tree, h.1.done, h.1.undone⟩, h.2.2⟩

theorem Orderly.primed (h : d.Orderly) (hp : d.Primed d') : d.Advances d' where
  orderly := by
    have hd := h.done
    have hu := h.undone
    rw [← hp.history] at hd hu
    exact ⟨hp.spent.steady h.tree, hd, hu⟩
  le := hp.spent.le

/-! ## Events -/

variable [Transport τ]

inductive Event where
  /-- a node is added to its tree, past the history -/
  | add (n : Node)
  | act (a : Action)

def step (d : Document τ) : Event → Document τ
  | .add n => d.withTree (d.tree.add n).2
  | .act a => d.act a

def run (d : Document τ) (events : List Event) : Document τ := events.foldl step d

theorem run_append (d : Document τ) (es es' : List Event) : d.run (es ++ es') = (d.run es).run es' := by
  rw [run, run, run, List.foldl_append]

/-- the relation of trees that sound edits carry on: the later one is steady, and has no earlier next new id -/
theorem carrier_steady : Edit.Carrier Tree.Steady fun t u => u.Steady ∧ t.nextId ≤ u.nextId :=
  ⟨fun h => ⟨h, UInt64.le_refl _⟩, fun h h' => ⟨h'.1, UInt64.le_trans h.2 h'.2⟩, fun _ h => h.1⟩

theorem carries_steady {e : Edit} (hs : e.Sound) :
    e.Carries τ Tree.Steady fun t u => u.Steady ∧ t.nextId ≤ u.nextId := by
  intro s h
  have hsteady := Edit.steady_carries hs s h
  have hle := e.nextId_carries s trivial
  exact ⟨⟨hsteady.1, hle.1⟩, ⟨hsteady.2, hle.2⟩⟩

theorem Orderly.perform (h : d.Orderly) {e : Edit} (hs : e.Sound) : d.Advances (d.perform e).2 :=
  .of_governed (h.governed.perform carrier_steady hs (carries_steady hs))

theorem Orderly.undo (h : d.Orderly) : d.Advances d.undo.2 :=
  .of_governed (h.governed.undo carrier_steady fun _ => carries_steady)

theorem Orderly.redo (h : d.Orderly) : d.Advances d.redo.2 :=
  .of_governed (h.governed.redo carrier_steady fun _ => carries_steady)

theorem Orderly.after (h : d.Orderly) (r : Request) : d.Advances (d.after r) := by
  have hcomes := comes_after h.tree.toFormed r
  generalize d.after r = d' at hcomes ⊢
  cases hcomes with
  | idle hp => exact h.primed hp
  | performs hp _ hs => exact (h.primed hp).trans ((h.primed hp).orderly.perform hs)

theorem Orderly.act (h : d.Orderly) (a : Action) : d.Advances (d.act a) := by
  cases a with
  | ask r => exact h.after r
  | undo => exact h.undo
  | redo => exact h.redo

/-- one event keeps a document orderly, and moves the next new id only forward -/
theorem Orderly.step (h : d.Orderly) (e : Event) : d.Advances (d.step e) := by
  cases e with
  | add n => exact ⟨⟨h.tree.add n, h.done, h.undone⟩, d.tree.nextId_le_add n⟩
  | act a => exact h.act a

theorem Orderly.run (h : d.Orderly) (es : List Event) : d.Advances (d.run es) := by
  induction es generalizing d with
  | nil => exact .refl h
  | cons e rest ih => exact (h.step e).trans (ih (h.step e).orderly)

/-- **Every reachable tree is well-formed** as long as its ids have not run out, and a longer run never has an earlier
next new id. The tree starts empty or from a list of nodes that is accepted, the history without edits; the source may be
any. -/
theorem run_wellFormed {base nextId : UInt64} {ns : List Node}
    (ht : d.tree = Tree.empty base ∨ Tree.ofNodes base ns nextId = .ok d.tree) (hdone : d.history.done = [])
    (hundone : d.history.undone = []) (es es' : List Event) :
    ((d.run es).tree.nextId.toNat < Word.top → (d.run es).tree.WellFormed) ∧
      (d.run es).tree.nextId ≤ (d.run (es ++ es')).tree.nextId := by
  have hwf : d.tree.WellFormed := by
    rcases ht with ht | ht
    · exact ht ▸ Tree.wellFormed_empty base
    · exact Tree.wellFormed_ofNodes ht
  have h : d.Orderly := ⟨hwf.steady, by simp [hdone], by simp [hundone]⟩
  have hrun := (h.run es).orderly
  refine ⟨hrun.tree.wellFormed, ?_⟩
  rw [run_append]
  exact (hrun.run es').le

/-- a run over the struct of two bytes that adds, copies, removes and goes back and forth -/
theorem run_wellFormed_pair : ((ofTree Tree.pair : Document Image).run
    [.add (Node.field 1 2 .uint8 "third"), .act (.ask (.copy 1)), .act .undo, .act (.ask (.remove [2])), .act .undo,
      .act .redo]).tree.WellFormed :=
  (run_wellFormed (Or.inr Tree.ofNodes_pair) rfl rfl _ []).1 (by decide)

end ByteAtlas.Document
