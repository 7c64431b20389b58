/-
Edits of the tree alone, in batches or not. They do the same wherever the tree is mapped and against every source, and
leave both as they are (`Edit.Quiet.apply_elsewhere`, `Edit.Quiet.retract_elsewhere`). What is known of faithful edits over
a block in memory is therefore known of them whatever the source: one that is refused leaves no trace
(`Edit.Quiet.refused`).
-/
import ByteAtlas.Proofs.Edit.Faithful
import ByteAtlas.Proofs.Tree.Mapped

namespace ByteAtlas

variable {τ : Type}

/-- a block of memory without bytes -/
def Source.void : Source τ := .buffer ⟨[], "", 0⟩

namespace Scene

/-- the scene at another address and against another source -/
def elsewhere (s : Scene τ) (base : UInt64) (source : Source τ) : Scene τ := ⟨s.tree.mapped base, source⟩

/-- the nodes of the scene, with no bytes to read or write -/
def bare (s : Scene τ) : Scene τ := s.elsewhere 0 .void

theorem ready_bare {s : Scene τ} (h : s.tree.Formed) : s.bare.Ready := ⟨h.mapped 0, _, rfl⟩

/-- scenes with the same nodes, one of them at one address and source and the other at others -/
structure Moved (base base' : UInt64) (source source' : Source τ) (s s' : Scene τ) : Prop where
  base : s.tree.base = base
  source : s.source = source
  moved : s' = s.elsewhere base' source'

end Scene

namespace Edit

mutual

/-- an edit that writes no bytes -/
def Quiet : Edit → Prop
  | .write .. => False
  | .batch es => QuietAll es
  | _ => True

def QuietAll : List Edit → Prop
  | [] => True
  | e :: rest => Quiet e ∧ QuietAll rest

end

theorem quietAll_iff {es : List Edit} : QuietAll es ↔ ∀ e ∈ es, e.Quiet := by
  induction es with
  | nil => simp [QuietAll]
  | cons e rest ih => rw [QuietAll, ih, List.forall_mem_cons]

theorem quiet_batch_iff {es : List Edit} : (batch es).Quiet ↔ ∀ e ∈ es, e.Quiet := by rw [Quiet, quietAll_iff]

theorem quiet_of_change {e : Edit} {c : Change} (hc : e.change? = some c) : e.Quiet := by
  cases e with
  | write _ _ _ => simp [change?] at hc
  | batch _ => simp [change?] at hc
  | _ => trivial

/-! ## Elsewhere -/

theorem portable_make {e : Edit} {c : Change} (hc : e.change? = some c) : Tree.Portable c.make := by
  refine change_cases hc ?_ ?_ ?_ ?_ ?_
  · exact fun ns _ => Tree.portable_insert ns
  · exact fun removed _ => Tree.portable_remove removed
  · exact fun id _ new _ => Tree.portable_reshape id new
  · exact fun id _ new _ => Tree.portable_move id new.1 new.2
  · exact fun id f _ _ _ => Tree.portable_modify id f

theorem portable_unmake {e : Edit} {c : Change} (hc : e.change? = some c) : Tree.Portable c.unmake := by
  refine change_cases hc ?_ ?_ ?_ ?_ ?_
  · exact fun ns _ => Tree.portable_removeIds _
  · exact fun removed _ => Tree.portable_putBack removed
  · exact fun id old _ _ => Tree.portable_reshape id old
  · exact fun id old _ _ => Tree.portable_move id old.1 old.2
  · exact fun id _ g _ _ => Tree.portable_modify id g

/-- a portable change of the tree leaves moved scenes moved -/
theorem agree_onTree {β β' : UInt64} {σ σ' : Source τ} {s s' : Scene τ} (h : Scene.Moved β β' σ σ' s s')
    {f : Tree → Except EditError Tree} (hf : Tree.Portable f) :
    Outcome.Agree (Scene.Moved β β' σ σ') (s.onTree f) (s'.onTree f) := by
  obtain ⟨hbase, hsource, rfl⟩ := h
  rw [Scene.onTree, Scene.onTree, show (s.elsewhere β' σ').tree = s.tree.mapped β' from rfl, hf]
  cases hu : f s.tree with
  | error _ => exact ⟨rfl, hbase, hsource, rfl⟩
  | ok u => exact ⟨rfl, (hf.base_eq hu).trans hbase, hsource, rfl⟩

namespace Quiet

variable [Transport τ] {e : Edit} {s s' : Scene τ} {err : EditError}

/-- scenes with the same nodes keep the same nodes, and answer the same -/
theorem keeps (h : e.Quiet) (β β' : UInt64) (σ σ' : Source τ) : e.Keeps (Scene.Moved β β' σ σ') := by
  induction e using Edit.induction with
  | change e c hc =>
    intro s s' hs
    rw [apply_of_change hc, apply_of_change hc, retract_of_change hc, retract_of_change hc]
    exact ⟨agree_onTree hs (portable_make hc), agree_onTree hs (portable_unmake hc)⟩
  | write _ _ _ => exact (h : False).elim
  | batch es ih => exact Keeps.batch fun e he => ih e he (quiet_batch_iff.1 h e he)

theorem apply_elsewhere (h : e.Quiet) (s : Scene τ) (base : UInt64) (source : Source τ) :
    (e.apply s).2.tree.base = s.tree.base ∧ (e.apply s).2.source = s.source ∧
      e.apply (s.elsewhere base source) = ((e.apply s).1, (e.apply s).2.elsewhere base source) := by
  obtain ⟨hr, hbase, hsource, hmoved⟩ := (h.keeps s.tree.base base s.source source s _ ⟨rfl, rfl, rfl⟩).1
  exact ⟨hbase, hsource, Prod.ext hr.symm hmoved⟩

theorem retract_elsewhere (h : e.Quiet) (s : Scene τ) (base : UInt64) (source : Source τ) :
    (e.retract s).2.tree.base = s.tree.base ∧ (e.retract s).2.source = s.source ∧
      e.retract (s.elsewhere base source) = ((e.retract s).1, (e.retract s).2.elsewhere base source) := by
  obtain ⟨hr, hbase, hsource, hmoved⟩ := (h.keeps s.tree.base base s.source source s _ ⟨rfl, rfl, rfl⟩).2
  exact ⟨hbase, hsource, Prod.ext hr.symm hmoved⟩

/-! ## Faithful edits of the tree -/

theorem recorded_elsewhere (h : e.Quiet) (base : UInt64) (source : Source τ) (hr : e.Recorded s) :
    e.Recorded (s.elsewhere base source) := by
  cases e with
  | write _ _ _ => exact (h : False).elim
  | _ => exact hr

/-- a faithful edit of the tree is faithful elsewhere -/
theorem faithful_elsewhere (h : e.Quiet) (base : UInt64) (source : Source τ) (hf : Faithful e s) :
    Faithful e (s.elsewhere base source) := by
  induction e using Edit.induction generalizing s with
  | change e c hc =>
    rw [faithful_iff_of_change hc] at hf ⊢
    rw [(h.apply_elsewhere s base source).2.2]
    exact fun happ => h.recorded_elsewhere base source (hf happ)
  | write _ _ _ => exact (h : False).elim
  | batch es ih =>
    rw [quiet_batch_iff] at h
    rw [Faithful] at hf ⊢
    induction es generalizing s with
    | nil => trivial
    | cons e rest ihrest =>
      obtain ⟨he, hrest⟩ := List.forall_mem_cons.1 h
      obtain ⟨ihe, ihes⟩ := List.forall_mem_cons.1 ih
      rw [FaithfulAll] at hf ⊢
      rw [(he.apply_elsewhere s base source).2.2]
      exact ⟨ihe he hf.1, fun happ => ihrest ihes hrest (hf.2 happ)⟩

/-- **A faithful edit of the tree that is refused leaves no trace**, whatever the source. -/
theorem refused (h : e.Quiet) (ht : s.tree.Formed) (hf : Faithful e s) (happ : e.apply s = (.error err, s')) :
    s'.Alike s := by
  have helsewhere := h.apply_elsewhere s 0 .void
  rw [happ] at helsewhere
  obtain ⟨hbase, hsource, hbare⟩ := helsewhere
  have halike := (e.exact_of_faithful (Scene.ready_bare ht) (h.faithful_elsewhere 0 .void hf)).refused err _ hbare
  exact ⟨⟨hbase, halike.tree.nodes, halike.tree.position⟩, hsource⟩

end Quiet

end Edit

end ByteAtlas
