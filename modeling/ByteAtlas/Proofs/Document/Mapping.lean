/-
Where the tree of a document and bytes in memory are mapped. Edits move neither, and attaching and relocating map the bytes
where the tree is. So every open document has them at one base, whatever was done to it.

- `Scene.sites`: the base of the tree and that of the bytes. Edits keep them (`Edit.keeps_sites`).
- `Document.Opened`: a document after anything that can be done to it, edits that are handed over included.
- `Document.Opened.aligned`: its bytes in memory are mapped where its tree is.
-/
import ByteAtlas.Proofs.Document.Refusals

namespace ByteAtlas

variable {τ : Type} [Transport τ]

/-! ## Where a block in memory is mapped -/

namespace Source

variable {s s' : Source τ}

/-- where the bytes are mapped, if they are in memory -/
def memoryAt : Source τ → Option UInt64
  | buffer b => some b.base
  | _ => none

@[simp] theorem memoryAt_size (s : Source τ) : s.size.2.memoryAt = s.memoryAt := by cases s <;> rfl

@[simp] theorem memoryAt_read (s : Source τ) (address : UInt64) (n : Nat) : (s.read address n).2.memoryAt = s.memoryAt := by
  cases s <;> rfl

@[simp] theorem memoryAt_symbol (s : Source τ) (address : UInt64) : (s.symbol address).2.memoryAt = s.memoryAt := by
  cases s <;> rfl

@[simp] theorem memoryAt_write (s : Source τ) (address : UInt64) (new : Bytes) :
    (s.write address new).2.memoryAt = s.memoryAt := by
  cases s with
  | nothing => rfl
  | remote r => rfl
  | buffer b =>
    simp only [Source.write, Buffer.write]
    split_ifs
    · rfl
    · cases b.data.writeAt b.base address new <;> rfl

omit [Transport τ] in
theorem memoryAt_of_isLive (h : s.isLive) : s.memoryAt = none := by
  cases s with
  | remote r => rfl
  | nothing => rfl
  | buffer b => simp [isLive] at h

omit [Transport τ] in
theorem eq_of_memoryAt_rebase {base address : UInt64} (h : address ∈ (s.rebase base).memoryAt) : address = base := by
  cases s with
  | buffer b => exact (Option.some.inj h).symm
  | nothing => cases h
  | remote r => cases h

theorem Asked.memoryAt_eq (h : s.Asked s') : s'.memoryAt = s.memoryAt := by
  induction h with
  | refl => rfl
  | size _ ih => rw [memoryAt_size, ih]
  | read _ address n ih => rw [memoryAt_read, ih]

end Source

namespace Listing.Row

theorem memoryAt_fieldValue (r : Row) (s : Source τ) : (r.fieldValue s).2.memoryAt = s.memoryAt := by
  unfold fieldValue Source.readOrZeros
  dsimp only
  split_ifs <;> simp

theorem memoryAt_fill (r : Row) (s : Source τ) : (r.fill s).2.memoryAt = s.memoryAt := by
  have hfield := r.memoryAt_fieldValue s
  have hpadding : (r.paddingValue s).2.memoryAt = s.memoryAt := s.memoryAt_read _ _
  unfold fill
  by_cases hvalue : r.kind.hasValue <;> cases r.role <;> simp [hvalue, hfield, hpadding]

theorem memoryAt_fillAll (s : Source τ) (rows : List Row) : (fillAll s rows).2.memoryAt = s.memoryAt := by
  induction rows generalizing s with
  | nil => rfl
  | cons r rows ih => exact (ih _).trans (r.memoryAt_fill s)

end Listing.Row

def Scene.sites (s : Scene τ) : UInt64 × Option UInt64 := (s.tree.base, s.source.memoryAt)

namespace Edit

omit [Transport τ] in
theorem sites_onTree (s : Scene τ) {f : Tree → Except EditError Tree} (hf : Tree.Portable f) :
    (s.onTree f).2.sites = s.sites := by
  unfold Scene.onTree
  cases hu : f s.tree with
  | error e => rfl
  | ok u => exact congrArg (·, s.source.memoryAt) (hf.base_eq hu)

theorem sites_write (s : Scene τ) (address : UInt64) (new : Bytes) : (s.write address new).2.sites = s.sites := by
  have hkept := s.source.memoryAt_write address new
  unfold Scene.write
  generalize s.source.write address new = o at hkept ⊢
  obtain ⟨written, source⟩ := o
  cases written <;> exact congrArg (s.tree.base, ·) hkept

/-- no edit moves the tree or the bytes, made or taken back -/
theorem keeps_sites (e : Edit) (p : UInt64 × Option UInt64) :
    e.Keeps (τ := τ) fun s s' => s.sites = p ∧ s' = s := by
  induction e using Edit.induction with
  | change e c hc =>
    rintro s _ ⟨rfl, rfl⟩
    rw [apply_of_change hc, retract_of_change hc]
    exact ⟨⟨rfl, sites_onTree _ (portable_make hc), rfl⟩, rfl, sites_onTree _ (portable_unmake hc), rfl⟩
  | write address old new =>
    rintro s _ ⟨rfl, rfl⟩
    rw [apply, retract]
    exact ⟨⟨rfl, sites_write _ address new, rfl⟩, rfl, sites_write _ address old, rfl⟩
  | batch es ih => exact Keeps.batch ih

theorem sites_apply (e : Edit) (s : Scene τ) : (e.apply s).2.sites = s.sites :=
  ((e.keeps_sites s.sites s s ⟨rfl, rfl⟩).1).2.1

theorem sites_retract (e : Edit) (s : Scene τ) : (e.retract s).2.sites = s.sites :=
  ((e.keeps_sites s.sites s s ⟨rfl, rfl⟩).2).2.1

end Edit

/-! ## Open documents -/

namespace Document

variable {d d' : Document τ}

/-- a document that was opened over a tree, after anything that can be done to it -/
inductive Opened : Document τ → Prop
  | start (t : Tree) : Opened (ofTree t)
  | turn {d : Document τ} : Opened d → ∀ t, Opened (d.turn t)
  /-- any edit may be handed over, whether or not it records truly what was there before -/
  | perform {d : Document τ} : Opened d → ∀ e, Opened (d.perform e).2
  | view {d : Document τ} : Opened d → Opened d.view.2
  | configure {d : Document τ} : Opened d → ∀ options newTypeName, Opened { d with options, newTypeName }

/-- bytes in memory are mapped where the tree is -/
def Aligned (d : Document τ) : Prop := ∀ address ∈ d.source.memoryAt, address = d.tree.base

theorem sites_perform (d : Document τ) (e : Edit) : (d.perform e).2.scene.sites = d.scene.sites := by
  rw [← e.sites_apply d.scene]
  cases happ : e.apply d.scene with
  | mk r s =>
    cases r with
    | error err => rw [perform_of_error happ]; rfl
    | ok _ => rw [perform_of_ok happ]; rfl

theorem sites_undo (d : Document τ) : d.undo.2.scene.sites = d.scene.sites := by
  cases hd : d.history.done with
  | nil => rw [undo_of_nil hd]
  | cons e es =>
    rw [← e.sites_retract d.scene]
    cases hback : e.retract d.scene with
    | mk r s =>
      cases r with
      | error err => rw [undo_of_error hd hback]; rfl
      | ok _ => rw [undo_of_ok hd hback]; rfl

theorem sites_redo (d : Document τ) : d.redo.2.scene.sites = d.scene.sites := by
  cases hd : d.history.undone with
  | nil => rw [redo_of_nil hd]
  | cons e es =>
    rw [← e.sites_apply d.scene]
    cases happ : e.apply d.scene with
    | mk r s =>
      cases r with
      | error err => rw [redo_of_error hd happ]; rfl
      | ok _ => rw [redo_of_ok hd happ]; rfl

theorem Prepares.sites (h : d.Prepares d') : d'.scene.sites = d.scene.sites :=
  Prod.ext h.spent.base h.source.memoryAt_eq

/-- nothing that is asked moves the tree or the bytes -/
theorem sites_act (d : Document τ) (a : Action) : (d.act a).scene.sites = d.scene.sites := by
  cases a with
  | undo => exact d.sites_undo
  | redo => exact d.sites_redo
  | ask r =>
    rw [act, after]
    have hresponds := responds_ask d r
    generalize d.ask r = o at hresponds ⊢
    cases hresponds with
    | idle hp => exact hp.sites
    | changes hp _ _ _ => exact (sites_perform _ _).trans hp.sites
    | writes hp _ => exact (sites_perform _ _).trans hp.sites

omit [Transport τ] in
theorem Aligned.of_sites (h : d.Aligned) (hsame : d'.scene.sites = d.scene.sites) : d'.Aligned := by
  obtain ⟨hbase, hmemory⟩ := Prod.mk.inj hsame
  intro address haddress
  exact (h address (hmemory ▸ haddress)).trans hbase.symm

omit [Transport τ] in
/-- attaching and relocating map the bytes where the tree is -/
theorem aligned_alignSource (d : Document τ) : d.alignSource.Aligned := by
  unfold alignSource
  split
  · next hlive =>
    intro address haddress
    rw [Source.memoryAt_of_isLive hlive] at haddress
    cases haddress
  · exact fun _ => Source.eq_of_memoryAt_rebase

theorem Aligned.turn (h : d.Aligned) (t : Turn τ) : (d.turn t).Aligned := by
  cases t with
  | act a => exact h.of_sites (d.sites_act a)
  | attach s path => exact aligned_alignSource { d.withSource s with dataPath := none }
  | relocate base => exact aligned_alignSource _
  | limit n => exact h

/-- **In an open document the bytes in memory are mapped where the tree is.** -/
theorem Opened.aligned (h : d.Opened) : d.Aligned := by
  induction h with
  | start => exact fun _ haddress => absurd haddress (by simp [ofTree, source, Source.memoryAt])
  | turn _ t ih => exact ih.turn t
  | perform _ e ih => exact ih.of_sites (sites_perform _ e)
  | @view d _ ih => exact ih.of_sites (congrArg (d.tree.base, ·) (Listing.Row.memoryAt_fillAll d.source d.listing))
  | configure _ _ _ ih => exact ih

end Document

end ByteAtlas
