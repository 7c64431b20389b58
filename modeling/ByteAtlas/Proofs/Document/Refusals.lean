/-
What is refused leaves no trace. A document is asked for edits, goes back and forth in its history, and is viewed against
one source after the other and at one base after the other, in any order; of the sources only that is known that their
bytes change by nothing but writes that succeed. A step back can then be refused, since the source of the moment may not
take the bytes, but it is refused as a whole.

- `Edit.Passes`: an edit of the tree leads from one tree to another, a write leaves the tree. Where the first tree is
  seen, the edit shows the second or is refused without a trace, whatever the source (`Edit.Passes.forth`), and so
  backwards (`Edit.Passes.back`).
- `Document.Treads`: every edit of the history passes from one tree of a timeline to the next. One turn keeps this.
- `Document.untouched_of_refused`: at every moment of a run, what is refused leaves the document as it was, and what is
  done leaves it as it was or adds one step.
-/
import ByteAtlas.Proofs.Document.Timeline

namespace ByteAtlas

variable {τ : Type} [Transport τ]

/-! ## Edits against any source -/

/-- a formed tree against a source whose bytes change only when a write succeeds -/
structure Scene.Settled (s : Scene τ) : Prop where
  tree : s.tree.Formed
  source : s.source.Settled

/-- what comes of an edit against such a source: a tree that is known beforehand, or a refusal without a trace -/
structure Scene.Lands (s : Scene τ) (q : Snapshot τ) (o : Outcome (Scene τ) Unit) : Prop where
  settled : o.2.Settled
  done : o.1 = .ok () → o.2.bare.snapshot = q
  refused : ∀ err, o.1 = .error err → o.2.tree.Alike s.tree ∧ s.source.SameBytes o.2.source

namespace Edit

variable {e : Edit} {s : Scene τ} {p q : Snapshot τ}

theorem write_lands (h : s.Settled) (address : UInt64) (bs : Bytes) :
    s.Lands s.bare.snapshot (s.write address bs) := by
  have hsettled := h.source.write address bs
  have hrefused := h.source.refused s.source .refl address bs
  unfold Scene.write
  generalize s.source.write address bs = o at hsettled hrefused ⊢
  obtain ⟨written, source⟩ := o
  cases written with
  | true => exact ⟨⟨h.tree, hsettled⟩, fun _ => rfl, by simp⟩
  | false => exact ⟨⟨h.tree, hsettled⟩, by simp, fun _ _ => ⟨.refl _, hrefused rfl⟩⟩

/-- an edit of the tree that leads from one tree to another, or a write, which leaves the tree -/
inductive Passes : Edit → Snapshot τ → Snapshot τ → Prop
  | tree {e : Edit} {p q : Snapshot τ} (quiet : e.Quiet) (leads : e.Leads p q) : Passes e p q
  | write (address : UInt64) (old new : Bytes) (p : Snapshot τ) : Passes (.write address old new) p p

/-- what becomes of the nodes alone becomes of them against any source that stays -/
theorem lands_of_bare (hs : s.Settled) {o : Outcome (Scene τ) Unit} {s' : Scene τ} (hsource : o.2.source = s.source)
    (hbare : (o.1, o.2.bare) = (.ok (), s')) (hready : s'.Ready) (hq : s'.snapshot = q) : s.Lands q o := by
  obtain ⟨hr, rfl⟩ := Prod.mk.inj hbare
  refine ⟨⟨Tree.formed_of_mapped hready.tree, ?_⟩, fun _ => hq, fun err herr => ?_⟩
  · rw [hsource]
    exact hs.source
  · simp [hr] at herr

theorem Passes.forth (h : e.Passes p q) (hs : s.Settled) (hp : s.bare.snapshot = p) : s.Lands q (e.apply s) := by
  cases h with
  | write address old new p =>
    rw [apply, ← hp]
    exact write_lands hs address new
  | tree quiet leads =>
    obtain ⟨s', happ, hready, hq⟩ := leads.forth s.bare (Scene.ready_bare hs.tree) hp
    obtain ⟨-, hsource, hbare⟩ := quiet.apply_elsewhere s 0 .void
    exact lands_of_bare hs hsource (hbare.symm.trans happ) hready hq

theorem Passes.back (h : e.Passes p q) (hs : s.Settled) (hq : s.bare.snapshot = q) : s.Lands p (e.retract s) := by
  cases h with
  | write address old new p =>
    rw [retract, ← hq]
    exact write_lands hs address old
  | tree quiet leads =>
    obtain ⟨s', hback, hready, hp⟩ := leads.back s.bare (Scene.ready_bare hs.tree) hq
    obtain ⟨-, hsource, hbare⟩ := quiet.retract_elsewhere s 0 .void
    exact lands_of_bare hs hsource (hbare.symm.trans hback) hready hp

/-- an edit that is made for the first time: it lands somewhere, and passes there if it is done -/
structure Opens (e : Edit) (s : Scene τ) : Prop where
  lands : s.Lands (e.apply s).2.bare.snapshot (e.apply s)
  passes : (e.apply s).1 = .ok () → e.Passes s.bare.snapshot (e.apply s).2.bare.snapshot

theorem opens_write (h : s.Settled) (address : UInt64) (old new : Bytes) : (write address old new).Opens s := by
  have hsame : (s.write address new).2.bare.snapshot = s.bare.snapshot := by
    rw [Scene.bare, Scene.bare, Scene.elsewhere, Scene.elsewhere, tree_write]
  refine ⟨?_, fun _ => ?_⟩
  · rw [apply, hsame]
    exact write_lands h address new
  · rw [apply, hsame]
    exact .write address old new _

theorem Quiet.opens (h : e.Quiet) (hs : s.Settled) (hf : Faithful e s) : e.Opens s := by
  have hready := Scene.ready_bare hs.tree
  have hfaithful := h.faithful_elsewhere 0 .void hf
  have helsewhere := h.apply_elsewhere s 0 .void
  cases happ : e.apply s with
  | mk r s' =>
    rw [happ] at helsewhere
    obtain ⟨-, hsource : s'.source = s.source, hbare⟩ := helsewhere
    have hsettled : s'.source.Settled := hsource ▸ hs.source
    cases r with
    | error err =>
      have halike := h.refused hs.tree hf happ
      have hformed : s'.tree.Formed := halike.tree.symm.formed hs.tree
      refine ⟨?_, by simp [happ]⟩
      rw [happ]
      refine ⟨⟨hformed, hsettled⟩, by simp, fun _ _ => ⟨halike.tree, ?_⟩⟩
      rw [hsource]
      exact .refl _
    | ok _ =>
      have hformed := Tree.formed_of_mapped ((e.exact_of_faithful hready hfaithful).made _ hbare).1.tree
      have hleads := e.leads_of_faithful hready hfaithful hbare
      refine ⟨?_, ?_⟩
      · rw [happ]
        exact ⟨⟨hformed, hsettled⟩, fun _ => rfl, by simp⟩
      · rw [happ]
        exact fun _ => .tree h hleads

end Edit

namespace Document

/-! ## What can become of a document -/

/-- two documents of which the same is seen, with one history; only new ids may have been spent -/
structure Untouched (d d' : Document τ) : Prop where
  base : d'.tree.base = d.tree.base
  nodes : d'.tree.nodes = d.tree.nodes
  bytes : d.source.SameBytes d'.source
  history : d'.history = d.history
  nextId : d.tree.nextId ≤ d'.tree.nextId

/-- an edit is the newest step, nothing can be made again, and only steps past the limit are dropped -/
structure Adds (d d' : Document τ) (e : Edit) : Prop where
  done : d'.history.done = keep d.history.limit (e :: d.history.done)
  undone : d'.history.undone = []
  limit : d'.history.limit = d.history.limit

/-- a refusal leaves the document untouched, and so does what is done unless it adds a step -/
structure Answers (d : Document τ) (o : Outcome (Document τ) Unit) : Prop where
  refused : ∀ err, o.1 = .error err → d.Untouched o.2
  done : o.1 = .ok () → d.Untouched o.2 ∨ ∃ e, d.Adds o.2 e

variable {d d₁ d₂ : Document τ} {tl : Timeline τ} {e : Edit}

theorem Untouched.trans (h : d.Untouched d₁) (h' : d₁.Untouched d₂) : d.Untouched d₂ where
  base := h'.base.trans h.base
  nodes := h'.nodes.trans h.nodes
  bytes := h.bytes.trans h'.bytes
  history := h'.history.trans h.history
  nextId := UInt64.le_trans h.nextId h'.nextId

theorem Prepares.untouched (h : d.Prepares d₁) (hs : d.source.Settled) : d.Untouched d₁ :=
  ⟨h.spent.base, h.spent.nodes, (hs.ask h.source).2, h.history, h.spent.le⟩

theorem Untouched.adds (h : d.Untouched d₁) (ha : d₁.Adds d₂ e) : d.Adds d₂ e := by
  obtain ⟨hdone, hundone, hlimit⟩ := ha
  rw [h.history] at hdone hlimit
  exact ⟨hdone, hundone, hlimit⟩

theorem Untouched.answers (h : d.Untouched d₁) {o : Outcome (Document τ) Unit} (ha : d₁.Answers o) : d.Answers o where
  refused err herr := h.trans (ha.refused err herr)
  done hok := (ha.done hok).imp h.trans fun ⟨e, he⟩ => ⟨e, h.adds he⟩

/-! ## The invariant -/

/-- every edit of the history passes from one tree of the timeline to the next -/
structure Treads (d : Document τ) (tl : Timeline τ) : Prop where
  settled : d.scene.Settled
  present : d.scene.bare.snapshot = tl.present
  past : Along Edit.Passes d.history.done tl.past tl.present
  future : Along (fun e q p => e.Passes p q) d.history.undone tl.future tl.present

/-- a refusal leaves document and timeline as they were -/
theorem Treads.refused (h : d.Treads tl) {q : Snapshot τ} {err : EditError} {s : Scene τ}
    (hl : d.scene.Lands q (.error err, s)) (hid : d.tree.nextId ≤ s.tree.nextId) :
    Treads { d with session := ⟨s, d.history⟩ } tl ∧ d.Untouched { d with session := ⟨s, d.history⟩ } := by
  obtain ⟨htree, hbytes⟩ := hl.refused err rfl
  refine ⟨⟨hl.settled, ?_, h.past, h.future⟩, htree.base, htree.nodes, hbytes, rfl, hid⟩
  rw [← h.present]
  exact congrArg (Snapshot.mk 0 · Source.void) htree.nodes

theorem Treads.undo (h : d.Treads tl) :
    (∃ tl', d.undo.2.Treads tl') ∧ ∀ err, d.undo.1 = .error err → d.Untouched d.undo.2 := by
  obtain ⟨past, present, future⟩ := tl
  have hpast : Along Edit.Passes d.history.done past present := h.past
  generalize hdone : d.history.done = done at hpast
  cases hpast with
  | nil =>
    rw [undo_of_nil hdone]
    exact ⟨⟨_, h⟩, by simp⟩
  | @cons e es x xs _ hpass hrest =>
    have hlands := hpass.back h.settled h.present
    have hid := (e.nextId_carries d.scene trivial).2
    cases hback : e.retract d.scene with
    | mk r s =>
      rw [hback] at hlands hid
      cases r with
      | error err =>
        rw [undo_of_error hdone hback]
        obtain ⟨htreads, huntouched⟩ := h.refused hlands hid
        exact ⟨⟨_, htreads⟩, fun _ _ => huntouched⟩
      | ok _ =>
        rw [undo_of_ok hdone hback]
        refine ⟨⟨⟨xs, x, present :: future⟩, ?_⟩, by simp⟩
        exact ⟨hlands.settled, hlands.done rfl, hrest, .cons hpass h.future⟩

theorem Treads.redo (h : d.Treads tl) :
    (∃ tl', d.redo.2.Treads tl') ∧ ∀ err, d.redo.1 = .error err → d.Untouched d.redo.2 := by
  obtain ⟨past, present, future⟩ := tl
  have hfuture : Along (fun e q p => e.Passes p q) d.history.undone future present := h.future
  generalize hundone : d.history.undone = undone at hfuture
  cases hfuture with
  | nil =>
    rw [redo_of_nil hundone]
    exact ⟨⟨_, h⟩, by simp⟩
  | @cons e es x xs _ hpass hrest =>
    have hlands := hpass.forth h.settled h.present
    have hid := (e.nextId_carries d.scene trivial).1
    cases happ : e.apply d.scene with
    | mk r s =>
      rw [happ] at hlands hid
      cases r with
      | error err =>
        rw [redo_of_error hundone happ]
        obtain ⟨htreads, huntouched⟩ := h.refused hlands hid
        exact ⟨⟨_, htreads⟩, fun _ _ => huntouched⟩
      | ok _ =>
        rw [redo_of_ok hundone happ]
        refine ⟨⟨⟨present :: past, x, xs⟩, ?_⟩, by simp⟩
        exact ⟨hlands.settled, hlands.done rfl, .cons hpass h.past, hrest⟩

theorem Treads.prepared (h : d.Treads tl) (hp : d.Prepares d₁) : d₁.Treads tl where
  settled := ⟨hp.spent.formed h.settled.tree, (h.settled.source.ask hp.source).1⟩
  present := by
    rw [← h.present]
    exact congrArg (Snapshot.mk 0 · Source.void) hp.spent.nodes
  past := hp.history ▸ h.past
  future := hp.history ▸ h.future

/-- an edit is refused without a trace, or it is the newest step -/
theorem Treads.perform (h : d.Treads tl) (ho : e.Opens d.scene) :
    (∃ tl', (d.perform e).2.Treads tl') ∧ d.Answers (d.perform e) := by
  obtain ⟨hlands, hpasses⟩ := ho
  have hid := (e.nextId_carries d.scene trivial).1
  cases happ : e.apply d.scene with
  | mk r s =>
    rw [happ] at hlands hpasses hid
    cases r with
    | error err =>
      rw [perform_of_error happ]
      obtain ⟨htreads, huntouched⟩ := h.refused hlands hid
      exact ⟨⟨tl, htreads⟩, fun _ _ => huntouched, by simp⟩
    | ok _ =>
      rw [perform_of_ok happ]
      have hpass := hpasses rfl
      rw [h.present] at hpass
      refine ⟨⟨tl.record d.history.limit s.bare.snapshot, ?_⟩, by simp, fun _ => Or.inr ⟨e, rfl, rfl, rfl⟩⟩
      exact ⟨hlands.settled, rfl, (Along.cons hpass h.past).cut _, .nil⟩

/-- what is asked is an edit after preparations, or no more than these -/
theorem Treads.ask (h : d.Treads tl) (r : Request) : (∃ tl', (d.ask r).2.Treads tl') ∧ d.Answers (d.ask r) := by
  have hperform : ∀ {d₁ : Document τ} {e : Edit}, d.Prepares d₁ → e.Opens d₁.scene →
      (∃ tl', (d₁.perform e).2.Treads tl') ∧ d.Answers (d₁.perform e) := by
    intro d₁ e hp ho
    obtain ⟨htreads, hanswers⟩ := (h.prepared hp).perform ho
    exact ⟨htreads, (hp.untouched h.settled.source).answers hanswers⟩
  have hresponds := responds_ask d r
  generalize d.ask r = o at hresponds ⊢
  cases hresponds with
  | idle hp =>
    have huntouched := hp.untouched h.settled.source
    exact ⟨⟨tl, h.prepared hp⟩, fun _ _ => huntouched, fun _ => Or.inl huntouched⟩
  | changes hp hquiet hf _ => exact hperform hp (hquiet.opens (h.prepared hp).settled (hf h.settled.tree))
  | writes hp _ => exact hperform hp (Edit.opens_write (h.prepared hp).settled _ _ _)

/-! ## Runs -/

/-- something that can happen to an open document: an action, another source, another base, or another limit for the
history -/
inductive Turn (τ : Type) where
  | act (a : Action)
  | attach (s : Source τ) (path : Option String)
  | relocate (base : UInt64)
  | limit (n : UInt64)

def turn (d : Document τ) : Turn τ → Document τ
  | .act a => d.act a
  | .attach s path => { d.attach s with dataPath := path }
  | .relocate base => d.relocate base
  | .limit n => d.withLimit n

def turns (d : Document τ) (ts : List (Turn τ)) : Document τ := ts.foldl turn d

/-- a turn that brings no source but a settled one -/
def Turn.Settled : Turn τ → Prop
  | .attach s _ => s.Settled
  | _ => True

theorem Treads.alignSource (h : d.Treads tl) : d.alignSource.Treads tl := by
  unfold Document.alignSource
  split
  · exact h
  · exact ⟨⟨h.settled.tree, h.settled.source.rebase _⟩, h.present, h.past, h.future⟩

theorem Treads.attach (h : d.Treads tl) {s : Source τ} (hs : s.Settled) : (d.attach s).Treads tl := by
  have hattached : Treads { d.withSource s with dataPath := none } tl :=
    ⟨⟨h.settled.tree, hs⟩, h.present, h.past, h.future⟩
  exact hattached.alignSource

/-- edits do not see where the tree is mapped, so the history goes on to lead along the timeline -/
theorem Treads.relocate (h : d.Treads tl) (base : UInt64) : (d.relocate base).Treads tl := by
  have hmapped : (d.withTree (d.tree.mapped base)).Treads tl :=
    ⟨⟨h.settled.tree.mapped base, h.settled.source⟩, h.present, h.past, h.future⟩
  exact hmapped.alignSource

theorem Treads.turn (h : d.Treads tl) {t : Turn τ} (ht : t.Settled) : ∃ tl', (d.turn t).Treads tl' := by
  cases t with
  | act a =>
    cases a with
    | undo => exact h.undo.1
    | redo => exact h.redo.1
    | ask r => exact (h.ask r).1
  | attach s path =>
    have hattached := h.attach (s := s) ht
    exact ⟨tl, hattached.settled, hattached.present, hattached.past, hattached.future⟩
  | relocate base => exact ⟨tl, h.relocate base⟩
  | limit n => exact ⟨⟨keep n tl.past, tl.present, tl.future⟩, h.settled, h.present, h.past.cut n, h.future⟩

theorem Treads.turns (h : d.Treads tl) {ts : List (Turn τ)} (hts : ∀ t ∈ ts, t.Settled) :
    ∃ tl', (d.turns ts).Treads tl' := by
  induction ts generalizing d tl with
  | nil => exact ⟨tl, h⟩
  | cons t rest ih =>
    obtain ⟨ht, hrest⟩ := List.forall_mem_cons.1 hts
    obtain ⟨tl', h'⟩ := h.turn ht
    exact ih h' hrest

/-- **What is refused leaves no trace.** Start with a formed tree and an empty history, and let requests, steps back and
forth, other sources, bases and limits follow in any order, all sources being such that their bytes change only when a write
succeeds. A request or a step back or forth that is then refused leaves nodes, base, bytes and history as they were. A
request that is done leaves them so as well, or adds one step. -/
theorem untouched_of_refused (ht : d.tree.Formed) (hs : d.source.Settled) (hdone : d.history.done = [])
    (hundone : d.history.undone = []) (ts : List (Turn τ)) (hts : ∀ t ∈ ts, t.Settled) :
    (∀ r err, ((d.turns ts).ask r).1 = .error err → (d.turns ts).Untouched ((d.turns ts).ask r).2) ∧
    (∀ r, ((d.turns ts).ask r).1 = .ok () →
      (d.turns ts).Untouched ((d.turns ts).ask r).2 ∨ ∃ e, (d.turns ts).Adds ((d.turns ts).ask r).2 e) ∧
    (∀ err, (d.turns ts).undo.1 = .error err → (d.turns ts).Untouched (d.turns ts).undo.2) ∧
    ∀ err, (d.turns ts).redo.1 = .error err → (d.turns ts).Untouched (d.turns ts).redo.2 := by
  have h : d.Treads ⟨[], d.scene.bare.snapshot, []⟩ := ⟨⟨ht, hs⟩, rfl, hdone ▸ .nil, hundone ▸ .nil⟩
  obtain ⟨tl, h'⟩ := h.turns hts
  exact ⟨fun r => (h'.ask r).2.refused, fun r => (h'.ask r).2.done, h'.undo.2, h'.redo.2⟩

/-- memory that refuses writes at the address where the struct of two bytes starts -/
def refusingSource : Source Image :=
  .remote (.start ⟨"game", "Process", true, true, 0x1000⟩ ⟨0x1000, [5, 6], [], some 0x1000, none, false⟩)

/-- A value is written, and then memory is viewed that refuses writes there. The value cannot be taken back, and stays the
newest step. -/
theorem untouched_of_refused_swapped :
    let d := pairDocument.turns [.act (.ask (.writeText 2 "7")), .attach refusingSource none]
    d.undo.1 = .error (.writeFailed 0x1000 1) ∧ d.Untouched d.undo.2 ∧ d.history.done.length = 1 := by
  intro d
  have ht : pairDocument.tree.Formed := (Tree.wellFormed_ofNodes Tree.ofNodes_pair).toFormed
  have hs : pairDocument.source.Settled := Source.settled_of_harmless trivial
  have hrefusing : refusingSource.Settled := Source.settled_of_harmless (fun m hm => by
    obtain rfl := Option.some.inj hm
    rfl)
  have herr : d.undo.1 = .error (.writeFailed 0x1000 1) := by decide
  refine ⟨herr, ?_, by decide⟩
  refine (untouched_of_refused ht hs rfl rfl _ ?_).2.2.1 _ herr
  simp [Turn.Settled, hrefusing]

end Document

end ByteAtlas
