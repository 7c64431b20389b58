/-
A document is a cursor over a list of snapshots. Over a formed tree and bytes in memory, whatever is done in whatever
order, going back and forth never fails and shows exactly what was seen before.

- `Timeline`: what was seen before each recorded edit, what is seen, and what was seen before each edit taken back.
- `Edit.Leads`: an edit turns one snapshot into another when it is made and back when it is taken back, wherever these
  are seen. A faithful edit leads from what was seen before it to what is seen after it.
- `Document.Tracks`: every edit of the history leads from one snapshot of the timeline to the next. One action keeps this.
- `Document.follows_of_empty`: documents follow the timeline, and as many steps back and forth can be taken as edits are
  recorded.
-/
import ByteAtlas.Proofs.Document.Steps

namespace ByteAtlas

variable {τ : Type}

/-- the first elements of a list, as many as a history with a limit keeps; zero keeps everything -/
def keep {α : Type} (limit : UInt64) (xs : List α) : List α := if limit = 0 then xs else xs.take limit.toNat

/-- what was seen before each recorded edit, the newest first, what is seen, and what was seen before edits were taken
back, the last one taken back first -/
structure Timeline (τ : Type) where
  past : List (Snapshot τ)
  present : Snapshot τ
  future : List (Snapshot τ)

namespace Timeline

def back (tl : Timeline τ) : Timeline τ :=
  match tl.past with
  | [] => tl
  | p :: past => ⟨past, p, tl.present :: tl.future⟩

def forth (tl : Timeline τ) : Timeline τ :=
  match tl.future with
  | [] => tl
  | p :: future => ⟨tl.present :: tl.past, p, future⟩

theorem length_past_back (tl : Timeline τ) : tl.back.past.length = tl.past.length - 1 := by
  obtain ⟨past, present, future⟩ := tl
  cases past <;> simp [back]

theorem length_future_forth (tl : Timeline τ) : tl.forth.future.length = tl.future.length - 1 := by
  obtain ⟨past, present, future⟩ := tl
  cases future <;> simp [forth]

/-- something new is seen after an edit; what lies ahead is dropped, and what lies too far back -/
def record (limit : UInt64) (tl : Timeline τ) (new : Snapshot τ) : Timeline τ :=
  ⟨keep limit (tl.present :: tl.past), new, []⟩

end Timeline

theorem Scene.Ready.alike {s s' : Scene τ} (h : s.Ready) (h' : s'.Ready) (e : s.snapshot = s'.snapshot) : s.Alike s' := by
  simp only [Scene.snapshot, Snapshot.mk.injEq] at e
  exact ⟨h.tree.alike h'.tree e.1 e.2.1, e.2.2⟩

/-! ## Edits that lead from one snapshot to another -/

/-- edits beside snapshots, each related to its own snapshot and the one before in the list, the first one to `y` -/
inductive Along (R : Edit → Snapshot τ → Snapshot τ → Prop) : List Edit → List (Snapshot τ) → Snapshot τ → Prop
  | nil {y : Snapshot τ} : Along R [] [] y
  | cons {e : Edit} {es : List Edit} {x : Snapshot τ} {xs : List (Snapshot τ)} {y : Snapshot τ} (head : R e x y)
    (tail : Along R es xs x) : Along R (e :: es) (x :: xs) y

namespace Along

variable {R : Edit → Snapshot τ → Snapshot τ → Prop} {es : List Edit} {xs : List (Snapshot τ)} {y : Snapshot τ}

theorem length_eq (h : Along R es xs y) : es.length = xs.length := by
  induction h with
  | nil => rfl
  | cons _ _ ih => rw [List.length_cons, List.length_cons, ih]

theorem take (h : Along R es xs y) (n : Nat) : Along R (es.take n) (xs.take n) y := by
  induction h generalizing n with
  | nil =>
    rw [List.take_nil, List.take_nil]
    exact .nil
  | cons head _ ih =>
    cases n with
    | zero => exact .nil
    | succ n => exact .cons head (ih n)

theorem cut (h : Along R es xs y) (limit : UInt64) : Along R (History.cut limit es) (keep limit xs) y := by
  unfold History.cut keep
  split
  · exact h
  · exact h.take _

end Along

variable [Transport τ]

/-- where the first snapshot is seen, the edit can be made and shows the second one; where the second one is seen, it can
be taken back and shows the first one -/
structure Edit.Leads (e : Edit) (p q : Snapshot τ) : Prop where
  forth : ∀ s : Scene τ, s.Ready → s.snapshot = p → ∃ s', e.apply s = (.ok (), s') ∧ s'.Ready ∧ s'.snapshot = q
  back : ∀ s : Scene τ, s.Ready → s.snapshot = q → ∃ s', e.retract s = (.ok (), s') ∧ s'.Ready ∧ s'.snapshot = p

/-- a faithful edit leads from what was seen before it to what is seen after it -/
theorem Edit.leads_of_faithful {e : Edit} {s s' : Scene τ} (h : s.Ready) (hf : Faithful e s)
    (happ : e.apply s = (.ok (), s')) : e.Leads s.snapshot s'.snapshot := by
  obtain ⟨hready, s₀, hback, hs₀⟩ := (e.exact_of_faithful h hf).made s' happ
  constructor
  · intro s₁ h₁ e₁
    obtain ⟨s₂, happ₂, hs₂⟩ := Exact.again happ (h₁.alike h e₁)
    exact ⟨s₂, happ₂, hs₂.symm.ready hready, hs₂.snapshot⟩
  · intro s₁ h₁ e₁
    obtain ⟨hr, hs₂⟩ := e.retract_alike (h₁.alike hready e₁)
    rw [hback] at hr hs₂
    generalize e.retract s₁ = o at hr hs₂ ⊢
    obtain ⟨r, s₂⟩ := o
    obtain rfl : r = .ok () := hr
    have halike := hs₂.trans hs₀
    exact ⟨s₂, rfl, halike.symm.ready h, halike.snapshot⟩

namespace Document

/-! ## The invariant -/

/-- what is seen of a document, and how many steps it can go back and forth -/
structure Shows (d : Document τ) (tl : Timeline τ) : Prop where
  present : d.scene.snapshot = tl.present
  done : d.history.done.length = tl.past.length
  undone : d.history.undone.length = tl.future.length

/-- the edits of the history lead along the timeline -/
structure Tracks (d : Document τ) (tl : Timeline τ) : Prop where
  ready : d.scene.Ready
  present : d.scene.snapshot = tl.present
  past : Along Edit.Leads d.history.done tl.past tl.present
  future : Along (fun e q p => e.Leads p q) d.history.undone tl.future tl.present

variable {d d₁ : Document τ} {tl : Timeline τ}

theorem Tracks.shows (h : d.Tracks tl) : d.Shows tl := ⟨h.present, h.past.length_eq, h.future.length_eq⟩

theorem Tracks.undo (h : d.Tracks tl) : d.undo.1 = .ok (!tl.past.isEmpty) ∧ d.undo.2.Tracks tl.back := by
  obtain ⟨past, present, future⟩ := tl
  obtain ⟨hready, hpresent, hpast, hfuture⟩ := h
  simp only at hpresent hpast hfuture
  generalize hdone : d.history.done = done at hpast
  cases hpast with
  | nil =>
    rw [undo_of_nil hdone]
    exact ⟨rfl, hready, hpresent, hdone ▸ .nil, hfuture⟩
  | cons hlead hrest =>
    obtain ⟨s', hback, hready', hs'⟩ := hlead.back d.scene hready hpresent
    rw [undo_of_ok hdone hback]
    exact ⟨rfl, hready', hs', hrest, .cons hlead hfuture⟩

theorem Tracks.redo (h : d.Tracks tl) : d.redo.1 = .ok (!tl.future.isEmpty) ∧ d.redo.2.Tracks tl.forth := by
  obtain ⟨past, present, future⟩ := tl
  obtain ⟨hready, hpresent, hpast, hfuture⟩ := h
  simp only at hpresent hpast hfuture
  generalize hundone : d.history.undone = undone at hfuture
  cases hfuture with
  | nil =>
    rw [redo_of_nil hundone]
    exact ⟨rfl, hready, hpresent, hpast, hundone ▸ .nil⟩
  | cons hlead hrest =>
    obtain ⟨s', happ, hready', hs'⟩ := hlead.forth d.scene hready hpresent
    rw [redo_of_ok hundone happ]
    exact ⟨rfl, hready', hs', .cons hlead hpast, hrest⟩

theorem Tracks.primed (h : d.Tracks tl) (hp : d.Primed d₁) : d₁.Tracks tl := by
  obtain ⟨b, hb⟩ := h.ready.memory
  have hsource : d₁.scene.source = d.scene.source := (hp.memory b hb).trans hb.symm
  refine ⟨⟨hp.spent.formed h.ready.tree, b, hp.memory b hb⟩, ?_, hp.history ▸ h.past, hp.history ▸ h.future⟩
  rw [← h.present, Scene.snapshot, Scene.snapshot, hsource]
  exact congrArg₂ (Snapshot.mk · · _) hp.spent.base hp.spent.nodes

/-- a faithful edit is refused without a trace, or recorded -/
theorem Tracks.perform (h : d.Tracks tl) {e : Edit} (hf : Faithful e d.scene) :
    ((d.perform e).2.history = d.history ∧ (d.perform e).2.Tracks tl) ∨
      ((d.perform e).2.history = d.history.record e ∧
        (d.perform e).2.Tracks (tl.record d.history.limit (d.perform e).2.scene.snapshot)) := by
  cases happ : e.apply d.scene with
  | mk r s =>
    cases r with
    | error err =>
      rw [perform_of_error happ]
      have halike := (e.exact_of_faithful h.ready hf).refused err s happ
      exact Or.inl ⟨rfl, halike.symm.ready h.ready, halike.snapshot.trans h.present, h.past, h.future⟩
    | ok _ =>
      rw [perform_of_ok happ]
      have hlead := e.leads_of_faithful h.ready hf happ
      have hready := ((e.exact_of_faithful h.ready hf).made s happ).1
      rw [h.present] at hlead
      exact Or.inr ⟨rfl, hready, rfl, (Along.cons hlead h.past).cut _, .nil⟩

/-- what is asked leaves what is seen as it was, or is one recorded edit -/
theorem Tracks.after (h : d.Tracks tl) (r : Request) :
    ((d.after r).history = d.history ∧ (d.after r).Tracks tl) ∨
      ∃ e, (d.after r).history = d.history.record e ∧
        (d.after r).Tracks (tl.record d.history.limit (d.after r).scene.snapshot) := by
  have hcomes := comes_after h.ready.tree r
  generalize d.after r = d' at hcomes ⊢
  cases hcomes with
  | idle hp => exact Or.inl ⟨hp.history, h.primed hp⟩
  | @performs d₁ e hp hf _ =>
    rcases (h.primed hp).perform (hf h.ready.memory) with ⟨hh, ht⟩ | ⟨hh, ht⟩
    · exact Or.inl ⟨hh.trans hp.history, ht⟩
    · rw [hp.history] at hh ht
      exact Or.inr ⟨e, hh, ht⟩

/-! ## Runs -/

/-- At every moment of a run the document shows the timeline. A step back or forth is never refused, tells whether there
was one, and moves the cursor. What is asked leaves history and timeline as they are, or is recorded in both. -/
def Follows : Document τ → Timeline τ → List Action → Prop
  | d, tl, [] => d.Shows tl
  | d, tl, .undo :: rest => d.Shows tl ∧ d.undo.1 = .ok (!tl.past.isEmpty) ∧ Follows d.undo.2 tl.back rest
  | d, tl, .redo :: rest => d.Shows tl ∧ d.redo.1 = .ok (!tl.future.isEmpty) ∧ Follows d.redo.2 tl.forth rest
  | d, tl, .ask r :: rest => d.Shows tl ∧
    (((d.after r).history = d.history ∧ Follows (d.after r) tl rest) ∨
      ∃ e, (d.after r).history = d.history.record e ∧
        Follows (d.after r) (tl.record d.history.limit (d.after r).scene.snapshot) rest)

theorem Tracks.follows (h : d.Tracks tl) (actions : List Action) : d.Follows tl actions := by
  induction actions generalizing d tl with
  | nil => exact h.shows
  | cons a rest ih =>
    cases a with
    | undo => exact ⟨h.shows, h.undo.1, ih h.undo.2⟩
    | redo => exact ⟨h.shows, h.redo.1, ih h.redo.2⟩
    | ask r =>
      refine ⟨h.shows, ?_⟩
      rcases h.after r with ⟨hh, ht⟩ | ⟨e, hh, ht⟩
      · exact Or.inl ⟨hh, ih ht⟩
      · exact Or.inr ⟨e, hh, ih ht⟩

def acts (d : Document τ) (actions : List Action) : Document τ := actions.foldl act d

theorem Tracks.exists_acts (h : d.Tracks tl) (actions : List Action) : ∃ tl', (d.acts actions).Tracks tl' := by
  induction actions generalizing d tl with
  | nil => exact ⟨tl, h⟩
  | cons a rest ih =>
    cases a with
    | undo => exact ih h.undo.2
    | redo => exact ih h.redo.2
    | ask r =>
      rcases h.after r with ⟨-, ht⟩ | ⟨e, -, ht⟩
      · exact ih ht
      · exact ih ht

/-- a step back after `k` others is there exactly if more than `k` edits are done -/
theorem Tracks.undos (h : d.Tracks tl) (k : Nat) :
    ((d.acts (List.replicate k .undo)).undo).1 = .ok (decide (k < d.history.done.length)) := by
  induction k generalizing d tl with
  | zero =>
    rw [h.past.length_eq]
    refine h.undo.1.trans (congrArg Except.ok ?_)
    cases tl.past <;> simp
  | succ k ih =>
    have hlen : d.undo.2.history.done.length = d.history.done.length - 1 := by
      rw [h.past.length_eq, h.undo.2.past.length_eq, Timeline.length_past_back]
    calc ((d.acts (List.replicate (k + 1) .undo)).undo).1
        = ((d.undo.2.acts (List.replicate k .undo)).undo).1 := by
          rw [List.replicate_succ, acts, List.foldl_cons]
          rfl
      _ = .ok (decide (k < d.history.done.length - 1)) := by rw [ih h.undo.2, hlen]
      _ = .ok (decide (k + 1 < d.history.done.length)) := congrArg Except.ok (decide_eq_decide.2 (by omega))

theorem Tracks.redos (h : d.Tracks tl) (k : Nat) :
    ((d.acts (List.replicate k .redo)).redo).1 = .ok (decide (k < d.history.undone.length)) := by
  induction k generalizing d tl with
  | zero =>
    rw [h.future.length_eq]
    refine h.redo.1.trans (congrArg Except.ok ?_)
    cases tl.future <;> simp
  | succ k ih =>
    have hlen : d.redo.2.history.undone.length = d.history.undone.length - 1 := by
      rw [h.future.length_eq, h.redo.2.future.length_eq, Timeline.length_future_forth]
    calc ((d.acts (List.replicate (k + 1) .redo)).redo).1
        = ((d.redo.2.acts (List.replicate k .redo)).redo).1 := by
          rw [List.replicate_succ, acts, List.foldl_cons]
          rfl
      _ = .ok (decide (k < d.history.undone.length - 1)) := by rw [ih h.redo.2, hlen]
      _ = .ok (decide (k + 1 < d.history.undone.length)) := congrArg Except.ok (decide_eq_decide.2 (by omega))

/-- **A document is a cursor over snapshots.** Whatever is asked of a document over a formed tree and bytes in memory, mixed
in any order with steps back and forth, it follows its timeline; and at any moment exactly as many steps back and forth can
be taken as there are edits done and undone. -/
theorem follows_of_empty {b : Buffer} (ht : d.tree.Formed) (hb : d.source = .buffer b) (hdone : d.history.done = [])
    (hundone : d.history.undone = []) (actions : List Action) :
    d.Follows ⟨[], d.scene.snapshot, []⟩ actions ∧ ∀ k,
      ((d.acts (actions ++ List.replicate k .undo)).undo).1 = .ok (decide (k < (d.acts actions).history.done.length)) ∧
      ((d.acts (actions ++ List.replicate k .redo)).redo).1 = .ok (decide (k < (d.acts actions).history.undone.length)) := by
  have h : d.Tracks ⟨[], d.scene.snapshot, []⟩ := ⟨⟨ht, b, hb⟩, rfl, hdone ▸ .nil, hundone ▸ .nil⟩
  refine ⟨h.follows actions, fun k => ?_⟩
  obtain ⟨tl, htl⟩ := h.exists_acts actions
  rw [acts, acts, acts, List.foldl_append, List.foldl_append]
  exact ⟨htl.undos k, htl.redos k⟩

def pairDocument : Document Image := (ofTree Tree.pair).attachBytes [1, 2, 3, 4]

/-- a value is written, the struct copied, and both are taken back; then a label is changed, and nothing lies ahead -/
theorem follows_pair :
    let actions : List Action :=
      [.ask (.writeText 2 "7"), .ask (.copy 1), .undo, .undo, .redo, .ask (.rename 3 "last"), .redo]
    pairDocument.Follows ⟨[], pairDocument.scene.snapshot, []⟩ actions ∧
      (pairDocument.acts actions).history.done.length = 2 ∧
      ((pairDocument.acts (actions ++ List.replicate 1 .undo)).undo).1 = .ok true ∧
      ((pairDocument.acts (actions ++ List.replicate 2 .undo)).undo).1 = .ok false := by
  intro actions
  have ht : pairDocument.tree.Formed := (Tree.wellFormed_ofNodes Tree.ofNodes_pair).toFormed
  obtain ⟨hfollows, havailable⟩ := follows_of_empty ht rfl rfl rfl actions
  have hlen : (pairDocument.acts actions).history.done.length = 2 := by decide
  refine ⟨hfollows, hlen, ?_, ?_⟩
  · rw [(havailable 1).1, hlen]
    rfl
  · rw [(havailable 2).1, hlen]
    rfl

end Document

end ByteAtlas
