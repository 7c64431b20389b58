/-
Edits come in three sorts: changes of the tree, writes of bytes, and batches. A change of the tree is a pair of functions
on trees (`Edit.Change`); `Edit.induction` is the induction over edits that follows the three sorts.

Edits do not see how positions are kept nor which new id is next: on scenes that are alike they answer the same and leave
scenes that are alike (`Edit.apply_alike`, `Edit.retract_alike`). Batches are dealt with once for all relations of scenes
(`Edit.Keeps.batch`).
-/
import ByteAtlas.Proofs.Tree.Alike
import ByteAtlas.Edit.Apply

namespace ByteAtlas

variable {τ : Type}

/-! ## Three sorts of edits -/

/-- what an edit of the tree does, and what takes it back -/
structure Edit.Change where
  make : Tree → Except EditError Tree
  unmake : Tree → Except EditError Tree

/-- the change of the tree that an edit is; none for edits of bytes and for batches -/
def Edit.change? : Edit → Option Edit.Change
  | .insert nodes => some ⟨fun t => t.insert nodes, fun t => t.removeIds (nodes.map (·.id))⟩
  | .remove removed => some ⟨fun t => t.remove removed, fun t => t.putBack removed⟩
  | .reshape id old new => some ⟨fun t => t.reshape id new, fun t => t.reshape id old⟩
  | .rename id old new =>
    some ⟨fun t => t.modify id fun n => { n with name := new }, fun t => t.modify id fun n => { n with name := old }⟩
  | .nameStruct id old new =>
    some ⟨fun t => t.modify id fun n => { n with structName := new },
      fun t => t.modify id fun n => { n with structName := old }⟩
  | .move id old new => some ⟨fun t => t.move id new.1 new.2, fun t => t.move id old.1 old.2⟩
  | .fold id old new =>
    some ⟨fun t => t.modify id fun n => { n with collapsed := new },
      fun t => t.modify id fun n => { n with collapsed := old }⟩
  | .refer id old new =>
    some ⟨fun t => t.modify id fun n => { n with ref := new }, fun t => t.modify id fun n => { n with ref := old }⟩
  | .write .. => none
  | .batch _ => none

theorem Edit.apply_of_change [Transport τ] {e : Edit} {c : Edit.Change} (h : e.change? = some c) (s : Scene τ) :
    e.apply s = s.onTree c.make := by
  cases e <;> simp only [change?, Option.some.injEq, reduceCtorEq] at h <;> subst h <;> rfl

theorem Edit.retract_of_change [Transport τ] {e : Edit} {c : Edit.Change} (h : e.change? = some c) (s : Scene τ) :
    e.retract s = s.onTree c.unmake := by
  cases e <;> simp only [change?, Option.some.injEq, reduceCtorEq] at h <;> subst h <;> rfl

/-- the changes of a tree: nodes are added or removed, one is reshaped or moved, or a plain field is changed -/
@[elab_as_elim]
theorem Edit.change_cases {e : Edit} {c : Edit.Change} {motive : Edit.Change → Prop} (hc : e.change? = some c)
    (insert : ∀ ns, e = .insert ns → motive ⟨fun t => t.insert ns, fun t => t.removeIds (ns.map (·.id))⟩)
    (remove : ∀ removed, e = .remove removed → motive ⟨fun t => t.remove removed, fun t => t.putBack removed⟩)
    (reshape : ∀ id old new, e = .reshape id old new →
      motive ⟨fun t => t.reshape id new, fun t => t.reshape id old⟩)
    (move : ∀ id old new, e = .move id old new →
      motive ⟨fun t => t.move id new.1 new.2, fun t => t.move id old.1 old.2⟩)
    (field : ∀ id f g, Node.Plain f → Node.Plain g → motive ⟨fun t => t.modify id f, fun t => t.modify id g⟩) : motive c := by
  cases e with
  | insert ns => obtain rfl := Option.some.inj hc; exact insert ns rfl
  | remove removed => obtain rfl := Option.some.inj hc; exact remove removed rfl
  | reshape id old new => obtain rfl := Option.some.inj hc; exact reshape id old new rfl
  | move id old new => obtain rfl := Option.some.inj hc; exact move id old new rfl
  | rename id old new | nameStruct id old new | fold id old new | refer id old new =>
    obtain rfl := Option.some.inj hc
    exact field id _ _ (fun _ => ⟨rfl, rfl, rfl⟩) fun _ => ⟨rfl, rfl, rfl⟩
  | write _ _ _ => simp [change?] at hc
  | batch _ => simp [change?] at hc

/-- induction over the three sorts of edits -/
@[elab_as_elim]
theorem Edit.induction {motive : Edit → Prop} (change : ∀ e c, e.change? = some c → motive e)
    (write : ∀ address old new, motive (.write address old new))
    (batch : ∀ es : List Edit, (∀ e ∈ es, motive e) → motive (.batch es)) (e : Edit) : motive e := by
  refine @Edit.rec motive (fun es => ∀ e ∈ es, motive e) ?_ ?_ ?_ ?_ ?_ ?_ ?_ ?_ write batch ?_ ?_ e
  case refine_9 => simp
  case refine_10 =>
    intro e es he hes
    exact List.forall_mem_cons.2 ⟨he, hes⟩
  all_goals
    intros
    exact change _ _ rfl

/-! ## Scenes that are alike -/

/-- alike trees over one source -/
structure Scene.Alike (s s' : Scene τ) : Prop where
  tree : s.tree.Alike s'.tree
  source : s.source = s'.source

/-- one answer, and scenes in a relation -/
def Outcome.Agree (R : Scene τ → Scene τ → Prop) (o o' : Outcome (Scene τ) Unit) : Prop := o.1 = o'.1 ∧ R o.2 o'.2

/-- one answer, and scenes that are alike -/
def Outcome.Alike (o o' : Outcome (Scene τ) Unit) : Prop := o.1 = o'.1 ∧ o.2.Alike o'.2

namespace Scene.Alike

variable {s s' s'' : Scene τ}

theorem refl (s : Scene τ) : s.Alike s := ⟨.refl _, rfl⟩

theorem symm (h : s.Alike s') : s'.Alike s := ⟨h.tree.symm, h.source.symm⟩

theorem trans (h : s.Alike s') (h' : s'.Alike s'') : s.Alike s'' := ⟨h.tree.trans h'.tree, h.source.trans h'.source⟩

theorem onTree (h : s.Alike s') {f : Tree → Except EditError Tree} (hf : Tree.Agree (f s.tree) (f s'.tree)) :
    Outcome.Alike (s.onTree f) (s'.onTree f) := by
  unfold Scene.onTree
  cases hs : f s.tree with
  | error e =>
    cases hs' : f s'.tree with
    | error e' =>
      rw [hs, hs'] at hf
      obtain rfl : e = e' := hf
      exact ⟨rfl, h⟩
    | ok u' => simp [hs, hs', Tree.Agree] at hf
  | ok u =>
    cases hs' : f s'.tree with
    | error e' => simp [hs, hs', Tree.Agree] at hf
    | ok u' =>
      rw [hs, hs'] at hf
      exact ⟨rfl, hf, h.source⟩

theorem write [Transport τ] (h : s.Alike s') (address : UInt64) (bs : Bytes) :
    Outcome.Alike (s.write address bs) (s'.write address bs) := by
  unfold Scene.write
  rw [h.source]
  split
  · exact ⟨rfl, h.tree, rfl⟩
  · exact ⟨rfl, h.tree, rfl⟩

end Scene.Alike

namespace Edit

theorem make_alike {e : Edit} {c : Change} (hc : e.change? = some c) {t u : Tree} (h : t.Alike u) :
    Tree.Agree (c.make t) (c.make u) := by
  refine change_cases hc ?_ ?_ ?_ ?_ ?_
  · exact fun ns _ => h.insert ns
  · exact fun removed _ => h.remove removed
  · exact fun id old new _ => h.reshape id new
  · exact fun id old new _ => h.move id new.1 new.2
  · exact fun id f g _ _ => h.modify id f

theorem unmake_alike {e : Edit} {c : Change} (hc : e.change? = some c) {t u : Tree} (h : t.Alike u) :
    Tree.Agree (c.unmake t) (c.unmake u) := by
  refine change_cases hc ?_ ?_ ?_ ?_ ?_
  · exact fun ns _ => h.removeIds _
  · exact fun removed _ => h.putBack removed
  · exact fun id old new _ => h.reshape id old
  · exact fun id old new _ => h.move id old.1 old.2
  · exact fun id f g _ _ => h.modify id g

variable [Transport τ]

/-- an edit that answers the same on scenes that are alike, forwards and backwards -/
def Respects (τ : Type) [Transport τ] (e : Edit) : Prop :=
  ∀ s s' : Scene τ, s.Alike s' →
    Outcome.Alike (e.apply s) (e.apply s') ∧ Outcome.Alike (e.retract s) (e.retract s')

/-- an edit that answers the same on scenes in a relation, forwards and backwards, and leaves them in it -/
def Keeps (R : Scene τ → Scene τ → Prop) (e : Edit) : Prop :=
  ∀ s s', R s s' → Outcome.Agree R (e.apply s) (e.apply s') ∧ Outcome.Agree R (e.retract s) (e.retract s')

section Batch

variable {R : Scene τ → Scene τ → Prop} {es : List Edit} {s s' : Scene τ}

theorem keeps_applyAll (hes : ∀ e ∈ es, e.Keeps R) (h : R s s') : Outcome.Agree R (applyAll es s) (applyAll es s') := by
  induction es generalizing s s' with
  | nil => exact ⟨rfl, h⟩
  | cons e rest ih =>
    obtain ⟨he, hrest⟩ := List.forall_mem_cons.1 hes
    obtain ⟨hr, hs⟩ := (he s s' h).1
    rw [applyAll, applyAll]
    generalize e.apply s = o at hr hs ⊢
    generalize e.apply s' = o' at hr hs ⊢
    obtain ⟨r, s₁⟩ := o
    obtain ⟨r', s₁'⟩ := o'
    obtain rfl : r = r' := hr
    cases r with
    | error err => exact ⟨rfl, hs⟩
    | ok _ =>
      obtain ⟨hr₂, hs₂⟩ := ih hrest hs
      simp only
      generalize applyAll rest s₁ = p at hr₂ hs₂ ⊢
      generalize applyAll rest s₁' = p' at hr₂ hs₂ ⊢
      obtain ⟨q, s₂⟩ := p
      obtain ⟨q', s₂'⟩ := p'
      obtain rfl : q = q' := hr₂
      cases q with
      | ok _ => exact ⟨rfl, hs₂⟩
      | error err => exact ⟨rfl, (he s₂ s₂' hs₂).2.2⟩

theorem keeps_applyEach (hes : ∀ e ∈ es, e.Keeps R) (h : R s s') : R (applyEach es s) (applyEach es s') := by
  induction es generalizing s s' with
  | nil => exact h
  | cons e rest ih =>
    obtain ⟨he, hrest⟩ := List.forall_mem_cons.1 hes
    rw [applyEach, applyEach]
    exact ih hrest (he s s' h).1.2

theorem keeps_retractAll (hes : ∀ e ∈ es, e.Keeps R) (h : R s s') :
    Outcome.Agree R (retractAll es s) (retractAll es s') := by
  induction es with
  | nil => exact ⟨rfl, h⟩
  | cons e rest ih =>
    obtain ⟨he, hrest⟩ := List.forall_mem_cons.1 hes
    obtain ⟨hr, hs⟩ := ih hrest
    rw [retractAll, retractAll]
    generalize retractAll rest s = o at hr hs ⊢
    generalize retractAll rest s' = o' at hr hs ⊢
    obtain ⟨r, s₁⟩ := o
    obtain ⟨r', s₁'⟩ := o'
    obtain rfl : r = r' := hr
    cases r with
    | error err => exact ⟨rfl, hs⟩
    | ok _ =>
      obtain ⟨hr₂, hs₂⟩ := (he s₁ s₁' hs).2
      simp only
      generalize e.retract s₁ = p at hr₂ hs₂ ⊢
      generalize e.retract s₁' = p' at hr₂ hs₂ ⊢
      obtain ⟨q, s₂⟩ := p
      obtain ⟨q', s₂'⟩ := p'
      obtain rfl : q = q' := hr₂
      cases q with
      | ok _ => exact ⟨rfl, hs₂⟩
      | error err => exact ⟨rfl, keeps_applyEach hrest hs₂⟩

/-- what the edits of a batch keep, the batch keeps -/
theorem Keeps.batch (hes : ∀ e ∈ es, e.Keeps R) : (batch es).Keeps R := by
  intro s s' h
  rw [apply, apply, retract, retract]
  exact ⟨keeps_applyAll hes h, keeps_retractAll hes h⟩

end Batch

theorem respects (e : Edit) : e.Respects τ := by
  induction e using Edit.induction with
  | change e c hc =>
    intro s s' h
    rw [apply_of_change hc, apply_of_change hc, retract_of_change hc, retract_of_change hc]
    exact ⟨h.onTree (make_alike hc h.tree), h.onTree (unmake_alike hc h.tree)⟩
  | write address old new =>
    intro s s' h
    rw [apply, apply, retract, retract]
    exact ⟨h.write address new, h.write address old⟩
  | batch es ih => exact Keeps.batch ih

/-- **Edits answer the same on scenes that are alike.** -/
theorem apply_alike (e : Edit) {s s' : Scene τ} (h : s.Alike s') : Outcome.Alike (e.apply s) (e.apply s') :=
  (e.respects s s' h).1

/-- the same for taking edits back -/
theorem retract_alike (e : Edit) {s s' : Scene τ} (h : s.Alike s') : Outcome.Alike (e.retract s) (e.retract s') :=
  (e.respects s s' h).2

end Edit

end ByteAtlas
