/-
Edits that record truly what was there before them, and what follows for applying them and taking them back in memory.

- `Faithful`: whatever an edit records as earlier is what the scene has at the moment when the edit is made; along a
  batch, at the moment of each of its edits. An edit that is refused has recorded nothing.
- `Edit.exact_of_faithful`: a faithful edit that is refused leaves the scene as it was, and one that is made can be taken
  back, which leaves the scene as it was. The rollback of a batch stands or falls with the second half, since a step of
  it that failed would be passed over.
- `Edit.faithful_restores`: the same said of what can be seen of a scene, together with making the edit once more.
-/
import ByteAtlas.Proofs.Edit.Alike
import ByteAtlas.Proofs.Source.Buffer
import ByteAtlas.Proofs.Tree.Building
import ByteAtlas.Source.Image

namespace ByteAtlas

variable {τ : Type}

/-- what can be seen of a scene: the base, the nodes in their order, and the source with its bytes -/
structure Snapshot (τ : Type) where
  base : UInt64
  nodes : List Node
  source : Source τ
  deriving DecidableEq, Repr

def Scene.snapshot (s : Scene τ) : Snapshot τ := ⟨s.tree.base, s.tree.nodes, s.source⟩

/-- a formed tree over bytes in memory -/
structure Scene.Ready (s : Scene τ) : Prop where
  tree : s.tree.Formed
  memory : ∃ b, s.source = .buffer b

namespace Scene

variable {s s' : Scene τ}

theorem Alike.snapshot (h : s.Alike s') : s.snapshot = s'.snapshot := by
  rw [Scene.snapshot, Scene.snapshot, h.tree.base, h.tree.nodes, h.source]

theorem Alike.ready (h : s.Alike s') (hs : s.Ready) : s'.Ready where
  tree := h.tree.formed hs.tree
  memory := h.source ▸ hs.memory

end Scene

/-! ## What edits record -/

variable [Transport τ]

/-- what an edit records as earlier is what the scene has. A batch records nothing of its own. -/
def Edit.Recorded : Edit → Scene τ → Prop
  | .insert nodes, s => (∀ n ∈ nodes, n.id ≠ 0 ∧ ∀ m ∈ s.tree.nodes, m.id ≠ n.id) ∧ (nodes.map (·.id)).Nodup
  | .remove removed, s => Captured removed s.tree.nodes
  | .reshape id old _, s => ∀ n ∈ s.tree.find? id, n.shape = old
  | .rename id old _, s => ∀ n ∈ s.tree.find? id, n.name = old
  | .nameStruct id old _, s => ∀ n ∈ s.tree.find? id, n.structName = old
  | .move id old _, s => ∀ n ∈ s.tree.find? id, n.parent = old.1 ∧ n.offset = old.2
  | .fold id old _, s => ∀ n ∈ s.tree.find? id, n.collapsed = old
  | .refer id old _, s => ∀ n ∈ s.tree.find? id, n.ref = old
  | .write address old new, s =>
    old.length = new.length ∧ (s.source.read address old.length).1 = some old
  | .batch _, _ => True

instance : (e : Edit) → (s : Scene τ) → Decidable (e.Recorded s)
  | .insert nodes, s => inferInstanceAs (Decidable ((∀ n ∈ nodes, _ ∧ ∀ m ∈ s.tree.nodes, _) ∧ _))
  | .remove removed, s => inferInstanceAs (Decidable (Captured removed s.tree.nodes))
  | .reshape id _ _, s => inferInstanceAs (Decidable (∀ n ∈ s.tree.find? id, _))
  | .rename id _ _, s => inferInstanceAs (Decidable (∀ n ∈ s.tree.find? id, _))
  | .nameStruct id _ _, s => inferInstanceAs (Decidable (∀ n ∈ s.tree.find? id, _))
  | .move id _ _, s => inferInstanceAs (Decidable (∀ n ∈ s.tree.find? id, _))
  | .fold id _ _, s => inferInstanceAs (Decidable (∀ n ∈ s.tree.find? id, _))
  | .refer id _ _, s => inferInstanceAs (Decidable (∀ n ∈ s.tree.find? id, _))
  | .write .., _ => inferInstanceAs (Decidable (_ ∧ _))
  | .batch _, _ => inferInstanceAs (Decidable True)

namespace Edit

/-- a change in place of one plain field, and back -/
theorem modify_back {t u : Tree} (h : t.Formed) {id : NodeId} {f g : Node → Node} (hu : t.modify id f = .ok u)
    (hf : Node.Plain f) (hg : ∀ n, t.find? id = some n → g (f n) = n) : u.Formed ∧ ∃ v, u.modify id g = .ok v ∧ v.Alike t :=
  ⟨h.modifyField hu hf, t, Tree.modify_modify hu hg, .refl t⟩

/-- what a recorded change of the tree makes of it is formed, and can be undone -/
theorem exists_unmake {e : Edit} {c : Change} (hc : e.change? = some c) {s : Scene τ} (h : s.tree.Formed)
    (hr : e.Recorded s) {u : Tree} (hu : c.make s.tree = .ok u) :
    u.Formed ∧ ∃ v, c.unmake u = .ok v ∧ v.Alike s.tree := by
  cases e with
  | insert nodes =>
    obtain rfl := Option.some.inj hc
    obtain ⟨v, hv, hformed, hnodes, hbase⟩ := Tree.exists_removeIds h hu
    exact ⟨h.insert hu, v, hv, hformed.alike h hbase hnodes⟩
  | remove removed =>
    obtain rfl := Option.some.inj hc
    obtain ⟨v, hv, hnodes, hbase⟩ := Tree.exists_putBack h hr hu
    have hformed := h.remove hr.ascending hu
    exact ⟨hformed, v, hv, (hformed.putBack hr h.forest hv).alike h hbase hnodes⟩
  | reshape id old new =>
    obtain rfl := Option.some.inj hc
    exact ⟨h.reshape hu, _, h.reshape_reshape hu hr, .refl _⟩
  | move id old new =>
    obtain rfl := Option.some.inj hc
    exact ⟨h.move hu, _, h.move_move hu hr, .refl _⟩
  | rename id old new | nameStruct id old new | fold id old new | refer id old new =>
    obtain rfl := Option.some.inj hc
    exact modify_back h hu (fun _ => ⟨rfl, rfl, rfl⟩) fun n hn => by rw [← hr n hn]
  | write _ _ _ => simp [change?] at hc
  | batch _ => simp [change?] at hc

end Edit

/-! ## Along a batch -/

mutual

/-- an edit that records truly, if it is made at all -/
def Faithful : Edit → Scene τ → Prop
  | .batch es, s => FaithfulAll es s
  | e, s => (e.apply s).1 = .ok () → e.Recorded s

/-- edits each of which is faithful when its turn comes, up to the first one that is refused -/
def FaithfulAll : List Edit → Scene τ → Prop
  | [], _ => True
  | e :: rest, s => Faithful e s ∧ ((e.apply s).1 = .ok () → FaithfulAll rest (e.apply s).2)

end

namespace Edit

theorem faithful_iff_of_change {e : Edit} {c : Change} (hc : e.change? = some c) {s : Scene τ} :
    Faithful e s ↔ ((e.apply s).1 = .ok () → e.Recorded s) := by
  cases e with
  | batch _ => simp [change?] at hc
  | _ => simp only [Faithful]

/-! ## All edits -/

/-- an edit that leaves a scene as it was if it is refused, and can be taken back to it if it is made -/
structure Exact (e : Edit) (s : Scene τ) : Prop where
  refused : ∀ err s', e.apply s = (.error err, s') → s'.Alike s
  made : ∀ s', e.apply s = (.ok (), s') → s'.Ready ∧ ∃ s₀, e.retract s' = (.ok (), s₀) ∧ s₀.Alike s

theorem exact_of_change {e : Edit} {c : Change} (hc : e.change? = some c) {s : Scene τ} (h : s.Ready)
    (hf : Faithful e s) : e.Exact s := by
  rw [faithful_iff_of_change hc] at hf
  rw [apply_of_change hc] at hf
  constructor
  · intro err s' happ
    rw [apply_of_change hc, Scene.onTree] at happ
    cases hu : c.make s.tree with
    | error e' =>
      rw [hu] at happ
      obtain ⟨-, rfl⟩ := Prod.mk.inj happ
      exact .refl s
    | ok u => simp [hu] at happ
  · intro s' happ
    rw [apply_of_change hc, Scene.onTree] at happ
    rw [Scene.onTree] at hf
    cases hu : c.make s.tree with
    | error e' => simp [hu] at happ
    | ok u =>
      rw [hu] at happ hf
      obtain ⟨-, rfl⟩ := Prod.mk.inj happ
      obtain ⟨hformed, v, hv, halike⟩ := exists_unmake hc h.tree (hf rfl) hu
      refine ⟨⟨hformed, h.memory⟩, { s with tree := v }, ?_, halike, rfl⟩
      rw [retract_of_change hc, Scene.onTree, hv]

theorem exact_write {address : UInt64} {old new : Bytes} {s : Scene τ} (h : s.Ready)
    (hf : Faithful (.write address old new) s) : (write address old new).Exact s := by
  simp only [Faithful] at hf
  obtain ⟨b, hb⟩ := h.memory
  simp only [apply, Scene.write, hb, Source.write] at hf
  constructor
  · intro err s' happ
    simp only [apply, Scene.write, hb, Source.write] at happ
    cases hw : b.write address new with
    | some b' => simp [hw] at happ
    | none =>
      rw [hw] at happ
      obtain ⟨-, rfl⟩ := Prod.mk.inj happ
      exact ⟨.refl _, hb.symm⟩
  · intro s' happ
    simp only [apply, Scene.write, hb, Source.write] at happ
    cases hw : b.write address new with
    | none => simp [hw] at happ
    | some b' =>
      rw [hw] at happ hf
      obtain ⟨-, rfl⟩ := Prod.mk.inj happ
      obtain ⟨hlen, hold⟩ := hf rfl
      rw [hb] at hold
      have hback := Buffer.write_write hlen hold hw
      refine ⟨⟨h.tree, b', rfl⟩, { s with source := .buffer b }, ?_, .refl _, hb.symm⟩
      simp only [retract, Scene.write, Source.write, hback]

/-- the same of edits one after the other -/
structure ExactAll (es : List Edit) (s : Scene τ) : Prop where
  refused : ∀ err s', applyAll es s = (.error err, s') → s'.Alike s
  made : ∀ s', applyAll es s = (.ok (), s') → s'.Ready ∧ ∃ s₀, retractAll es s' = (.ok (), s₀) ∧ s₀.Alike s

theorem exactAll_nil {s : Scene τ} (h : s.Ready) : ExactAll [] s := by
  refine ⟨fun err s' happ => by simp [applyAll] at happ, fun s' happ => ?_⟩
  obtain ⟨-, rfl⟩ := Prod.mk.inj happ
  exact ⟨h, s, rfl, .refl s⟩

/-- The rollback of the first edit meets what the rest has left behind, which is alike to what the first edit had made. -/
theorem Exact.cons {e : Edit} {rest : List Edit} {s : Scene τ} (he : e.Exact s)
    (hrest : ∀ s₁, e.apply s = (.ok (), s₁) → s₁.Ready → ExactAll rest s₁) : ExactAll (e :: rest) s := by
  cases happ : e.apply s with
  | mk r s₁ =>
    cases r with
    | error err =>
      refine ⟨fun err' s' happ' => ?_, fun s' happ' => by simp [applyAll, happ] at happ'⟩
      rw [applyAll, happ] at happ'
      obtain ⟨-, rfl⟩ := Prod.mk.inj happ'
      exact he.refused err s₁ happ
    | ok _ =>
      obtain ⟨hready, s₀, hback, hs₀⟩ := he.made s₁ happ
      have hall := hrest s₁ happ hready
      constructor
      · intro err s' happ'
        rw [applyAll, happ] at happ'
        cases hrest' : applyAll rest s₁ with
        | mk r' s₂ =>
          cases r' with
          | ok _ => simp [hrest'] at happ'
          | error err' =>
            simp only [hrest'] at happ'
            obtain ⟨-, rfl⟩ := Prod.mk.inj happ'
            have halike := (e.retract_alike (hall.refused err' s₂ hrest')).2
            rw [hback] at halike
            exact halike.trans hs₀
      · intro s' happ'
        rw [applyAll, happ] at happ'
        cases hrest' : applyAll rest s₁ with
        | mk r' s₂ =>
          cases r' with
          | error err' => simp [hrest'] at happ'
          | ok _ =>
            simp only [hrest'] at happ'
            obtain ⟨-, rfl⟩ := Prod.mk.inj happ'
            obtain ⟨hready₂, s₁', hback', hs₁'⟩ := hall.made s₂ hrest'
            obtain ⟨hr, hs₀'⟩ := e.retract_alike hs₁'
            rw [hback] at hr hs₀'
            refine ⟨hready₂, (e.retract s₁').2, ?_, hs₀'.trans hs₀⟩
            rw [retractAll, hback']
            simp only
            generalize e.retract s₁' = o at hr ⊢
            obtain ⟨q, s₃⟩ := o
            obtain rfl : q = .ok () := hr
            rfl

theorem exactAll_of_faithful {es : List Edit} (hes : ∀ e ∈ es, ∀ s : Scene τ, s.Ready → Faithful e s → e.Exact s)
    {s : Scene τ} (h : s.Ready) (hf : FaithfulAll es s) : ExactAll es s := by
  induction es generalizing s with
  | nil => exact exactAll_nil h
  | cons e rest ih =>
    obtain ⟨he, hrest⟩ := List.forall_mem_cons.1 hes
    rw [FaithfulAll] at hf
    refine (he s h hf.1).cons fun s₁ happ h₁ => ih hrest h₁ ?_
    have hfrest := hf.2
    rw [happ] at hfrest
    exact hfrest rfl

/-- a batch of exact edits is exact -/
theorem ExactAll.batch {es : List Edit} {s : Scene τ} (h : ExactAll es s) : (batch es).Exact s := by
  refine ⟨fun err s' happ => h.refused err s' ?_, fun s' happ => ?_⟩
  · rwa [apply] at happ
  · rw [apply] at happ
    rw [retract]
    exact h.made s' happ

/-- **Faithful edits are exact.** By induction over edits: changes of the tree and writes by what they do, batches by
what their edits do. -/
theorem exact_of_faithful (e : Edit) {s : Scene τ} (h : s.Ready) (hf : Faithful e s) : e.Exact s := by
  induction e using Edit.induction generalizing s with
  | change e c hc => exact exact_of_change hc h hf
  | write address old new => exact exact_write h hf
  | batch es ih =>
    rw [Faithful] at hf
    exact (exactAll_of_faithful (fun e he s h hf => ih e he h hf) h hf).batch

/-- an edit that was made and taken back can be made again, and comes to the same -/
theorem Exact.again {e : Edit} {s s' s₀ : Scene τ} (happ : e.apply s = (.ok (), s')) (hs₀ : s₀.Alike s) :
    ∃ s₁, e.apply s₀ = (.ok (), s₁) ∧ s₁.Alike s' := by
  obtain ⟨hr, hs⟩ := e.apply_alike hs₀
  rw [happ] at hr hs
  generalize e.apply s₀ = o at hr hs ⊢
  obtain ⟨r, s₁⟩ := o
  obtain rfl : r = .ok () := hr
  exact ⟨s₁, rfl, hs⟩

/-- **Nothing is left behind and nothing is lost.** A faithful edit of a formed tree over bytes in memory that is refused
leaves what can be seen of the scene as it was. One that is made can be taken back, which leaves it as it was, and can
then be made again, which comes to the same as the first time. -/
theorem faithful_restores (e : Edit) {s : Scene τ} {b : Buffer} (ht : s.tree.Formed) (hb : s.source = .buffer b)
    (hf : Faithful e s) :
    (∀ err s', e.apply s = (.error err, s') → s'.snapshot = s.snapshot) ∧
    (∀ s', e.apply s = (.ok (), s') → ∃ s₀, e.retract s' = (.ok (), s₀) ∧ s₀.snapshot = s.snapshot ∧
      ∃ s₁, e.apply s₀ = (.ok (), s₁) ∧ s₁.snapshot = s'.snapshot) := by
  have hexact := e.exact_of_faithful ⟨ht, b, hb⟩ hf
  refine ⟨fun err s' happ => (hexact.refused err s' happ).snapshot, fun s' happ => ?_⟩
  obtain ⟨-, s₀, hback, hs₀⟩ := hexact.made s' happ
  obtain ⟨s₁, happ₁, hs₁⟩ := Exact.again happ hs₀
  exact ⟨s₀, hback, hs₀.snapshot, s₁, happ₁, hs₁.snapshot⟩

def pairScene : Scene Image := ⟨Tree.pair, .buffer ⟨[1, 2, 3, 4], "", 0x1000⟩⟩

/-- a batch within a batch, of edits of both sorts -/
def pairEdit : Edit :=
  .batch [.rename 2 "first" "low",
    .batch [.write 0x1001 [2, 3] [8, 9], .insert [{ Node.field 1 2 .uint8 "third" with id := 4 }]],
    .remove [(2, { Node.field 1 1 .uint8 "second" with id := 3 })]]

/-- the batch can be made and taken back; with a refused edit at its end it leaves nothing behind -/
theorem faithful_restores_pair :
    (∃ s' s₀, pairEdit.apply pairScene = (.ok (), s') ∧ s'.snapshot ≠ pairScene.snapshot ∧
      pairEdit.retract s' = (.ok (), s₀) ∧ s₀.snapshot = pairScene.snapshot) ∧
    ∃ s', (batch [pairEdit, .rename 3 "second" "high"]).apply pairScene = (.error (.missingNode 3), s') ∧
      s'.snapshot = pairScene.snapshot := by
  have ht := (Tree.wellFormed_ofNodes Tree.ofNodes_pair).toFormed
  constructor
  · have hf : Faithful pairEdit pairScene := by
      simp only [pairEdit, Faithful, FaithfulAll]
      decide
    obtain ⟨s₀, hback, hs₀, -⟩ := (faithful_restores pairEdit ht rfl hf).2 _ rfl
    exact ⟨_, s₀, rfl, by decide, hback, hs₀⟩
  · have hf : Faithful (batch [pairEdit, .rename 3 "second" "high"]) pairScene := by
      simp only [pairEdit, Faithful, FaithfulAll]
      decide
    exact ⟨_, rfl, (faithful_restores _ ht rfl hf).1 _ _ rfl⟩

end Edit

end ByteAtlas
