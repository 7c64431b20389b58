/-
What a user can ask of a document, and what becomes of it. There is one request for each operation on documents
(`Document.Request`), and whatever is asked, one of three things happens (`Document.responds_ask`): nothing but that new
ids are spent and the source is asked, or after that one edit of the tree is performed, which records truly what was there
before it, or one write. What is performed is sound. `Document.comes_after` says the same of documents over bytes in
memory, where writes record truly as well.
-/
import ByteAtlas.Document.Edits
import ByteAtlas.Proofs.Definition.Ids
import ByteAtlas.Proofs.Edit.Quiet
import ByteAtlas.Proofs.Edit.Sound
import ByteAtlas.Proofs.Source.Settled
import ByteAtlas.Proofs.Value.Length

namespace ByteAtlas

namespace Edit

/-! ## Edits that record truly -/

variable {τ : Type} [Transport τ] {s : Scene τ}

theorem faithful_of_recorded {e : Edit} {c : Change} (hc : e.change? = some c) (hr : e.Recorded s) : Faithful e s :=
  (faithful_iff_of_change hc).2 fun _ => hr

/-- nodes that are appended have ids of their own -/
theorem faithful_insert (h : s.tree.Formed) (ns : List Node) : Faithful (.insert ns) s := by
  refine (faithful_iff_of_change rfl).2 ?_
  intro happ
  rw [apply, Scene.onTree] at happ
  cases hu : s.tree.insert ns with
  | error e => simp [hu] at happ
  | ok u =>
    obtain ⟨hfresh, hd⟩ := Tree.fresh_of_insert h hu
    refine ⟨fun n hn => ⟨(h.insert hu).forest.nonzero n ?_, fun m hm => hfresh m hm n hn⟩, hd⟩
    exact Tree.nodes_insert hu ▸ List.mem_append_right _ hn

/-- a node is found again after others were appended -/
theorem find?_of_insert {t u : Tree} (h : t.Formed) {ns : List Node} (hu : t.insert ns = .ok u) {id : NodeId} {n : Node}
    (hn : t.find? id = some n) : u.find? id = some n := by
  obtain ⟨hmem, hid⟩ := (Tree.find?_eq_some_iff h.indexed).1 hn
  exact (Tree.find?_eq_some_iff (h.insert hu).indexed).2
    ⟨Tree.nodes_insert hu ▸ List.mem_append_left _ hmem, hid⟩

/-- nodes are appended, and then a node that was there before is made to refer to something -/
theorem faithful_insert_refer (h : s.tree.Formed) (ns : List Node) {id : NodeId} {n : Node}
    (hn : s.tree.find? id = some n) (target : NodeId) :
    Faithful (.batch ((if ns.isEmpty then [] else [.insert ns]) ++ [.refer id n.ref target])) s := by
  rw [Faithful]
  have hrefer : ∀ s' : Scene τ, s'.tree.find? id = some n → FaithfulAll [.refer id n.ref target] s' := by
    intro s' hs'
    rw [FaithfulAll]
    refine ⟨faithful_of_recorded rfl fun m hm => ?_, fun _ => trivial⟩
    rw [Option.mem_def, hs'] at hm
    rw [Option.some.inj hm]
  split
  · exact hrefer s hn
  · rw [List.singleton_append, FaithfulAll]
    refine ⟨faithful_insert h ns, fun happ => hrefer _ ?_⟩
    rw [apply, Scene.onTree] at happ ⊢
    cases hu : s.tree.insert ns with
    | error e => simp [hu] at happ
    | ok u => exact find?_of_insert h hu hn

end Edit

/-- an outcome without what is answered when it is done -/
def Outcome.status {σ α : Type} (o : Outcome σ α) : Outcome σ Unit := (o.1.map fun _ => (), o.2)

namespace Document

variable {τ : Type}

inductive Request where
  | writeText (id : NodeId) (text : String)
  | rename (id : NodeId) (name : String)
  | nameStruct (id : NodeId) (name : String)
  | reshape (id : NodeId) (kind : Kind)
  | makeArray (id : NodeId) (elementKind : Kind) (arrayLen : UInt64)
  | resize (id : NodeId) (length : UInt64)
  | move (id parent : NodeId) (offset : UInt64)
  | shift (id : NodeId) (offset : UInt64)
  | toggleFold (id : NodeId)
  | refer (id target : NodeId)
  | insert (parent : NodeId) (offset : Option UInt64) (kind : Kind) (name : String)
  | newStruct
  | remove (ids : List NodeId)
  | copy (id : NodeId)
  | adopt (name : String) (others : List Tree)
  | referTo (id : NodeId) (name : String) (others : List Tree)

/-- what comes of a request: whether it is done or why it is refused, and the document after it -/
def ask [Transport τ] (d : Document τ) : Request → Outcome (Document τ) Unit
  | .writeText id text => d.writeText id text
  | .rename id name => d.rename id name
  | .nameStruct id name => d.nameStruct id name
  | .reshape id kind => d.reshape id kind
  | .makeArray id elementKind arrayLen => d.makeArray id elementKind arrayLen
  | .resize id length => d.resize id length
  | .move id parent offset => d.move id parent offset
  | .shift id offset => d.shift id offset
  | .toggleFold id => d.toggleFold id
  | .refer id target => d.refer id target
  | .insert parent offset kind name => (d.insert parent offset kind name).status
  | .newStruct => d.newStruct.status
  | .remove ids => d.remove ids
  | .copy id => (d.copy id).status
  | .adopt name others => (d.adopt name others).status
  | .referTo id name others => (d.referTo id name others).status

/-- the document after a request, whether or not it was refused -/
def after [Transport τ] (d : Document τ) (r : Request) : Document τ := (d.ask r).2

/-! ## What comes of a request -/

def scene (d : Document τ) : Scene τ := d.session.scene

/-- a document as it was but for new ids that are spent and a transport that was asked -/
structure Primed (d d₁ : Document τ) : Prop where
  spent : d.tree.Spent d₁.tree
  history : d₁.history = d.history
  memory : ∀ b, d.source = .buffer b → d₁.source = .buffer b

@[simp] theorem source_withSource (d : Document τ) (s : Source τ) : (d.withSource s).source = s := rfl

theorem status_withNode {α : Type} (d : Document τ) (id : NodeId) (k : Node → Outcome (Document τ) α) :
    (d.withNode id k).status = d.withNode id fun n => (k n).status := by
  unfold withNode
  cases d.tree.find? id <;> rfl

variable [Transport τ] {d d₁ : Document τ}

/-- nothing but ids is spent, or one edit is performed after that. It is sound, and faithful in memory. -/
inductive Comes (d : Document τ) : Document τ → Prop
  | idle {d₁ : Document τ} (primed : d.Primed d₁) : Comes d d₁
  | performs {d₁ : Document τ} {e : Edit} (primed : d.Primed d₁)
    (faithful : (∃ b, d.source = .buffer b) → Faithful e d₁.scene) (sound : e.Sound) : Comes d (d₁.perform e).2

/-- a document as it was but for new ids that are spent and its source that was asked -/
structure Prepares (d d₁ : Document τ) : Prop where
  spent : d.tree.Spent d₁.tree
  history : d₁.history = d.history
  source : d.source.Asked d₁.source

theorem Prepares.refl (d : Document τ) : d.Prepares d := ⟨.refl _, rfl, .refl⟩

theorem Prepares.primed (h : d.Prepares d₁) : d.Primed d₁ := ⟨h.spent, h.history, fun _ hb => h.source.eq_buffer hb⟩

/-- the document with more ids given out -/
theorem prepares_withTree {t : Tree} (h : d.tree.Spent t) : d.Prepares (d.withTree t) := ⟨h, rfl, .refl⟩

/-- An answer after nothing but preparations, or one edit after them. An edit of a formed tree is sound and faithful, a
write is faithful in memory. -/
inductive Responds (d : Document τ) : Outcome (Document τ) Unit → Prop
  | idle {d₁ : Document τ} {r : Except EditError Unit} (prepared : d.Prepares d₁) : Responds d (r, d₁)
  | changes {d₁ : Document τ} {e : Edit} (prepared : d.Prepares d₁) (quiet : e.Quiet)
    (faithful : d.tree.Formed → Faithful e d₁.scene) (sound : d.tree.Formed → e.Sound) : Responds d (d₁.perform e)
  | writes {d₁ : Document τ} {address : UInt64} {old new : Bytes} (prepared : d.Prepares d₁)
    (faithful : (∃ b, d.source = .buffer b) → Faithful (.write address old new) d₁.scene) :
    Responds d (d₁.perform (.write address old new))

theorem Responds.comes {o : Outcome (Document τ) Unit} (ho : d.Responds o) (h : d.tree.Formed) : d.Comes o.2 := by
  cases ho with
  | idle hp => exact .idle hp.primed
  | changes hp _ hf hs => exact .performs hp.primed (fun _ => hf h) (hs h)
  | writes hp hf => exact .performs hp.primed hf trivial

theorem responds_refused (d : Document τ) (err : EditError) : d.Responds (.error err, d) := .idle (.refl d)

@[simp] theorem status_performFor {α : Type} (d : Document τ) (e : Edit) (a : α) :
    (d.performFor e a).status = d.perform e := by
  unfold performFor
  generalize d.perform e = o
  obtain ⟨r, d'⟩ := o
  cases r <;> rfl

@[simp] theorem performFor_snd {α : Type} (d : Document τ) (e : Edit) (a : α) :
    (d.performFor e a).2 = (d.perform e).2 := congrArg Prod.snd (status_performFor d e a)

/-- goes on with a node: nothing happens unless there is one -/
theorem responds_withNode {id : NodeId} {k : Node → Outcome (Document τ) Unit}
    (h : ∀ n, d.tree.find? id = some n → d.Responds (k n)) : d.Responds (d.withNode id k) := by
  unfold withNode
  cases hn : d.tree.find? id with
  | none => exact responds_refused d _
  | some n => exact h n hn

/-- an edit of one field, with what the field is now -/
theorem responds_perform {e : Edit} {c : Edit.Change} (hc : e.change? = some c) (hr : e.Recorded d.scene)
    (hs : e.Sound) : d.Responds (d.perform e) :=
  .changes (.refl d) (Edit.quiet_of_change hc) (fun _ => Edit.faithful_of_recorded hc hr) fun _ => hs

/-- nodes are appended after ids are given out for them -/
theorem responds_insert {t : Tree} (ht : d.tree.Spent t) (ns : List Node) :
    d.Responds ((d.withTree t).perform (.insert ns)) :=
  .changes (prepares_withTree ht) trivial (fun h => Edit.faithful_insert (ht.formed h) ns) fun _ => trivial

/-! ## Each request in turn -/

theorem responds_move (d : Document τ) (id parent : NodeId) (offset : UInt64) :
    d.Responds (d.move id parent offset) := by
  refine responds_withNode fun n hn => responds_perform rfl (fun m hm => ?_) trivial
  obtain rfl := Option.some.inj (hm.symm.trans hn)
  exact ⟨rfl, rfl⟩

theorem responds_reshape {id : NodeId} {n : Node} (hn : d.tree.find? id = some n) (s : Shape) :
    d.Responds (d.perform (.reshape id n.shape s)) := by
  refine responds_perform rfl (fun m hm => ?_) trivial
  rw [Option.some.inj (hm.symm.trans hn)]

theorem responds_refer {id : NodeId} {n : Node} (hn : d.tree.find? id = some n) (target : NodeId) :
    d.Responds (d.perform (.refer id n.ref target)) := by
  refine responds_perform rfl (fun m hm => ?_) trivial
  rw [Option.some.inj (hm.symm.trans hn)]

/-- Encoding a text changes nothing. What it finds in memory is as long as what is to replace it. -/
theorem encodeText_spec (d : Document τ) (id : NodeId) (text : String) : d.Prepares (d.encodeText id text).2 ∧
    ∀ address old new, (d.encodeText id text).1 = .ok (address, old, new) → (∃ b, d.source = .buffer b) →
      old.length = new.length ∧ ((d.encodeText id text).2.source.read address old.length).1 = some old := by
  have hasked : ∀ s : Source τ, d.source.Asked s → d.Prepares (d.withSource s) := fun s hs => ⟨.refl _, rfl, hs⟩
  unfold encodeText
  split
  · next i n hi hn =>
    split
    · exact ⟨.refl d, by simp⟩
    · next hvalue =>
      simp only
      split
      · exact ⟨.refl d, by simp⟩
      · split
        · exact ⟨hasked _ (.size .refl), by simp⟩
        · split
          · exact ⟨hasked _ (.size .refl), by simp⟩
          · next new hnew =>
            split
            · exact ⟨hasked _ (.read (.size .refl) _ _), by simp⟩
            · next old hold =>
              refine ⟨hasked _ (.read (.size .refl) _ _), ?_⟩
              intro address old' new' heq hmemory
              obtain ⟨b, hb⟩ := hmemory
              simp only [Except.ok.injEq, Prod.mk.injEq] at heq
              obtain ⟨rfl, rfl, rfl⟩ := heq
              have hasked' : d.source.size.2 = .buffer b := by rw [hb]; rfl
              simp only [source_withSource, hasked', Source.read] at hold ⊢
              have hstored : d.tree.nodes[i]? = some n := by rwa [Tree.find?, hi, Option.bind_some] at hn
              have hlen := Buffer.length_read hold
              have hvalue' : n.kind.hasValue = true := by simpa using hvalue
              exact ⟨hlen.trans (Tree.length_readValue hstored hvalue' hnew).symm, hlen ▸ hold⟩
  · exact ⟨.refl d, by simp⟩

theorem responds_writeText (d : Document τ) (id : NodeId) (text : String) : d.Responds (d.writeText id text) := by
  obtain ⟨hprepared, hrecorded⟩ := encodeText_spec d id text
  unfold writeText
  generalize d.encodeText id text = o at hprepared hrecorded ⊢
  obtain ⟨r, d₁⟩ := o
  cases r with
  | error e => exact .idle hprepared
  | ok a =>
    obtain ⟨address, old, new⟩ := a
    simp only
    split
    · exact .idle hprepared
    · refine .writes hprepared fun hb => ?_
      simp only [Faithful]
      exact fun _ => hrecorded address old new rfl hb

theorem responds_remove (d : Document τ) (ids : List NodeId) : d.Responds (d.remove ids) := by
  unfold remove
  split
  · exact .idle (.refl d)
  · cases he : Edit.removal d.tree ids with
    | error err => exact responds_refused d err
    | ok e =>
      obtain ⟨removed, rfl, hc⟩ := Tree.captured_of_removal he
      exact .changes (.refl d) trivial (fun _ => Edit.faithful_of_recorded rfl hc) fun h => ⟨d.tree.nodes, hc, h.forest⟩

theorem responds_copy (d : Document τ) (id : NodeId) : d.Responds (d.copy id).status := by
  unfold copy
  cases hi : d.tree.position? id with
  | none => exact responds_refused d _
  | some i =>
    simp only [status_performFor]
    exact responds_insert (d.tree.spent_renumber _) _

theorem responds_adopt (d : Document τ) (name : String) (others : List Tree) :
    d.Responds (d.adopt name others).status := by
  have hspent := d.tree.spent_planAdoption others name
  unfold adopt
  simp only
  split
  · exact .idle (prepares_withTree hspent)
  · rw [status_performFor]
    exact responds_insert hspent _

theorem responds_referTo (d : Document τ) (id : NodeId) (name : String) (others : List Tree) :
    d.Responds (d.referTo id name others).status := by
  have hspent := d.tree.spent_planAdoption others name
  rw [referTo, status_withNode]
  refine responds_withNode ?_
  intro n hn
  split
  · exact responds_refused d _
  · simp only
    split
    · exact .idle (prepares_withTree hspent)
    · rw [status_performFor]
      -- an insertion, if there is anything to insert, and the reference
      have hsteps : ∀ {ns : List Node} {target : NodeId},
          ∀ e ∈ (if ns.isEmpty then [] else [Edit.insert ns]) ++ [.refer id n.ref target], e.Quiet ∧ e.Sound := by
        intro ns target e he
        rcases List.mem_append.1 he with he | he
        · split at he
          · simp at he
          · obtain rfl := List.mem_singleton.1 he
            exact ⟨trivial, trivial⟩
        · obtain rfl := List.mem_singleton.1 he
          exact ⟨trivial, trivial⟩
      refine .changes (prepares_withTree hspent) ?_ ?_ ?_
      · exact Edit.quiet_batch_iff.2 fun e he => (hsteps e he).1
      · exact fun h => Edit.faithful_insert_refer (hspent.formed h) _ ((hspent.find? id).trans hn) _
      · rw [Edit.Sound, Edit.soundAll_iff]
        exact fun _ e he => (hsteps e he).2

theorem responds_insertNode (d : Document τ) (parent : NodeId) (offset : Option UInt64) (kind : Kind)
    (name : String) : d.Responds (d.insert parent offset kind name).status := by
  unfold Document.insert
  cases d.tree.checkHolder parent with
  | error e => exact responds_refused d e
  | ok _ =>
    simp only [status_performFor]
    exact responds_insert d.tree.spent_reserve _

theorem responds_newStruct (d : Document τ) : d.Responds d.newStruct.status := by
  unfold newStruct
  simp only [status_performFor]
  exact responds_insert d.tree.spent_reserve _

/-- **Whatever is asked, at most one edit is performed**: one of the tree, which records truly what was there before, or
one write. -/
theorem responds_ask (d : Document τ) (r : Request) : d.Responds (d.ask r) := by
  cases r with
  | writeText id text => exact responds_writeText d id text
  | rename id name =>
    refine responds_withNode fun n hn => responds_perform rfl (fun m hm => ?_) trivial
    rw [Option.some.inj (hm.symm.trans hn)]
  | nameStruct id name =>
    refine responds_withNode fun n hn => responds_perform rfl (fun m hm => ?_) trivial
    rw [Option.some.inj (hm.symm.trans hn)]
  | reshape id kind => exact responds_withNode fun n hn => responds_reshape hn _
  | makeArray id elementKind arrayLen => exact responds_withNode fun n hn => responds_reshape hn _
  | resize id length =>
    refine responds_withNode ?_
    intro n hn
    split
    · exact responds_reshape hn _
    · exact responds_reshape hn _
    · exact responds_reshape hn _
    · exact responds_reshape hn _
    · exact responds_refused d _
  | move id parent offset => exact responds_move d id parent offset
  | shift id offset => exact responds_withNode fun n hn => responds_move d id n.parent offset
  | toggleFold id =>
    refine responds_withNode fun n hn => responds_perform rfl (fun m hm => ?_) trivial
    rw [Option.some.inj (hm.symm.trans hn)]
  | refer id target =>
    refine responds_withNode ?_
    intro n hn
    split
    · exact responds_refused d _
    · split
      · exact responds_refer hn target
      · refine responds_withNode ?_
        intro t ht
        split
        · exact responds_refer hn target
        · exact responds_refused d _
  | insert parent offset kind name => exact responds_insertNode d parent offset kind name
  | newStruct => exact responds_newStruct d
  | remove ids => exact responds_remove d ids
  | copy id => exact responds_copy d id
  | adopt name others => exact responds_adopt d name others
  | referTo id name others => exact responds_referTo d id name others

/-- **Whatever is asked, at most one edit is performed**, and over bytes in memory it records truly what was there
before. -/
theorem comes_after (h : d.tree.Formed) (r : Request) : d.Comes (d.after r) := (responds_ask d r).comes h

end Document

end ByteAtlas
