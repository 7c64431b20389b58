/-
Bringing types along, again and again, as steps of the history or at once, by any names and from any other trees.

- `bring_cases`: either the definitions are brought along, or they are refused and of the tree ids alone are spent.
- `bring_of_present`: a name that is there is found, and nothing at all changes.
- `bring_ok`: as long as there are ids nothing is refused, and what the answer names is what is found from then on.
- `bringAll_extends`: over a whole sequence, what is there stays as it is, and no name comes to two root structs.
- `adopt_agrees`: planned nodes pass every check that edits make, so that all ways of bringing a type along leave one tree.
-/
import ByteAtlas.Proofs.Definition.Names
import ByteAtlas.Proofs.Document.Steps

namespace ByteAtlas

@[simp] theorem Resolution.id?_eq_none_iff {r : Resolution} : r.id? = none ↔ r = .unresolved := by
  cases r <;> simp [id?]

namespace Tree

variable {t : Tree} {others : List Tree}

theorem WellFormed.adoptNow (ht : t.WellFormed) (hothers : ∀ o ∈ others, o.Formed) (name : String)
    (hroom : (t.adoptNow others name).2.nextId.toNat < Word.top) : (t.adoptNow others name).2.WellFormed := by
  have hspent := t.spent_planAdoption others name
  have hle := UInt64.le_iff_toNat_le.1 (nextId_le_foldl_push (t.planAdoption others name).2
    (t.planAdoption others name).1.nodes)
  have hinsert := insert_planAdoption ht hothers name (Nat.lt_of_le_of_lt hle hroom)
  exact ((hspent.steady ht.steady).insert hinsert).wellFormed hroom

/-- for a name that nothing defines nothing is planned -/
theorem nodes_planAdoption_of_unresolved {name : String} (h : (t.planAdoption others name).1.resolution = .unresolved) :
    (t.planAdoption others name).1.nodes = [] := by
  revert h
  unfold planAdoption
  simp only [Adoption.resolve]
  split <;> simp

theorem adoptNow_of_nil {name : String} (h : (t.planAdoption others name).1.nodes = []) :
    (t.adoptNow others name).2 = (t.planAdoption others name).2 := by
  calc (t.adoptNow others name).2
      = (t.planAdoption others name).1.nodes.foldl push (t.planAdoption others name).2 := rfl
    _ = [].foldl push (t.planAdoption others name).2 := by rw [h]
    _ = (t.planAdoption others name).2 := rfl

end Tree

namespace Document

variable {τ : Type} [Transport τ] {d : Document τ} {others : List Tree} {name : String} {id : NodeId}

/-- a type to be brought along: its name, the other trees, and whether it is to be a step of the history -/
structure Import where
  name : String
  others : List Tree
  recorded : Bool

def bring (d : Document τ) (x : Import) : Outcome (Document τ) Resolution :=
  if x.recorded then d.adopt x.name x.others
  else (.ok (d.tree.adoptNow x.others x.name).1, d.withTree (d.tree.adoptNow x.others x.name).2)

/-- the document after types were brought along in order -/
def bringAll (d : Document τ) (xs : List Import) : Document τ := xs.foldl (fun d x => (d.bring x).2) d

theorem bringAll_append (d : Document τ) (xs ys : List Import) : d.bringAll (xs ++ ys) = (d.bringAll xs).bringAll ys := by
  rw [bringAll, bringAll, bringAll, List.foldl_append]

/-! ## One type -/

/-- **A name that is there is found**, and the document stays as it is. -/
theorem bring_of_present {x : Import} (h : d.tree.rootNamed? x.name = some id) : d.bring x = (.ok (.present id), d) := by
  have hplan := Tree.planAdoption_of_present x.others h
  unfold bring
  split
  · simp only [adopt, hplan]
    rfl
  · simp only [Tree.adoptNow, hplan]
    rfl

/-- a step of the history that appends nodes -/
theorem perform_insert_of_ok {ns : List Node} {u : Tree} (h : d.tree.insert ns = .ok u) :
    d.perform (.insert ns) = (.ok (), { d with session := ⟨⟨u, d.source⟩, d.history.record (.insert ns)⟩ }) :=
  perform_of_ok (by rw [Edit.apply, Scene.onTree, show d.scene.tree.insert ns = .ok u from h]; rfl)

theorem perform_insert_of_error {ns : List Node} {err : EditError} (h : d.tree.insert ns = .error err) :
    d.perform (.insert ns) = (.error err, { d with session := ⟨d.scene, d.history⟩ }) :=
  perform_of_error (by rw [Edit.apply, Scene.onTree, show d.scene.tree.insert ns = .error err from h])

/-- the tree after a step of the history that appends nodes, which may be refused -/
theorem perform_insert (d : Document τ) (ns : List Node) :
    (∃ u, d.tree.insert ns = .ok u ∧ (d.perform (.insert ns)).1 = .ok () ∧ (d.perform (.insert ns)).2.tree = u) ∨
    (∃ e, d.tree.insert ns = .error e ∧ (d.perform (.insert ns)).2.tree = d.tree) := by
  cases hinsert : d.tree.insert ns with
  | ok u =>
    rw [perform_insert_of_ok hinsert]
    exact Or.inl ⟨u, rfl, rfl, rfl⟩
  | error e =>
    rw [perform_insert_of_error hinsert]
    exact Or.inr ⟨e, rfl, rfl⟩

theorem performFor_of_perform {α : Type} {e : Edit} {d' : Document τ} (h : d.perform e = (.ok (), d')) (a : α) :
    d.performFor e a = (.ok a, d') := by rw [performFor, h]

theorem performFor_of_ok {α : Type} {e : Edit} (h : (d.perform e).1 = .ok ()) (a : α) : (d.performFor e a).1 = .ok a := by
  rw [performFor_of_perform (Prod.ext h rfl)]

/-- what bringing a type along does: the definitions are brought along and the type is told, or the planned nodes are
refused and ids alone are spent -/
theorem bring_cases (d : Document τ) (x : Import) :
    ((d.bring x).2.tree = (d.tree.adoptNow x.others x.name).2 ∧
      (d.bring x).1 = .ok (d.tree.adoptNow x.others x.name).1) ∨
    ((d.bring x).2.tree = (d.tree.planAdoption x.others x.name).2 ∧
      ∃ e, (d.tree.planAdoption x.others x.name).2.insert (d.tree.planAdoption x.others x.name).1.nodes = .error e) := by
  unfold bring
  split
  · unfold adopt
    simp only
    split
    · next hempty => exact Or.inl ⟨(Tree.adoptNow_of_nil (List.isEmpty_iff.1 hempty)).symm, rfl⟩
    · rw [performFor_snd]
      rcases perform_insert (d.withTree (d.tree.planAdoption x.others x.name).2)
        (d.tree.planAdoption x.others x.name).1.nodes with ⟨u, hinsert, hok, htree⟩ | ⟨e, hinsert, htree⟩
      · exact Or.inl ⟨htree.trans (Tree.insert_eq_ok_iff.1 hinsert).2, performFor_of_ok hok _⟩
      · exact Or.inr ⟨htree, e, hinsert⟩
  · exact Or.inl ⟨rfl, rfl⟩

/-- bringing a type along extends the tree and moves no new id back -/
theorem extends_bring (hpos : 0 < d.tree.nextId) {x : Import} (hx : ∀ o ∈ x.others, o.Formed) :
    d.tree.Extends (d.bring x).2.tree ∧ d.tree.nextId ≤ (d.bring x).2.tree.nextId := by
  have hspent := d.tree.spent_planAdoption x.others x.name
  rcases d.bring_cases x with ⟨htree, -⟩ | ⟨htree, -⟩
  · rw [htree]
    exact ⟨Tree.extends_adoptNow hpos hx x.name, UInt64.le_trans hspent.le (Tree.nextId_le_foldl_push _ _)⟩
  · rw [htree]
    exact ⟨.of_nodes_eq hspent.nodes, hspent.le⟩

/-- **As long as there are ids nothing is refused.** The tree stays well-formed, and what the answer tells is what is found
by the name from then on. -/
theorem bring_ok (hd : d.tree.WellFormed) {x : Import} (hx : ∀ o ∈ x.others, o.Formed)
    (hroom : (d.bring x).2.tree.nextId.toNat < Word.top) : (d.bring x).2.tree.WellFormed ∧
    ∃ r, (d.bring x).1 = .ok r ∧ ∀ id, r.id? = some id → (d.bring x).2.tree.rootNamed? x.name = some id := by
  rcases d.bring_cases x with ⟨htree, hok⟩ | ⟨htree, e, hrefused⟩
  · rw [htree] at hroom ⊢
    exact ⟨hd.adoptNow hx x.name hroom, _, hok, fun id hid => Tree.rootNamed?_adoptNow hd.positive hx hid⟩
  · rw [htree] at hroom
    rw [Tree.insert_planAdoption hd hx x.name hroom] at hrefused
    exact absurd hrefused (by simp)

/-! ## One after the other -/

theorem extends_bringAll (hpos : 0 < d.tree.nextId) {xs : List Import} (hxs : ∀ x ∈ xs, ∀ o ∈ x.others, o.Formed) :
    d.tree.Extends (d.bringAll xs).tree ∧ d.tree.nextId ≤ (d.bringAll xs).tree.nextId := by
  induction xs generalizing d with
  | nil => exact ⟨.refl _, UInt64.le_refl _⟩
  | cons x rest ih =>
    rw [List.forall_mem_cons] at hxs
    obtain ⟨hstep, hle⟩ := extends_bring hpos hxs.1
    obtain ⟨hrest, hle'⟩ := ih (UInt64.lt_of_lt_of_le hpos hle) hxs.2
    exact ⟨hstep.trans hrest, UInt64.le_trans hle hle'⟩

theorem wellFormed_bringAll (hd : d.tree.WellFormed) {xs : List Import} (hxs : ∀ x ∈ xs, ∀ o ∈ x.others, o.Formed)
    (hroom : (d.bringAll xs).tree.nextId.toNat < Word.top) : (d.bringAll xs).tree.WellFormed := by
  induction xs generalizing d with
  | nil => exact hd
  | cons x rest ih =>
    rw [List.forall_mem_cons] at hxs
    obtain ⟨-, hle⟩ := extends_bring hd.positive hxs.1
    obtain ⟨-, hle'⟩ := extends_bringAll (UInt64.lt_of_lt_of_le hd.positive hle) hxs.2
    have hroom' := Nat.lt_of_le_of_lt (UInt64.le_iff_toNat_le.1 hle') hroom
    exact ih (bring_ok hd hxs.1 hroom').1 hxs.2 hroom

/-- **No type is brought along twice.** Whatever names are asked for in whatever order, from whichever other trees, nodes
that are there stay, names that are there keep their root structs, and a name that is new comes to one. Whatever is found
to be the type of a name is found by that name; as long as it is there, asking for it again answers with it and changes
nothing. -/
theorem bringAll_extends (hd : d.tree.WellFormed) {xs ys : List Import}
    (hxs : ∀ x ∈ xs ++ ys, ∀ o ∈ x.others, o.WellFormed)
    (hroom : (d.bringAll (xs ++ ys)).tree.nextId.toNat < Word.top) :
    (d.bringAll xs).tree.Extends (d.bringAll (xs ++ ys)).tree ∧
    (∀ name, d.tree.rootsNamed name = [] → ((d.bringAll xs).tree.rootsNamed name).length ≤ 1) ∧
    (∀ y rest, ys = y :: rest → ∃ r, ((d.bringAll xs).bring y).1 = .ok r ∧
      ∀ id, r.id? = some id → (d.bringAll (xs ++ [y])).tree.rootNamed? y.name = some id) ∧
    ∀ (x : Import) (id : NodeId), (d.bringAll xs).tree.rootNamed? x.name = some id →
      (d.bringAll xs).bring x = (.ok (.present id), d.bringAll xs) := by
  have hformed : ∀ x ∈ xs ++ ys, ∀ o ∈ x.others, o.Formed := fun x hx o ho => (hxs x hx o ho).toFormed
  rw [List.forall_mem_append] at hformed
  rw [bringAll_append] at hroom ⊢
  obtain ⟨hearlier, hle⟩ := extends_bringAll hd.positive hformed.1
  have hpos := UInt64.lt_of_lt_of_le hd.positive hle
  obtain ⟨hlater, hle'⟩ := extends_bringAll hpos hformed.2
  have hmid := wellFormed_bringAll hd hformed.1 (Nat.lt_of_le_of_lt (UInt64.le_iff_toNat_le.1 hle') hroom)
  refine ⟨hlater, hearlier.single, fun y rest e => ?_, fun x id hid => bring_of_present hid⟩
  subst e
  rw [List.forall_mem_cons] at hformed
  obtain ⟨-, hstep⟩ := extends_bring hpos hformed.2.1
  obtain ⟨-, hrest⟩ := extends_bringAll (UInt64.lt_of_lt_of_le hpos hstep) hformed.2.2
  rw [bringAll_append]
  exact (bring_ok hmid hformed.2.1 (Nat.lt_of_le_of_lt (UInt64.le_iff_toNat_le.1 hrest) hroom)).2

/-- a list brings its owner along; the pair that the owner refers to is there already -/
theorem bringAll_extends_chain :
    let d : Document Image := ofTree Tree.pair
    let xs : List Import := [⟨"List", [Tree.chain], true⟩]
    let ys : List Import := [⟨"Owner", [Tree.chain], false⟩, ⟨"Pair", [Tree.chain, Tree.pair], true⟩]
    (d.bringAll xs).tree.Extends (d.bringAll (xs ++ ys)).tree ∧ d.tree.rootsNamed "Owner" = [] ∧
    ((d.bringAll (xs ++ ys)).tree.rootsNamed "Owner").length = 1 ∧
    (d.bringAll (xs ++ ys)).bring ⟨"Owner", [Tree.chain], true⟩ = (.ok (.present 9), d.bringAll (xs ++ ys)) := by
  intro d xs ys
  have hchain : ∀ x ∈ xs ++ ys ++ [], ∀ o ∈ x.others, o.WellFormed := by
    have hall : ∀ x ∈ xs ++ ys ++ [], ∀ o ∈ x.others, o = Tree.chain ∨ o = Tree.pair := by decide
    intro x hx o ho
    rcases hall x hx o ho with rfl | rfl
    · exact Tree.wellFormed_ofNodes Tree.ofNodes_chain
    · exact Tree.wellFormed_ofNodes Tree.ofNodes_pair
  have hpair : d.tree.WellFormed := Tree.wellFormed_ofNodes Tree.ofNodes_pair
  obtain ⟨hextends, -, -, -⟩ := bringAll_extends hpair (by simpa using hchain) (by decide)
  obtain ⟨-, -, -, hagain⟩ := bringAll_extends hpair hchain (by decide)
  exact ⟨hextends, by decide, by decide, hagain ⟨"Owner", [Tree.chain], true⟩ 9 (by decide)⟩

/-! ## With checks and without -/

/-- planned nodes are inserted, if there are any, and then a node is made to refer to something -/
theorem apply_planned_refer {t u : Tree} (ht : t.WellFormed) (hothers : ∀ o ∈ others, o.Formed)
    (hroom : (t.planAdoption others name).2.nextId.toNat < Word.top) (old : NodeId) {target : NodeId}
    (hu : (t.adoptNow others name).2.modify id (fun n => { n with ref := target }) = .ok u) (source : Source τ) :
    let ns := (t.planAdoption others name).1.nodes
    Edit.apply (.batch ((if ns.isEmpty then [] else [.insert ns]) ++ [.refer id old target]))
      ⟨(t.planAdoption others name).2, source⟩ = (.ok (), ⟨u, source⟩) := by
  intro ns
  have hrefer : Edit.applyAll [.refer id old target] ⟨(t.adoptNow others name).2, source⟩ = (.ok (), ⟨u, source⟩) := by
    simp only [Edit.applyAll, Edit.apply, Scene.onTree, hu]
  rw [Edit.apply]
  split
  · next hempty =>
    rw [List.nil_append, ← Tree.adoptNow_of_nil (List.isEmpty_iff.1 hempty)]
    exact hrefer
  · have hinsert := Tree.insert_planAdoption ht hothers name hroom
    rw [List.singleton_append, Edit.applyAll, Edit.apply, Scene.onTree]
    simp only [ns, hinsert, hrefer]

section ReferTo

variable {n : Node} (hn : d.tree.find? id = some n) (hrefer : canRefer n = true)

include hn hrefer

theorem referTo_of_unresolved (hr : (d.tree.planAdoption others name).1.resolution = .unresolved) :
    d.referTo id name others = (.ok .unresolved, d.withTree (d.tree.planAdoption others name).2) := by
  simp only [referTo, withNode, hn, hrefer, hr, Resolution.id?, Bool.not_true, Bool.false_eq_true, if_false]

theorem referTo_of_resolved {target : NodeId} (hr : (d.tree.planAdoption others name).1.resolution.id? = some target) :
    let ns := (d.tree.planAdoption others name).1.nodes
    d.referTo id name others =
      (d.withTree (d.tree.planAdoption others name).2).performFor
        (.batch ((if ns.isEmpty then [] else [.insert ns]) ++ [.refer id n.ref target]))
        (d.tree.planAdoption others name).1.resolution := by
  simp only [referTo, withNode, hn, hrefer, hr, Bool.not_true, Bool.false_eq_true, if_false]

end ReferTo

/-- **Planned nodes pass every check.** As long as there are ids, a step of the history that brings a type along is never
refused; neither is one that also makes a node refer to the type, if the node can refer to something. They leave the tree
that bringing the type along at once leaves, in which no check is made, and answer the same. -/
theorem adopt_agrees (hd : d.tree.WellFormed) (hothers : ∀ o ∈ others, o.WellFormed) (name : String)
    (hroom : (d.tree.planAdoption others name).2.nextId.toNat < Word.top) :
    let plan := d.tree.planAdoption others name
    let now := d.tree.adoptNow others name
    (∀ source : Source τ, Edit.apply (.insert plan.1.nodes) ⟨plan.2, source⟩ = (.ok (), ⟨now.2, source⟩)) ∧
    ((d.adopt name others).1 = .ok now.1 ∧ (d.adopt name others).2.tree = now.2) ∧
    ∀ id n, d.tree.find? id = some n → canRefer n = true →
      (d.referTo id name others).1 = .ok now.1 ∧
      (now.1 = .unresolved → (d.referTo id name others).2.tree = now.2) ∧
      ∀ target, now.1.id? = some target →
        now.2.modify id (fun n => { n with ref := target }) = .ok (d.referTo id name others).2.tree := by
  intro plan now
  have hformed : ∀ o ∈ others, o.Formed := fun o ho => (hothers o ho).toFormed
  have hinsert : plan.2.insert plan.1.nodes = .ok now.2 := Tree.insert_planAdoption hd hformed name hroom
  refine ⟨fun source => ?_, ?_, fun id n hn hrefer => ?_⟩
  · rw [Edit.apply, Scene.onTree]
    simp only [hinsert]
  · rcases d.bring_cases ⟨name, others, true⟩ with ⟨htree, hok⟩ | ⟨-, e, hrefused⟩
    · exact ⟨hok, htree⟩
    · exact absurd (hinsert.symm.trans hrefused) (by simp)
  · cases hid : now.1.id? with
    | none =>
      have hr : now.1 = .unresolved := Resolution.id?_eq_none_iff.1 hid
      rw [referTo_of_unresolved hn hrefer hr, hr]
      exact ⟨rfl, fun _ => (Tree.adoptNow_of_nil (Tree.nodes_planAdoption_of_unresolved hr)).symm, by simp⟩
    | some target =>
      -- the node is still there when the planned ones are
      have hspent := d.tree.spent_planAdoption others name
      have hfound : now.2.find? id = some n :=
        Edit.find?_of_insert (hspent.formed hd.toFormed) hinsert ((hspent.find? id).trans hn)
      obtain ⟨i, hi, -⟩ := Option.bind_eq_some_iff.1 hfound
      have hu : now.2.modify id (fun n => { n with ref := target }) = .ok _ := Tree.modify_eq_ok_iff.2 ⟨i, hi, rfl⟩
      have happ := perform_of_ok (d := d.withTree plan.2) (apply_planned_refer hd hformed hroom n.ref hu d.source)
      rw [referTo_of_resolved hn hrefer hid]
      refine ⟨performFor_of_ok (by rw [happ]) _, fun h => ?_, fun other h => ?_⟩
      · rw [h] at hid
        exact absurd hid (by simp [Resolution.id?])
      · obtain rfl := Option.some.inj h
        rw [hu, performFor_snd, happ]
        rfl

/-- a list is brought along for the pair: as a step, at once, and so that the pair refers to it -/
theorem adopt_agrees_chain :
    let d : Document Image := ofTree Tree.pair
    let now := d.tree.adoptNow [Tree.chain] "List"
    now.1 = .copied 4 0 ∧ now.2.nodes.length = 11 ∧
    (d.adopt "List" [Tree.chain]).1 = .ok now.1 ∧ (d.adopt "List" [Tree.chain]).2.tree = now.2 ∧
    (d.referTo 1 "List" [Tree.chain]).1 = .ok now.1 ∧
    now.2.modify 1 (fun n => { n with ref := 4 }) = .ok (d.referTo 1 "List" [Tree.chain]).2.tree := by
  intro d now
  have hd : d.tree.WellFormed := Tree.wellFormed_ofNodes Tree.ofNodes_pair
  have hfound : d.tree.find? 1 = some Tree.pairNodes[0] := rfl
  have hcan : canRefer Tree.pairNodes[0] = true := rfl
  have hchain : ∀ o ∈ [Tree.chain], o.WellFormed := by
    intro o ho
    rw [List.mem_singleton.1 ho]
    exact Tree.wellFormed_ofNodes Tree.ofNodes_chain
  have hroom : (d.tree.planAdoption [Tree.chain] "List").2.nextId.toNat < Word.top := by decide
  obtain ⟨-, ⟨hok, htree⟩, hrefer⟩ := adopt_agrees hd hchain "List" hroom
  obtain ⟨hanswer, -, hlinked⟩ := hrefer 1 _ hfound hcan
  have hnow : now.1 = .copied 4 0 := by decide
  exact ⟨hnow, by decide, hok, htree, hanswer, hlinked 4 (congrArg Resolution.id? hnow)⟩

end Document

end ByteAtlas
