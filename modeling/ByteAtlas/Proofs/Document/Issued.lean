/-
New ids. A tree gives out its next new id and steps over it; it also steps over every id that a node brings along. Loading
and adding refuse ids past `Tree.maxId`, inserting does not. The counter stops at the largest word, so a node that brings a
very large id along leaves no room for new ones.

- `Document.Entry`: the ways by which nodes with ids of their own come in and new ids are given out.
- `Document.Fresh`: an id is not zero, not there, and was not given out before.
- `Orderly.fresh`: every id below the largest word is fresh when it is given out.
- `Bounded.enterAll`: how far the next new id can have come.
- `Document.fresh_iff`: so many new ids are fresh exactly if the largest id that came in leaves room for them.
- `Document.not_fresh_largest`: one inserted node is enough for the same word to be given out over and over.
-/
import ByteAtlas.Proofs.Stored.Accepted

namespace ByteAtlas.Document

variable {τ : Type}

/-- something by which nodes come in or a new id is given out -/
inductive Entry where
  | reserve
  /-- a node is added to the tree; without an id it is given a new one, which is spent even if the node is refused -/
  | add (n : Node)
  /-- nodes are inserted by an edit that is made past the history -/
  | apply (ns : List Node)
  /-- such an edit is taken back -/
  | retract (ns : List Node)
  /-- nodes are inserted by an edit that is recorded -/
  | perform (ns : List Node)
  | undo
  | redo

def Entry.issue? (t : Tree) : Entry → Option NodeId
  | .reserve => some t.reserve.1
  | .add n => if n.id = 0 then some t.reserve.1 else none
  | _ => none

/-- the nodes that are to come in with whatever ids they have -/
def Entry.brings : Entry → List Node
  | .apply ns => ns
  | .perform ns => ns
  | _ => []

/-- the document in another scene, its history as it was -/
def withScene (d : Document τ) (scene : Scene τ) : Document τ := { d with session := { d.session with scene } }

section Entering

variable [Transport τ]

def enter (d : Document τ) : Entry → Document τ
  | .reserve => d.withTree d.tree.reserve.2
  | .add n => d.withTree (d.tree.add n).2
  | .apply ns => d.withScene ((Edit.insert ns).apply d.scene).2
  | .retract ns => d.withScene ((Edit.insert ns).retract d.scene).2
  | .perform ns => (d.perform (.insert ns)).2
  | .undo => d.undo.2
  | .redo => d.redo.2

def enterAll (d : Document τ) (es : List Entry) : Document τ := es.foldl enter d

/-- the ids that are given out on the way, the first one first -/
def issued (d : Document τ) : List Entry → List NodeId
  | [] => []
  | e :: rest => (e.issue? d.tree).toList ++ (d.enter e).issued rest

/-- an id that is given out after some entries is new -/
structure Fresh (d : Document τ) (es : List Entry) (id : NodeId) : Prop where
  nonzero : id ≠ 0
  absent : (d.enterAll es).tree.contains id = false
  unissued : id ∉ d.issued es

variable {d : Document τ} {e : Entry} {es es' : List Entry} {id : NodeId}

theorem enterAll_append (d : Document τ) (es es' : List Entry) :
    d.enterAll (es ++ es') = (d.enterAll es).enterAll es' := by
  rw [enterAll, enterAll, enterAll, List.foldl_append]

theorem issued_append (d : Document τ) (es es' : List Entry) :
    d.issued (es ++ es') = d.issued es ++ (d.enterAll es).issued es' := by
  induction es generalizing d with
  | nil => rfl
  | cons e rest ih => rw [List.cons_append, issued, issued, ih, List.append_assoc]; rfl

/-- it is always the next new id that is given out, and it is stepped over -/
theorem issue?_eq_some (h : e.issue? d.tree = some id) :
    id = d.tree.nextId ∧ Word.satAdd id 1 ≤ (d.enter e).tree.nextId := by
  cases e with
  | reserve =>
    obtain rfl := Option.some.inj h
    exact ⟨rfl, UInt64.le_refl _⟩
  | add n =>
    by_cases h0 : n.id = 0
    · rw [Entry.issue?, if_pos h0] at h
      obtain rfl := Option.some.inj h
      refine ⟨rfl, ?_⟩
      change _ ≤ (d.tree.add n).2.nextId
      rw [Tree.add, if_pos h0]
      exact Tree.nextId_le_accept d.tree.reserve.2 _
    · rw [Entry.issue?, if_neg h0] at h
      cases h
  | _ => cases h

/-! ## Below the largest word -/

/-- one entry keeps a document orderly, and moves the next new id only forward -/
theorem Orderly.enter (h : d.Orderly) (e : Entry) : d.Advances (d.enter e) := by
  cases e with
  | reserve => exact ⟨⟨h.tree.reserve, h.done, h.undone⟩, d.tree.nextId_le_reserve⟩
  | add n => exact ⟨⟨h.tree.add n, h.done, h.undone⟩, d.tree.nextId_le_add n⟩
  | apply ns =>
    obtain ⟨hsteady, hle⟩ := (carries_steady (e := .insert ns) trivial d.scene h.tree).1
    exact ⟨⟨hsteady, h.done, h.undone⟩, hle⟩
  | retract ns =>
    obtain ⟨hsteady, hle⟩ := (carries_steady (e := .insert ns) trivial d.scene h.tree).2
    exact ⟨⟨hsteady, h.done, h.undone⟩, hle⟩
  | perform ns => exact h.perform (e := .insert ns) trivial
  | undo => exact h.undo
  | redo => exact h.redo

theorem Orderly.enterAll (h : d.Orderly) (es : List Entry) : d.Advances (d.enterAll es) := by
  induction es generalizing d with
  | nil => exact .refl h
  | cons e rest ih => exact (h.enter e).trans (ih (h.enter e).orderly)

/-- ids that were given out stay stepped over -/
theorem Orderly.satAdd_le_of_mem_issued (h : d.Orderly) (hid : id ∈ d.issued es) :
    Word.satAdd id 1 ≤ (d.enterAll es).tree.nextId := by
  induction es generalizing d with
  | nil => simp [issued] at hid
  | cons e rest ih =>
    have hnext := (h.enter e).orderly
    rw [issued, List.mem_append, Option.mem_toList] at hid
    rcases hid with hid | hid
    · exact UInt64.le_trans (issue?_eq_some hid).2 (hnext.enterAll rest).le
    · exact ih hnext hid

/-- **An id below the largest word is fresh when it is given out**, whatever ids came in before. -/
theorem Orderly.fresh (h : d.Orderly) (hid : e.issue? (d.enterAll es).tree = some id) :
    id ≠ 0 ∧ (id.toNat < Word.top → d.Fresh es id) := by
  have hlater := (h.enterAll es).orderly.tree
  obtain ⟨rfl, -⟩ := issue?_eq_some hid
  have hnonzero := (UInt64.ne_of_lt hlater.positive).symm
  refine ⟨hnonzero, fun htop => ⟨hnonzero, ?_, fun hissued => ?_⟩⟩
  · rw [Tree.contains_eq_false_iff hlater.indexed]
    exact fun n hn => UInt64.ne_of_lt (hlater.below htop n hn)
  · exact UInt64.lt_irrefl _ (Tree.lt_of_satAdd_le (h.satAdd_le_of_mem_issued hissued) htop)

end Entering

end ByteAtlas.Document

namespace ByteAtlas

/-! ## How far ids come -/

namespace Tree

variable {t u : Tree} {n : Node} {ns : List Node} {k : Nat}

/-- all ids lie below a number, and the next new one does not lie past it -/
structure Confined (k : Nat) (t : Tree) : Prop where
  next : t.nextId.toNat ≤ k
  ids : ∀ n ∈ t.nodes, n.id.toNat < k

theorem Confined.push (h : t.Confined k) (hn : n.id.toNat < k) : (t.push n).Confined k where
  next := by
    change (max t.nextId (Word.satAdd n.id 1)).toNat ≤ k
    rw [Word.toNat_max, Word.toNat_satAdd, show (1 : UInt64).toNat = 1 from rfl]
    exact max_le h.next ((min_le_left _ _).trans hn)
  ids := by
    intro m hm
    rcases List.mem_append.1 hm with hm | hm
    · exact h.ids m hm
    · exact List.mem_singleton.1 hm ▸ hn

theorem Confined.foldl_push (h : t.Confined k) (hns : ∀ n ∈ ns, n.id.toNat < k) : (ns.foldl Tree.push t).Confined k := by
  induction ns generalizing t with
  | nil => exact h
  | cons n rest ih =>
    obtain ⟨hn, hrest⟩ := List.forall_mem_cons.1 hns
    exact ih (h.push hn) hrest

theorem Confined.insert (h : t.Confined k) (hns : ∀ n ∈ ns, n.id.toNat < k) (hu : t.insert ns = .ok u) : u.Confined k := by
  rw [(insert_eq_ok_iff.1 hu).2]
  exact h.foldl_push hns

theorem Confined.removeIds (h : t.Confined k) {ids : List NodeId} (hu : t.removeIds ids = .ok u) : u.Confined k := by
  refine ⟨nextId_removeIds hu ▸ h.next, fun n hn => h.ids n ?_⟩
  unfold Tree.removeIds at hu
  split at hu
  · simp at hu
  · rw [(remove_eq_ok_iff.1 hu).2.2, nodes_foldr_takeOut] at hn
    exact (eraseAll_sublist _ _).subset hn
  · obtain rfl := Except.ok.inj hu
    exact hn

theorem Confined.reserve (h : t.Confined k) : t.reserve.2.Confined (k + 1) where
  next := by
    change (Word.satAdd t.nextId 1).toNat ≤ k + 1
    rw [Word.toNat_satAdd, show (1 : UInt64).toNat = 1 from rfl]
    exact (min_le_left _ _).trans (Nat.succ_le_succ h.next)
  ids n hn := (h.ids n hn).trans (Nat.lt_succ_self k)

theorem Confined.accept (h : t.Confined k) (hn : n.id ≤ maxId → n.id.toNat < k) : (t.accept n).2.Confined k := by
  unfold Tree.accept checkRoom
  by_cases hroom : maxId < n.id
  · rw [if_pos hroom]
    exact h
  · rw [if_neg hroom]
    cases t.checkHolder n.parent with
    | error e => exact h
    | ok _ => exact h.push (hn (UInt64.not_lt.1 hroom))

end Tree

/-- an edit that brings in no id past a bound -/
def Edit.InsertsUpTo (most : NodeId) (e : Edit) : Prop := ∃ ns, e = .insert ns ∧ ∀ n ∈ ns, n.id ≤ most

theorem carrier_confined (k : Nat) : Edit.Carrier (Tree.Confined k) fun _ u => u.Confined k :=
  ⟨fun h => h, fun _ h => h, fun _ h => h⟩

theorem Edit.InsertsUpTo.carries {τ : Type} [Transport τ] {most : NodeId} {k : Nat} (hk : most.toNat < k) {e : Edit}
    (he : e.InsertsUpTo most) : e.Carries τ (Tree.Confined k) fun _ u => u.Confined k := by
  obtain ⟨ns, rfl, hns⟩ := he
  have hids : ∀ n ∈ ns, n.id.toNat < k := fun n hn => (UInt64.le_iff_toNat_le.1 (hns n hn)).trans_lt hk
  intro s h
  exact ⟨carries_onTree (carrier_confined k) h fun u hu => h.insert hids hu,
    carries_onTree (carrier_confined k) h fun u hu => h.removeIds hu⟩

namespace Document

variable {τ : Type} [Transport τ] {d : Document τ} {e : Entry} {es : List Entry} {id most : NodeId} {k : Nat}

/-- ids that lie within bounds, and a history that brings in none past another -/
abbrev Bounded (most : NodeId) (k : Nat) (d : Document τ) : Prop := d.Governed (Tree.Confined k) (Edit.InsertsUpTo most)

/-- one entry moves the bound on by the ids that it gives out -/
theorem Bounded.enter (h : d.Bounded most k) (hmost : Tree.maxId ≤ most) (hk : most.toNat < k)
    (hbrings : ∀ n ∈ e.brings, n.id ≤ most) : (d.enter e).Bounded most (k + (e.issue? d.tree).toList.length) := by
  have hcarries : ∀ f : Edit, f.InsertsUpTo most → f.Carries τ (Tree.Confined k) fun _ u => u.Confined k :=
    fun _ hf => hf.carries hk
  cases e with
  | reserve => exact ⟨h.tree.reserve, h.done, h.undone⟩
  | add n =>
    refine ⟨?_, h.done, h.undone⟩
    change (d.tree.add n).2.Confined _
    by_cases h0 : n.id = 0
    · rw [Tree.add, Entry.issue?, if_pos h0, if_pos h0]
      exact h.tree.reserve.accept fun _ => Nat.lt_succ_of_le h.tree.next
    · rw [Tree.add, Entry.issue?, if_neg h0, if_neg h0]
      split_ifs
      · exact h.tree
      · exact h.tree.accept fun hroom =>
          (UInt64.le_iff_toNat_le.1 hroom).trans_lt ((UInt64.le_iff_toNat_le.1 hmost).trans_lt hk)
  | apply ns => exact ⟨(hcarries _ ⟨ns, rfl, hbrings⟩ d.scene h.tree).1, h.done, h.undone⟩
  | retract ns =>
    exact ⟨Edit.carries_onTree (carrier_confined k) h.tree fun u hu => h.tree.removeIds hu, h.done, h.undone⟩
  | perform ns => exact (h.perform (carrier_confined k) ⟨ns, rfl, hbrings⟩ (hcarries _ ⟨ns, rfl, hbrings⟩)).1
  | undo => exact (h.undo (carrier_confined k) hcarries).1
  | redo => exact (h.redo (carrier_confined k) hcarries).1

/-- what is given out on the way lies within the bound that is reached in the end -/
theorem Bounded.enterAll (h : d.Bounded most k) (hmost : Tree.maxId ≤ most) (hk : most.toNat < k)
    (hbrings : ∀ e ∈ es, ∀ n ∈ e.brings, n.id ≤ most) : (d.enterAll es).Bounded most (k + (d.issued es).length) ∧
      ∀ id ∈ d.issued es, id.toNat < k + (d.issued es).length := by
  induction es generalizing d k with
  | nil => exact ⟨h, by simp [issued]⟩
  | cons e rest ih =>
    obtain ⟨he, hrest⟩ := List.forall_mem_cons.1 hbrings
    obtain ⟨hend, hids⟩ := ih (h.enter hmost hk he) (Nat.lt_add_right _ hk) hrest
    rw [issued, List.length_append, ← Nat.add_assoc]
    refine ⟨hend, fun id hid => ?_⟩
    rcases List.mem_append.1 hid with hid | hid
    · rw [Option.mem_toList] at hid
      obtain ⟨rfl, -⟩ := issue?_eq_some hid
      have hnext := h.tree.next
      rw [hid, Option.toList_some, List.length_singleton]
      omega
    · exact hids id hid

/-! ## Room for new ids -/

omit [Transport τ] in
/-- a tree that is built has all its ids in range, and the next new one at most behind them -/
theorem bounded_of_ofNodes {base nextId : UInt64} {ns : List Node} (ht : Tree.ofNodes base ns nextId = .ok d.tree)
    (hdone : d.history.done = []) (hundone : d.history.undone = []) (hmost : Tree.maxId ≤ most) :
    d.Bounded most (most.toNat + 1) := by
  have h := Tree.acceptable_of_ofNodes ht
  have hgreatest := Tree.isGreatest_nextId ht
  obtain ⟨-, hnodes⟩ := Tree.built_ofNodes ht
  have hids : ∀ n ∈ ns, n.id.toNat < most.toNat + 1 := fun n hn =>
    Nat.lt_succ_of_le ((UInt64.le_iff_toNat_le.1 (h.room n hn)).trans (UInt64.le_iff_toNat_le.1 hmost))
  refine ⟨⟨?_, hnodes ▸ hids⟩, by simp [hdone], by simp [hundone]⟩
  rcases hgreatest.1 with hone | hgiven | ⟨n, hn, hstep⟩
  · omega
  · have hle := (UInt64.le_iff_toNat_le.1 h.nextRoom).trans (Nat.succ_le_succ (UInt64.le_iff_toNat_le.1 hmost))
    rwa [hgiven]
  · rw [hstep]
    exact hids n hn

/-- an id is fresh as long as those that came in and those that were given out leave room for it -/
theorem Bounded.fresh (h : d.Bounded most (most.toNat + 1)) (horderly : d.Orderly) (hmost : Tree.maxId ≤ most)
    (hbrings : ∀ e ∈ es, ∀ n ∈ e.brings, n.id ≤ most) (hroom : most.toNat + (d.issued es).length < Word.top)
    (hid : e.issue? (d.enterAll es).tree = some id) : d.Fresh es id := by
  obtain ⟨hnonzero, hfresh⟩ := horderly.fresh hid
  rcases Nat.lt_or_ge id.toNat Word.top with htop | htop
  · exact hfresh htop
  · -- the largest word itself, which lies past all that is there and all that was given out
    obtain ⟨hend, hids⟩ := h.enterAll hmost (Nat.lt_succ_self _) hbrings
    refine ⟨hnonzero, ?_, fun hissued => ?_⟩
    · rw [Tree.contains_eq_false_iff (horderly.enterAll es).orderly.tree.indexed]
      rintro n hn rfl
      have := hend.tree.ids n hn
      omega
    · have := hids id hissued
      omega

def rootOf (id : NodeId) : Node := { Node.rootStruct "" "" with id }

/-- after a root struct is inserted it is there, or was there already -/
theorem contains_enter_apply (h : d.Orderly) (hid : id ≠ 0) : (d.enter (.apply [rootOf id])).tree.contains id = true := by
  have hindexed := (h.enter (.apply [rootOf id])).orderly.tree.indexed
  change ((Edit.insert [rootOf id]).apply d.scene).2.tree.Indexed at hindexed
  change ((Edit.insert [rootOf id]).apply d.scene).2.tree.contains id = true
  rw [Edit.apply, Scene.onTree] at hindexed ⊢
  cases hc : d.tree.contains id with
  | true =>
    have hrefused : d.tree.insert [rootOf id] = .error (.duplicateId id) := by
      simp [Tree.insert, Tree.checkInsert, rootOf, hid, hc]
    rwa [show d.scene.tree = d.tree from rfl, hrefused]
  | false =>
    have hdone : d.tree.insert [rootOf id] = .ok (d.tree.push (rootOf id)) := by
      simp [Tree.insert, Tree.checkInsert, Tree.checkHolder, rootOf, Node.rootStruct, Node.ofKind, hid, hc]
    rw [show d.scene.tree = d.tree from rfl, hdone] at hindexed ⊢
    exact (Tree.contains_iff hindexed).2 ⟨rootOf id, List.mem_append_right _ List.mem_cons_self, rfl⟩

/-- a node with an id comes in, and then so many new ids are asked for -/
def filling (id : NodeId) (count : Nat) : List Entry := .apply [rootOf id] :: List.replicate count .reserve

theorem filling_succ (id : NodeId) (count : Nat) : filling id (count + 1) = filling id count ++ [.reserve] := by
  rw [filling, filling, List.replicate_succ', List.cons_append]

theorem brings_filling {count : Nat} : ∀ f ∈ filling most count, ∀ n ∈ f.brings, n.id ≤ most := by
  intro f hf n hn
  rcases List.mem_cons.1 hf with rfl | hf
  · rw [List.mem_singleton.1 hn]
    exact UInt64.le_refl _
  · rw [(List.mem_replicate.1 hf).2] at hn
    cases hn

theorem length_issued_filling (d : Document τ) (id : NodeId) (count : Nat) : (d.issued (filling id count)).length = count := by
  induction count with
  | zero => rfl
  | succ count ih => rw [filling_succ, issued_append, List.length_append, ih]; rfl

/-- each of these ids is fresh only if the largest word was not reached before -/
theorem le_nextId_filling (h : d.Orderly) (hmost : most ≠ 0) {count : Nat}
    (hfresh : ∀ j ≤ count, d.Fresh (filling most j) (d.enterAll (filling most j)).tree.nextId) :
    most.toNat + 1 + count ≤ (d.enterAll (filling most count)).tree.nextId.toNat := by
  induction count with
  | zero =>
    have hsteady := (h.enterAll (filling most 0)).orderly.tree
    have habsent := (hfresh 0 (Nat.le_refl 0)).absent
    obtain ⟨n, hn, rfl⟩ := (Tree.contains_iff hsteady.indexed).1 (contains_enter_apply h hmost)
    rw [Tree.contains_eq_false_iff hsteady.indexed] at habsent
    rcases Nat.lt_or_ge (d.enterAll (filling n.id 0)).tree.nextId.toNat Word.top with htop | htop
    · exact UInt64.lt_iff_toNat_lt.1 (hsteady.below htop n hn)
    · have hne : n.id.toNat ≠ (d.enterAll (filling n.id 0)).tree.nextId.toNat := fun e =>
        habsent n hn (UInt64.toNat_inj.1 e)
      have hle := Word.toNat_le_top n.id
      have hnext := Word.toNat_le_top (d.enterAll (filling n.id 0)).tree.nextId
      omega
  | succ count ih =>
    have hle := ih fun j hj => hfresh j (Nat.le_succ_of_le hj)
    have hunissued := (hfresh (count + 1) (Nat.le_refl _)).unissued
    have hnext : (d.enterAll (filling most (count + 1))).tree.nextId =
        Word.satAdd (d.enterAll (filling most count)).tree.nextId 1 := by
      rw [filling_succ, enterAll_append]
      rfl
    rcases Nat.lt_or_ge (d.enterAll (filling most count)).tree.nextId.toNat Word.top with htop | htop
    · rw [hnext, Tree.toNat_satAdd_one htop]
      omega
    · -- the counter stands still, so the same word is given out a second time
      have hsame : Word.satAdd (d.enterAll (filling most count)).tree.nextId 1 =
          (d.enterAll (filling most count)).tree.nextId := by
        have hmax := Word.toNat_le_top (d.enterAll (filling most count)).tree.nextId
        rw [← UInt64.toNat_inj, Word.toNat_satAdd, show (1 : UInt64).toNat = 1 from rfl]
        omega
      refine absurd ?_ hunissued
      rw [hnext, hsame, filling_succ, issued_append]
      exact List.mem_append_right _ List.mem_cons_self

/-- **How many new ids are fresh.** Whatever is done to a document over a tree that was built, none of the ids that it gives
out is zero, and all of them below the largest word are new. For ids up to a bound that come in and so many ids that are
given out, all are new exactly if there is room for them between the bound and the largest word. -/
theorem fresh_iff {base nextId : UInt64} {ns : List Node} (ht : Tree.ofNodes base ns nextId = .ok d.tree)
    (hdone : d.history.done = []) (hundone : d.history.undone = []) :
    (∀ es e id, Entry.issue? (d.enterAll es).tree e = some id → id ≠ 0 ∧ (id.toNat < Word.top → d.Fresh es id)) ∧
    ∀ most count, Tree.maxId ≤ most →
      ((∀ es e id, (∀ f ∈ es, ∀ n ∈ Entry.brings f, n.id ≤ most) → (d.issued es).length < count →
        Entry.issue? (d.enterAll es).tree e = some id → d.Fresh es id) ↔ most.toNat + count ≤ Word.top) := by
  have h : d.Orderly := ⟨(Tree.wellFormed_ofNodes ht).steady, by simp [hdone], by simp [hundone]⟩
  refine ⟨fun es e id hid => h.fresh hid, fun most count hmost => ⟨fun hfresh => ?_, fun hroom es e id hbrings hlen hid => ?_⟩⟩
  · cases count with
    | zero => exact Word.toNat_le_top most
    | succ count =>
      have hmost0 : most ≠ 0 := by
        rintro rfl
        exact absurd hmost (by decide)
      have hfilled : ∀ j ≤ count, d.Fresh (filling most j) (d.enterAll (filling most j)).tree.nextId := fun j hj =>
        hfresh (filling most j) .reserve _ brings_filling (by rw [length_issued_filling]; omega) rfl
      have hle := le_nextId_filling h hmost0 hfilled
      have hmax := Word.toNat_le_top (d.enterAll (filling most count)).tree.nextId
      omega
  · exact (bounded_of_ofNodes ht hdone hundone hmost).fresh h hmost hbrings (by omega) hid

/-- nodes come in past the history and through it, and ids are given out in between -/
def pairEntries : List Entry :=
  [.perform [rootOf 100], .reserve, .undo, .add (Node.field 1 2 .uint8 "third"), .apply [rootOf Tree.maxId], .redo]

/-- the struct of two bytes, after the largest id that is foreseen has come in: the next new id is the one behind it -/
theorem fresh_iff_pair : (ofTree Tree.pair : Document Image).issued pairEntries = [101, 102] ∧
    (ofTree Tree.pair : Document Image).Fresh pairEntries 0x8000000000000000 := by
  have hroom : Tree.maxId.toNat + 3 ≤ Word.top := by decide
  refine ⟨by decide, ((fresh_iff Tree.ofNodes_pair rfl rfl).2 Tree.maxId 3 (UInt64.le_refl _)).2 hroom pairEntries .reserve _
    ?_ (by decide) (by decide)⟩
  decide

/-- **New ids need not be new.** A node with the largest word for its id is inserted into an empty tree that was built. From
then on that word is given out: while the node is there, and again and again. -/
theorem not_fresh_largest : Tree.ofNodes 0 [] 0 = .ok (ofTree (Tree.empty 0) : Document Image).tree ∧
    Entry.issue? ((ofTree (Tree.empty 0) : Document Image).enterAll [.apply [rootOf 0xffffffffffffffff]]).tree .reserve =
      some 0xffffffffffffffff ∧
    ((ofTree (Tree.empty 0) : Document Image).enterAll [.apply [rootOf 0xffffffffffffffff]]).tree.contains
      0xffffffffffffffff = true ∧
    (ofTree (Tree.empty 0) : Document Image).issued [.apply [rootOf 0xffffffffffffffff], .reserve, .reserve] =
      [0xffffffffffffffff, 0xffffffffffffffff] := by
  refine ⟨rfl, ?_, ?_, ?_⟩ <;> decide

end Document

end ByteAtlas
