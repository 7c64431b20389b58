/-
Edits that keep trees in order, whatever the tree and whatever the source. What an edit must carry for that does not
depend on the tree (`Edit.Sound`): nodes that it takes out were once captured together from a forest. A history of sound
edits can then be gone through in any order, also when the tree was changed behind its back.

Batches are dealt with once (`Edit.carries`): whatever relation of trees single changes carry on, forwards and backwards,
all edits carry on, the rollback of batches included, where edits meet trees that they were not made on. The relation is
used for the next new id, which no edit moves back, and for `Tree.Steady`.
-/
import ByteAtlas.Proofs.Edit.Alike
import ByteAtlas.Proofs.Tree.Building

namespace ByteAtlas

namespace Tree

variable {t u : Tree} {removed : List (Nat × Node)} {ns : List Node} {id : NodeId}

/-! ## The next new id -/

theorem nextId_le_foldl_push (t : Tree) (ns : List Node) : t.nextId ≤ (ns.foldl push t).nextId := by
  induction ns generalizing t with
  | nil => exact UInt64.le_refl _
  | cons n rest ih => exact UInt64.le_trans (nextId_le_push t n) (ih _)

theorem satAdd_le_foldl_push (t : Tree) {n : Node} (hn : n ∈ ns) : Word.satAdd n.id 1 ≤ (ns.foldl push t).nextId := by
  induction ns generalizing t with
  | nil => simp at hn
  | cons m rest ih =>
    rcases List.mem_cons.1 hn with rfl | hn
    · exact UInt64.le_trans (satAdd_le_advance t n.id) (nextId_le_foldl_push (t.push n) rest)
    · exact ih _ hn

/-- appending nodes moves the next new id no further than their ids -/
theorem nextId_foldl_push_le {next : NodeId} (ht : t.nextId ≤ next) (hns : ∀ n ∈ ns, Word.satAdd n.id 1 ≤ next) :
    (ns.foldl push t).nextId ≤ next := by
  induction ns generalizing t with
  | nil => exact ht
  | cons n rest ih =>
    obtain ⟨hn, hrest⟩ := List.forall_mem_cons.1 hns
    refine ih ?_ hrest
    change max t.nextId (Word.satAdd n.id 1) ≤ next
    rw [UInt64.le_iff_toNat_le] at ht hn ⊢
    rw [Word.toNat_max]
    exact max_le ht hn

theorem nextId_le_putAt (t : Tree) (i : Nat) (n : Node) : t.nextId ≤ (t.putAt i n).nextId := le_advance t n.id

theorem nextId_le_foldl_putAt (t : Tree) (removed : List (Nat × Node)) :
    t.nextId ≤ (removed.foldl (fun t r => t.putAt r.1 r.2) t).nextId := by
  induction removed generalizing t with
  | nil => exact UInt64.le_refl _
  | cons r rest ih => exact UInt64.le_trans (nextId_le_putAt t r.1 r.2) (ih _)

theorem satAdd_le_foldl_putAt (t : Tree) {r : Nat × Node} (hr : r ∈ removed) :
    Word.satAdd r.2.id 1 ≤ (removed.foldl (fun t r => t.putAt r.1 r.2) t).nextId := by
  induction removed generalizing t with
  | nil => simp at hr
  | cons q rest ih =>
    rcases List.mem_cons.1 hr with rfl | hr
    · exact UInt64.le_trans (satAdd_le_advance t r.2.id) (nextId_le_foldl_putAt (t.putAt r.1 r.2) rest)
    · exact ih _ hr

theorem nextId_le_insert (hu : t.insert ns = .ok u) : t.nextId ≤ u.nextId := by
  rw [(insert_eq_ok_iff.1 hu).2]
  exact nextId_le_foldl_push t ns

theorem nextId_remove (hu : t.remove removed = .ok u) : u.nextId = t.nextId := by
  rw [(remove_eq_ok_iff.1 hu).2.2]
  exact nextId_foldr_takeOut t removed

theorem nextId_removeIds {ids : List NodeId} (hu : t.removeIds ids = .ok u) : u.nextId = t.nextId := by
  unfold removeIds at hu
  split at hu
  · simp at hu
  · exact nextId_remove hu
  · obtain rfl := Except.ok.inj hu
    rfl

theorem nextId_le_putBack (hu : t.putBack removed = .ok u) : t.nextId ≤ u.nextId := by
  rw [(putBack_eq_ok_iff.1 hu).2]
  exact nextId_le_foldl_putAt t removed

theorem nextId_modify {f : Node → Node} (hu : t.modify id f = .ok u) : u.nextId = t.nextId := by
  obtain ⟨i, -, rfl⟩ := modify_eq_ok_iff.1 hu
  rfl

theorem nextId_move {parent : NodeId} {offset : UInt64} (hu : t.move id parent offset = .ok u) : u.nextId = t.nextId := by
  unfold move at hu
  split at hu
  · simp at hu
  · split at hu
    · simp at hu
    · split at hu
      · simp at hu
      · exact nextId_modify hu

/-! ## Steady trees -/

theorem Steady.insert (h : t.Steady) (hu : t.insert ns = .ok u) : u.Steady := by
  refine h.advanced (h.toFormed.insert hu) (nextId_le_insert hu) ?_
  intro n hn
  rw [nodes_insert hu] at hn
  rcases List.mem_append.1 hn with hn | hn
  · exact Or.inl ⟨n, hn, rfl⟩
  · rw [(insert_eq_ok_iff.1 hu).2]
    exact Or.inr (satAdd_le_foldl_push t hn)

theorem Steady.remove (h : t.Steady) (ha : (removed.map Prod.fst).Pairwise (· < ·)) (hu : t.remove removed = .ok u) :
    u.Steady := by
  refine h.advanced (h.toFormed.remove ha hu) (UInt64.le_of_eq (nextId_remove hu).symm) fun n hn => Or.inl ⟨n, ?_, rfl⟩
  rw [nodes_remove h.indexed ha hu] at hn
  exact (List.mem_filter.1 hn).1

theorem Steady.removeIds (h : t.Steady) {ids : List NodeId} (hu : t.removeIds ids = .ok u) : u.Steady := by
  unfold Tree.removeIds at hu
  cases he : Edit.removal t ids with
  | error e => simp [he] at hu
  | ok e =>
    obtain ⟨removed, rfl, hc, -⟩ := removal_ok h.toFormed he
    rw [he] at hu
    exact h.remove hc.ascending hu

theorem Steady.putBack (h : t.Steady) (hc : Captured removed ns) (hf : Forest ns) (hu : t.putBack removed = .ok u) :
    u.Steady := by
  refine h.advanced (h.toFormed.putBack hc hf hu) (nextId_le_putBack hu) ?_
  intro n hn
  rw [(putBack_eq_ok_iff.1 hu).2] at hn ⊢
  rcases List.mem_append.1 ((nodes_foldl_putAt_perm t removed).mem_iff.1 hn) with hn | hn
  · exact Or.inl ⟨n, hn, rfl⟩
  · obtain ⟨r, hr, rfl⟩ := List.mem_map.1 hn
    exact Or.inr (satAdd_le_foldl_putAt t hr)

/-- a change in place that leaves the tree formed leaves it steady -/
theorem Steady.modify (h : t.Steady) {f : Node → Node} (hid : ∀ n, (f n).id = n.id) (hu : t.modify id f = .ok u)
    (hformed : u.Formed) : u.Steady := by
  refine h.advanced hformed (UInt64.le_of_eq (nextId_modify hu).symm) fun m hm => Or.inl ?_
  obtain ⟨i, n, hn, -, -, rfl⟩ := modify_ok h.indexed hu
  rcases (mem_modify_iff h.indexed.nodup hn f m).1 hm with rfl | ⟨hm, -⟩
  · exact ⟨n, List.mem_of_getElem? hn, (hid n).symm⟩
  · exact ⟨m, hm, rfl⟩

theorem Steady.modifyField (h : t.Steady) {f : Node → Node} (hu : t.modify id f = .ok u) (hf : Node.Plain f) :
    u.Steady :=
  h.modify (fun n => (hf n).1) hu (h.toFormed.modifyField hu hf)

theorem Steady.reshape (h : t.Steady) {s : Shape} (hu : t.reshape id s = .ok u) : u.Steady :=
  h.modify (f := fun n => n.withShape s) (fun _ => rfl) (reshape_eq_ok_iff.1 hu).2 (h.toFormed.reshape hu)

theorem Steady.move (h : t.Steady) {parent : NodeId} {offset : UInt64} (hu : t.move id parent offset = .ok u) :
    u.Steady :=
  h.modify (f := fun n => { n with parent, offset }) (fun _ => rfl) ((move_eq_ok_iff h.toFormed).1 hu).2.2
    (h.toFormed.move hu)

end Tree

namespace Edit

/-! ## From single changes to all edits -/

/-- a relation of trees that holds along runs, started where `P` holds -/
structure Carrier (P : Tree → Prop) (R : Tree → Tree → Prop) : Prop where
  refl : ∀ {t}, P t → R t t
  trans : ∀ {t u v}, R t u → R u v → R t v
  holds : ∀ {t u}, P t → R t u → P u

/-- an edit that carries such a relation on, made or taken back, refused or not -/
def Carries (τ : Type) [Transport τ] (P : Tree → Prop) (R : Tree → Tree → Prop) (e : Edit) : Prop :=
  ∀ s : Scene τ, P s.tree → R s.tree (e.apply s).2.tree ∧ R s.tree (e.retract s).2.tree

section Carrying

variable {τ : Type} {P : Tree → Prop} {R : Tree → Tree → Prop} {s : Scene τ} {es : List Edit}

theorem carries_onTree (hR : Carrier P R) (h : P s.tree) {f : Tree → Except EditError Tree}
    (hf : ∀ u, f s.tree = .ok u → R s.tree u) : R s.tree (s.onTree f).2.tree := by
  unfold Scene.onTree
  cases hu : f s.tree with
  | error e => exact hR.refl h
  | ok u => exact hf u hu

variable [Transport τ]

theorem tree_write (s : Scene τ) (address : UInt64) (bs : Bytes) : (s.write address bs).2.tree = s.tree := by
  unfold Scene.write
  split <;> rfl

theorem carries_applyAll (hR : Carrier P R) (hes : ∀ e ∈ es, e.Carries τ P R) (h : P s.tree) :
    R s.tree (applyAll es s).2.tree := by
  induction es generalizing s with
  | nil => exact hR.refl h
  | cons e rest ih =>
    obtain ⟨he, hrest⟩ := List.forall_mem_cons.1 hes
    have hs₁ := (he s h).1
    rw [applyAll]
    generalize e.apply s = o at hs₁ ⊢
    obtain ⟨r, s₁⟩ := o
    cases r with
    | error err => exact hs₁
    | ok _ =>
      have hs₂ := hR.trans hs₁ (ih hrest (hR.holds h hs₁))
      simp only
      generalize applyAll rest s₁ = p at hs₂ ⊢
      obtain ⟨q, s₂⟩ := p
      cases q with
      | ok _ => exact hs₂
      | error err => exact hR.trans hs₂ (he s₂ (hR.holds h hs₂)).2

theorem carries_applyEach (hR : Carrier P R) (hes : ∀ e ∈ es, e.Carries τ P R) (h : P s.tree) :
    R s.tree (applyEach es s).tree := by
  induction es generalizing s with
  | nil => exact hR.refl h
  | cons e rest ih =>
    obtain ⟨he, hrest⟩ := List.forall_mem_cons.1 hes
    have hs₁ := (he s h).1
    rw [applyEach]
    exact hR.trans hs₁ (ih hrest (hR.holds h hs₁))

theorem carries_retractAll (hR : Carrier P R) (hes : ∀ e ∈ es, e.Carries τ P R) (h : P s.tree) :
    R s.tree (retractAll es s).2.tree := by
  induction es with
  | nil => exact hR.refl h
  | cons e rest ih =>
    obtain ⟨he, hrest⟩ := List.forall_mem_cons.1 hes
    have hs₁ := ih hrest
    rw [retractAll]
    generalize retractAll rest s = o at hs₁ ⊢
    obtain ⟨r, s₁⟩ := o
    cases r with
    | error err => exact hs₁
    | ok _ =>
      have hs₂ := hR.trans hs₁ (he s₁ (hR.holds h hs₁)).2
      simp only
      generalize e.retract s₁ = p at hs₂ ⊢
      obtain ⟨q, s₂⟩ := p
      cases q with
      | ok _ => exact hs₂
      | error err => exact hR.trans hs₂ (carries_applyEach hR hrest (hR.holds h hs₂))

/-- **What single changes carry on, all edits carry on.** `S` is what is known of the edits; it is known of those of a
batch if it is known of the batch. -/
theorem carries (hR : Carrier P R) {S : Edit → Prop} (hS : ∀ es, S (.batch es) → ∀ e ∈ es, S e)
    (hmake : ∀ e c t u, e.change? = some c → S e → P t → c.make t = .ok u → R t u)
    (hunmake : ∀ e c t u, e.change? = some c → S e → P t → c.unmake t = .ok u → R t u) (e : Edit) (hs : S e) :
    e.Carries τ P R := by
  induction e using Edit.induction with
  | change e c hc =>
    intro s h
    rw [apply_of_change hc, retract_of_change hc]
    exact ⟨carries_onTree hR h fun u hu => hmake e c s.tree u hc hs h hu,
      carries_onTree hR h fun u hu => hunmake e c s.tree u hc hs h hu⟩
  | write address old new =>
    intro s h
    rw [apply, retract, tree_write, tree_write]
    exact ⟨hR.refl h, hR.refl h⟩
  | batch es ih =>
    intro s h
    have hes : ∀ e ∈ es, e.Carries τ P R := fun e he => ih e he (hS es hs e he)
    rw [apply, retract]
    exact ⟨carries_applyAll hR hes h, carries_retractAll hR hes h⟩

end Carrying

/-! ## No id comes back -/

section NextId

variable {e : Edit} {c : Change} {t u : Tree}

theorem nextId_le_make (hc : e.change? = some c) : c.make t = .ok u → t.nextId ≤ u.nextId := by
  refine change_cases hc ?_ ?_ ?_ ?_ ?_
  · exact fun ns _ hu => Tree.nextId_le_insert hu
  · exact fun removed _ hu => UInt64.le_of_eq (Tree.nextId_remove hu).symm
  · exact fun id old new _ hu => UInt64.le_of_eq (Tree.nextId_modify (Tree.reshape_eq_ok_iff.1 hu).2).symm
  · exact fun id old new _ hu => UInt64.le_of_eq (Tree.nextId_move hu).symm
  · exact fun id f g _ _ hu => UInt64.le_of_eq (Tree.nextId_modify hu).symm

theorem nextId_le_unmake (hc : e.change? = some c) : c.unmake t = .ok u → t.nextId ≤ u.nextId := by
  refine change_cases hc ?_ ?_ ?_ ?_ ?_
  · exact fun ns _ hu => UInt64.le_of_eq (Tree.nextId_removeIds hu).symm
  · exact fun removed _ hu => Tree.nextId_le_putBack hu
  · exact fun id old new _ hu => UInt64.le_of_eq (Tree.nextId_modify (Tree.reshape_eq_ok_iff.1 hu).2).symm
  · exact fun id old new _ hu => UInt64.le_of_eq (Tree.nextId_move hu).symm
  · exact fun id f g _ _ hu => UInt64.le_of_eq (Tree.nextId_modify hu).symm

end NextId

/-- **No edit moves the next new id back**, whatever the tree. -/
theorem nextId_carries {τ : Type} [Transport τ] (e : Edit) :
    e.Carries τ (fun _ => True) fun t u => t.nextId ≤ u.nextId := by
  have hR : Carrier (fun _ => True) fun t u => t.nextId ≤ u.nextId :=
    ⟨fun _ => UInt64.le_refl _, fun h h' => UInt64.le_trans h h', fun _ _ => trivial⟩
  refine carries hR (S := fun _ => True) (fun _ _ _ _ => trivial) ?_ ?_ e trivial
  · exact fun e c t u hc _ _ => nextId_le_make hc
  · exact fun e c t u hc _ _ => nextId_le_unmake hc

/-! ## Sound edits -/

mutual

/-- an edit that keeps every steady tree steady, made or taken back -/
def Sound : Edit → Prop
  | .remove removed => ∃ ns, Captured removed ns ∧ Forest ns
  | .batch es => SoundAll es
  | _ => True

def SoundAll : List Edit → Prop
  | [] => True
  | e :: rest => Sound e ∧ SoundAll rest

end

theorem soundAll_iff {es : List Edit} : SoundAll es ↔ ∀ e ∈ es, e.Sound := by
  induction es with
  | nil => simp [SoundAll]
  | cons e rest ih => rw [SoundAll, ih, List.forall_mem_cons]

section Sound

variable {e : Edit} {c : Change} {t u : Tree}

theorem steady_make (hc : e.change? = some c) (hs : e.Sound) (h : t.Steady) : c.make t = .ok u → u.Steady := by
  refine change_cases hc ?_ ?_ ?_ ?_ ?_
  · exact fun ns _ hu => h.insert hu
  · intro removed he hu
    rw [he, Sound] at hs
    obtain ⟨ns, hcap, -⟩ := hs
    exact h.remove hcap.ascending hu
  · exact fun id old new _ hu => h.reshape hu
  · exact fun id old new _ hu => h.move hu
  · exact fun id f g hf _ hu => h.modifyField hu hf

theorem steady_unmake (hc : e.change? = some c) (hs : e.Sound) (h : t.Steady) : c.unmake t = .ok u → u.Steady := by
  refine change_cases hc ?_ ?_ ?_ ?_ ?_
  · exact fun ns _ hu => h.removeIds hu
  · intro removed he hu
    rw [he, Sound] at hs
    obtain ⟨ns, hcap, hf⟩ := hs
    exact h.putBack hcap hf hu
  · exact fun id old new _ hu => h.reshape hu
  · exact fun id old new _ hu => h.move hu
  · exact fun id f g _ hg hu => h.modifyField hu hg

end Sound

/-- **A sound edit leaves a steady tree**, whether or not it is refused. -/
theorem steady_carries {τ : Type} [Transport τ] {e : Edit} (hs : e.Sound) :
    e.Carries τ Tree.Steady fun _ u => u.Steady := by
  have hR : Carrier Tree.Steady fun _ u => u.Steady := ⟨fun h => h, fun _ h => h, fun _ h => h⟩
  refine carries hR (S := Sound) (fun es h => ?_) ?_ ?_ e hs
  · rwa [Sound, soundAll_iff] at h
  · exact fun e c t u hc hs h => steady_make hc hs h
  · exact fun e c t u hc hs h => steady_unmake hc hs h

end Edit

end ByteAtlas
