/-
From where a type comes that is brought into a document of a workspace. The caller gives an order of places to search; the
document itself is left out of it, wherever it stands, before the others are numbered. The number that is answered counts the
places that are left.

- `Workspace.Sources`: a place in an order is the first one of another document that defines a name.
- `Workspace.sources_of_adoptFrom`: a type comes from such a place, and what is answered is its number without the places of
  the target before it.
- `Workspace.origin_iff`: so the answer is the place itself if and only if the target does not stand before it. All other
  documents stay.
- `Workspace.origin_of_target_first`: with the target in front the answer names the place of the target.
-/
import ByteAtlas.Workspace
import ByteAtlas.Source.Image
import ByteAtlas.Proofs.Definition.Lookup
import ByteAtlas.Proofs.Document.Imports

namespace ByteAtlas

/-! ## Places in a list and in a part of it -/

/-- what stands at a place of the part of a list also stands in the list, with the places before it in front -/
theorem exists_split_filter {α : Type} {l : List α} {p : α → Bool} {k : Nat} {x : α} (h : (l.filter p)[k]? = some x) :
    ∃ front back, l = front ++ x :: back ∧ front.filter p = (l.filter p).take k := by
  have hsplit : l.filter p = (l.filter p).take k ++ x :: (l.filter p).drop (k + 1) := by
    rw [List.getElem?_eq_some_iff] at h
    obtain ⟨hk, rfl⟩ := h
    rw [List.getElem_cons_drop, List.take_append_drop]
  obtain ⟨front, rest, rfl, hfront, hrest⟩ := List.filter_eq_append_iff.1 hsplit
  obtain ⟨skipped, back, rfl, hskipped, -, -⟩ := List.filter_eq_cons_iff.1 hrest
  refine ⟨front ++ skipped, back, (List.append_assoc ..).symm, ?_⟩
  have hnone : skipped.filter p = [] := List.filter_eq_nil_iff.2 hskipped
  rw [List.filter_append, hnone, List.append_nil, ← hfront]

/-- a part of a list that leaves out one value is shorter by the number of times that it stands there -/
theorem length_filter_ne_add_count (l : List Nat) (a : Nat) : (l.filter fun i => i != a).length + l.count a = l.length := by
  have h := List.length_eq_countP_add_countP (fun i => i != a) (l := l)
  rw [← List.countP_eq_length_filter, List.count]
  rw [h]
  congr 1
  refine List.countP_congr fun i _ => ?_
  simp

/-- what is read at the places of a list stands in order if something is there at each of them -/
theorem getElem?_filterMap_of_isSome {α β : Type} {f : α → Option β} {l : List α} (h : ∀ x ∈ l, (f x).isSome) (k : Nat) :
    (l.filterMap f)[k]? = l[k]?.bind f := by
  induction l generalizing k with
  | nil => simp
  | cons x rest ih =>
    rw [List.forall_mem_cons] at h
    obtain ⟨y, hy⟩ := Option.isSome_iff_exists.1 h.1
    rw [List.filterMap_cons_some hy]
    cases k with
    | zero => simp [hy]
    | succ k => simpa using ih h.2 k

namespace Workspace

variable {τ : Type} {w : Workspace τ} {target : Nat} {name : String} {order : List Nat}

def Defines (w : Workspace τ) (name : String) (i : Nat) : Prop :=
  ∃ d, w.documents[i]? = some d ∧ (d.tree.rootNamed? name).isSome

/-- the first place in an order that is one of another document which defines a name -/
structure Sources (w : Workspace τ) (target : Nat) (name : String) (order : List Nat) (k : Nat) : Prop where
  found : ∃ i, order[k]? = some i ∧ i ≠ target ∧ w.Defines name i
  first : ∀ j < k, ∀ i, order[j]? = some i → i ≠ target → ¬ w.Defines name i

theorem Sources.unique {j k : Nat} (hj : w.Sources target name order j) (hk : w.Sources target name order k) : j = k := by
  obtain ⟨i, hi, hne, hdefines⟩ := hj.found
  obtain ⟨i', hi', hne', hdefines'⟩ := hk.found
  rcases Nat.lt_trichotomy j k with hlt | rfl | hlt
  · exact absurd hdefines (hk.first j hlt i hi hne)
  · rfl
  · exact absurd hdefines' (hj.first k hlt i' hi' hne')

/-! ## What is searched -/

def treeAt? (w : Workspace τ) (i : Nat) : Option Tree := (w.documents[i]?).map Document.tree

/-- an order can be searched if there are documents at all of its places, and at the target -/
theorem split_eq_ok {d : Document τ} {trees : List Tree} (h : w.split target order = .ok (d, trees)) :
    w.documents[target]? = some d ∧ (∀ i ∈ order, i < w.documents.length) ∧
      trees = (order.filter fun i => i != target).filterMap w.treeAt? := by
  unfold split at h
  split at h
  · simp at h
  · simp at h
  · next hnone hd =>
    obtain ⟨rfl, rfl⟩ := Prod.mk.inj (Except.ok.inj h)
    refine ⟨hd, fun i hi => ?_, rfl⟩
    have hin := List.find?_eq_none.1 hnone i (List.mem_cons_of_mem _ hi)
    simpa using hin

/-- the first tree that defines a name is that of the first other document which does -/
theorem sources_of_firstDefining {d : Document τ} {trees : List Tree} (h : w.split target order = .ok (d, trees))
    {k : Nat} {src : Tree} {root : NodeId} (hfind : Adoption.firstDefining name 0 trees = some (k, src, root)) :
    ∃ p, w.Sources target name order p ∧ k + (order.take p).count target = p := by
  obtain ⟨-, hinside, rfl⟩ := split_eq_ok h
  obtain ⟨-, hget, hroot, hfirst⟩ := Adoption.firstDefining_eq_some_iff.1 hfind
  have htrees : ∀ j : Nat, ((order.filter fun i => i != target).filterMap w.treeAt?)[j]? =
      (order.filter fun i => i != target)[j]?.bind w.treeAt? := by
    refine getElem?_filterMap_of_isSome fun i hi => ?_
    rw [treeAt?, List.getElem?_eq_getElem (hinside i (List.mem_filter.1 hi).1)]
    rfl
  rw [Nat.sub_zero, htrees] at hget
  obtain ⟨i, hi, hsrc⟩ := Option.bind_eq_some_iff.1 hget
  obtain ⟨source, hsource, rfl⟩ := Option.map_eq_some_iff.1 hsrc
  obtain ⟨front, back, rfl, hfront⟩ := exists_split_filter hi
  have hne : i ≠ target := by simpa using (List.mem_filter.1 (List.mem_of_getElem? hi)).2
  refine ⟨front.length, ⟨⟨i, by simp, hne, source, hsource, by rw [hroot]; rfl⟩, fun j hj i' hi' hne' => ?_⟩, ?_⟩
  · -- what stands before it and is not the target is among the places searched before
    rintro ⟨d', hd', hyes⟩
    rw [List.getElem?_append_left hj] at hi'
    have hmem : i' ∈ front.filter fun i => i != target :=
      List.mem_filter.2 ⟨List.mem_of_getElem? hi', by simpa using hne'⟩
    rw [hfront] at hmem
    obtain ⟨j', hj'⟩ := List.mem_iff_getElem?.1 hmem
    have hlt : j' < k := by
      by_contra hge
      rw [List.getElem?_eq_none (by rw [List.length_take]; omega)] at hj'
      simp at hj'
    rw [List.getElem?_take_of_lt hlt] at hj'
    have hno := hfirst j' (by omega) d'.tree (by rw [htrees, hj', Option.bind_some, treeAt?, hd']; rfl)
    simp [hno] at hyes
  · have hlen : (front.filter fun i => i != target).length = k := by
      rw [hfront, List.length_take]
      have := (List.getElem?_eq_some_iff.1 hi).1
      omega
    rw [List.take_left', ← hlen]
    · exact length_filter_ne_add_count front target
    · rfl

/-! ## What is answered -/

variable [Transport τ] {id : NodeId} {k : Nat}

/-- what bringing a type into a document answers is what the plan says of its name -/
theorem resolution_of_adopt {d : Document τ} {trees : List Tree} {r : Resolution} (h : (d.adopt name trees).1 = .ok r) :
    (d.tree.planAdoption trees name).1.resolution = r := by
  unfold Document.adopt at h
  dsimp only at h
  split_ifs at h
  · exact Except.ok.inj h
  · unfold Document.performFor at h
    split at h
    · exact Except.ok.inj h
    · cases h

/-- **A type comes from the first other document in the order that defines it.** What is answered counts the places before it
that are not those of the target. -/
theorem sources_of_adoptFrom (h : (w.adoptFrom target name order).1 = .ok (.copied id k)) :
    ∃ p, w.Sources target name order p ∧ k + (order.take p).count target = p := by
  unfold adoptFrom within at h
  split at h
  · cases h
  · next d trees hsplit =>
    have hadopt : (d.adopt name trees).1 = .ok (.copied id k) := by
      cases hr : (d.adopt name trees).1 with
      | error e => simp [hr, Except.mapError] at h
      | ok r => simpa [hr, Except.mapError] using h
    have hplan := resolution_of_adopt hadopt
    rw [Tree.resolution_planAdoption] at hplan
    cases hlocal : d.tree.rootNamed? name with
    | some found => simp [hlocal] at hplan
    | none =>
      cases hfind : Adoption.firstDefining name 0 trees with
      | none => simp [hlocal, hfind] at hplan
      | some found =>
        obtain ⟨k', src, root⟩ := found
        simp only [hlocal, hfind, Resolution.copied.injEq] at hplan
        exact sources_of_firstDefining hsplit (hplan.2 ▸ hfind)

/-- no document but the target changes -/
theorem documents_adoptFrom {i : Nat} (hi : i ≠ target) :
    (w.adoptFrom target name order).2.documents[i]? = w.documents[i]? := by
  unfold adoptFrom within
  split
  · rfl
  · exact List.getElem?_set_ne hi.symm

/-- **The answer is a place in the order if and only if the target does not stand before it.** Whatever is answered, documents
other than the target stay as they are. When a type is brought along, it comes from the first place in the order that is one of
another document which defines the type. What is answered is the number of that place without the places of the target before
it: this is the place itself exactly if the target is not among the places up to it. -/
theorem origin_iff (w : Workspace τ) (target : Nat) (name : String) (order : List Nat) :
    (∀ i ≠ target, (w.adoptFrom target name order).2.documents[i]? = w.documents[i]?) ∧
    ∀ id k, (w.adoptFrom target name order).1 = .ok (.copied id k) →
      (∃ p, w.Sources target name order p ∧ k + (order.take p).count target = p) ∧
      (w.Sources target name order k ↔ target ∉ order.take (k + 1)) := by
  refine ⟨fun i => documents_adoptFrom, fun id k h => ?_⟩
  obtain ⟨p, hp, hk⟩ := sources_of_adoptFrom h
  refine ⟨⟨p, hp, hk⟩, fun hsources hmem => ?_, fun hno => ?_⟩
  · obtain rfl := hp.unique hsources
    obtain ⟨i, hi, hne, -⟩ := hp.found
    rw [List.take_add_one, hi, List.mem_append, Option.toList_some, List.mem_singleton] at hmem
    rcases hmem with hmem | rfl
    · have hpos := List.count_pos_iff.2 hmem
      omega
    · exact hne rfl
  · -- otherwise there would be one place more in front than is counted
    have hle : p ≤ k := by
      by_contra hlt
      have hlen : p ≤ order.length := by
        obtain ⟨i, hi, -⟩ := hp.found
        exact (List.getElem?_eq_some_iff.1 hi).1.le
      have hzero : (order.take (k + 1)).count target = 0 := List.count_eq_zero.2 hno
      have hsplit : order.take p = order.take (k + 1) ++ (order.drop (k + 1)).take (p - (k + 1)) := by
        rw [← List.take_add, Nat.add_sub_cancel' (by omega)]
      have hrest := List.count_le_length (a := target) (l := (order.drop (k + 1)).take (p - (k + 1)))
      rw [hsplit, List.count_append, hzero] at hk
      rw [List.length_take] at hrest
      omega
    obtain rfl : p = k := by omega
    exact hp

def shelf : Workspace Image := ⟨[.empty 0, .ofTree Tree.pair], .standard⟩

theorem origin_iff_behind :
    (shelf.adoptFrom 0 "Pair" [1, 0, 1]).1 = .ok (.copied 1 0) ∧ shelf.Sources 0 "Pair" [1, 0, 1] 0 ∧
      (shelf.adoptFrom 0 "Pair" [1, 0, 1]).2.documents[1]? = shelf.documents[1]? := by
  have h : (shelf.adoptFrom 0 "Pair" [1, 0, 1]).1 = .ok (.copied 1 0) := by decide
  obtain ⟨hothers, hanswer⟩ := origin_iff shelf 0 "Pair" [1, 0, 1]
  exact ⟨h, (hanswer 1 0 h).2.2 (by decide), hothers 1 (by decide)⟩

/-- **With the target in front the answer names the target's own place**, where nothing defines the type. It comes from the
place behind. -/
theorem origin_of_target_first :
    (shelf.adoptFrom 0 "Pair" [0, 1]).1 = .ok (.copied 1 0) ∧ ¬ shelf.Sources 0 "Pair" [0, 1] 0 ∧
      shelf.Sources 0 "Pair" [0, 1] 1 := by
  refine ⟨by decide, fun hsources => ?_, ⟨1, rfl, by decide, .ofTree Tree.pair, rfl, by decide⟩, fun j hj i hi hne => ?_⟩
  · obtain ⟨i, hi, hne, -⟩ := hsources.found
    exact hne (Option.some.inj hi).symm
  · obtain rfl : j = 0 := by omega
    exact absurd (Option.some.inj hi).symm hne

end Workspace

end ByteAtlas
