/-
New ids and what spends them. Giving out ids changes nothing else of a tree (`Tree.Spent`), and the next new id only
grows. Planning to bring a name along gives out ids and nothing more (`Tree.spent_planAdoption`).
-/
import Mathlib
import ByteAtlas.Definition.Adoption
import ByteAtlas.Proofs.Tree.Building

namespace ByteAtlas

namespace Tree

variable {t u v : Tree}

/-- the second tree is the first one with some more ids given out -/
structure Spent (t u : Tree) : Prop where
  same : u = { t with nextId := u.nextId }
  le : t.nextId ≤ u.nextId

namespace Spent

theorem refl (t : Tree) : t.Spent t := ⟨rfl, UInt64.le_refl _⟩

theorem trans (h : t.Spent u) (h' : u.Spent v) : t.Spent v := by
  refine ⟨?_, UInt64.le_trans h.le h'.le⟩
  rw [h'.same, h.same]

theorem base (h : t.Spent u) : u.base = t.base := by rw [h.same]

theorem nodes (h : t.Spent u) : u.nodes = t.nodes := by rw [h.same]

theorem position? (h : t.Spent u) (id : NodeId) : u.position? id = t.position? id := by
  rw [h.same]
  rfl

theorem find? (h : t.Spent u) (id : NodeId) : u.find? id = t.find? id := by
  rw [Tree.find?, Tree.find?, h.position?, h.nodes]

theorem formed (h : t.Spent u) (ht : t.Formed) : u.Formed := by
  rw [h.same]
  exact ⟨ht.indexed, ht.forest⟩

theorem steady (h : t.Spent u) (ht : t.Steady) : u.Steady :=
  ht.advanced (h.formed ht.toFormed) h.le fun n hn => Or.inl ⟨n, h.nodes ▸ hn, rfl⟩

end Spent

theorem spent_reserve (t : Tree) : t.Spent t.reserve.2 := ⟨rfl, nextId_le_reserve t⟩

theorem spent_renumber (t : Tree) (ids : List NodeId) : t.Spent (t.renumber ids).2 := by
  induction ids generalizing t with
  | nil => exact .refl t
  | cons id rest ih => exact (spent_reserve t).trans (ih t.reserve.2)

theorem map_fst_renumber (t : Tree) (ids : List NodeId) : (t.renumber ids).1.map Prod.fst = ids := by
  induction ids generalizing t with
  | nil => rfl
  | cons id rest ih => exact congrArg (id :: ·) (ih t.reserve.2)

theorem le_of_mem_renumber (t : Tree) {ids : List NodeId} {p : NodeId × NodeId} (hp : p ∈ (t.renumber ids).1) :
    t.nextId ≤ p.2 := by
  induction ids generalizing t with
  | nil => simp [renumber] at hp
  | cons id rest ih =>
    rcases List.mem_cons.1 hp with rfl | hp
    · exact UInt64.le_refl _
    · exact UInt64.le_trans (spent_reserve t).le (ih t.reserve.2 hp)

/-- every id has a new one, and none that was given out before -/
theorem exists_lookup_renumber (t : Tree) {ids : List NodeId} {id : NodeId} (hid : id ∈ ids) :
    ∃ fresh, (t.renumber ids).1.lookup id = some fresh ∧ t.nextId ≤ fresh := by
  obtain ⟨p, hp, hpid⟩ := List.mem_map.1 (t.map_fst_renumber ids ▸ hid)
  have hsome : ((t.renumber ids).1.lookup id).isSome := List.lookup_isSome_iff.2 ⟨p, hp, beq_iff_eq.2 hpid.symm⟩
  obtain ⟨fresh, hfresh⟩ := Option.isSome_iff_exists.1 hsome
  obtain ⟨before, after, hsplit, -⟩ := List.lookup_eq_some_iff.1 hfresh
  have hmem : (id, fresh) ∈ (t.renumber ids).1 := by
    rw [hsplit]
    exact List.mem_append_right _ List.mem_cons_self
  exact ⟨fresh, hfresh, t.le_of_mem_renumber hmem⟩

theorem toNat_nextId_renumber (t : Tree) (ids : List NodeId) :
    (t.renumber ids).2.nextId.toNat = min (t.nextId.toNat + ids.length) Word.top := by
  induction ids generalizing t with
  | nil => exact (min_eq_left (Word.toNat_le_top t.nextId)).symm
  | cons id rest ih =>
    have hone : t.reserve.2.nextId.toNat = min (t.nextId.toNat + 1) Word.top := Word.toNat_satAdd t.nextId 1
    rw [renumber, ih, hone, List.length_cons]
    omega

/-- new ids are the next ones in order, as long as there are any -/
theorem renumber_numbers (t : Tree) {ids : List NodeId} (htop : (t.renumber ids).2.nextId.toNat < Word.top) :
    (t.renumber ids).2.nextId.toNat = t.nextId.toNat + ids.length ∧
      (t.renumber ids).1.map (fun p => p.2.toNat) = List.range' t.nextId.toNat ids.length := by
  have hnext := t.toNat_nextId_renumber ids
  refine ⟨by omega, ?_⟩
  induction ids generalizing t with
  | nil => rfl
  | cons id rest ih =>
    have hone : t.reserve.2.nextId.toNat = t.nextId.toNat + 1 := by
      have hadd : t.reserve.2.nextId.toNat = min (t.nextId.toNat + 1) Word.top := Word.toNat_satAdd t.nextId 1
      rw [List.length_cons] at hnext
      omega
    have hids := ih t.reserve.2 htop (t.reserve.2.toNat_nextId_renumber rest)
    rw [List.length_cons, List.range'_succ, ← hone, ← hids]
    rfl

end Tree

namespace Adoption

def newIds (d : Draft) (t : Tree) (root : NodeId) : List (NodeId × NodeId) × Tree :=
  d.tree.renumber ((t.definition root).map (·.id))

/-- the draft with a definition copied into it, its name being brought along -/
def Draft.opened (d : Draft) (name : String) (t : Tree) (root : NodeId) : Draft where
  tree := (newIds d t root).2
  planned := (name, ((newIds d t root).1.lookup root).getD 0) :: d.planned
  nodes := d.nodes ++ (copyOf t (newIds d t root).1 d.nodes.length (t.definition root)).1
  missing := d.missing

/-- the references that leave a definition copied into a draft -/
def leaving (d : Draft) (t : Tree) (root : NodeId) : List (Nat × String) :=
  (copyOf t (newIds d t root).1 d.nodes.length (t.definition root)).2

/-- looks one of these references up and points the new node at what is found -/
def follow (others : List Tree) (depth : Nat) (d : Draft) (l : Nat × String) : Draft :=
  match (resolve others depth d l.2).1.id? with
  | some id => (resolve others depth d l.2).2.link l.1 id
  | none => (resolve others depth d l.2).2.miss l.2

/-- the one case in which a draft changes: a definition is copied, and then what leaves it is followed in turn -/
theorem resolve_copied {others : List Tree} {d : Draft} {name : String} (hlocal : d.tree.rootNamed? name = none)
    (hplanned : d.planned.lookup name = none) {origin : Nat} {t : Tree} {root : NodeId}
    (hfind : firstDefining name 0 others = some (origin, t, root)) (depth : Nat) :
    resolve others (depth + 1) d name = (.copied (((newIds d t root).1.lookup root).getD 0) origin,
      (leaving d t root).foldl (follow others depth) (d.opened name t root)) := by
  rw [resolve, hlocal, hplanned, hfind]
  rfl

theorem spent_foldl_follow {others : List Tree} {depth : Nat}
    (h : ∀ (d : Draft) (name : String), d.tree.Spent (resolve others depth d name).2.tree) (d : Draft)
    (ls : List (Nat × String)) : d.tree.Spent (ls.foldl (follow others depth) d).tree := by
  induction ls generalizing d with
  | nil => exact .refl d.tree
  | cons l rest ih =>
    refine Tree.Spent.trans ?_ (ih _)
    have hl := h d l.2
    unfold follow
    split
    · exact hl
    · unfold Draft.miss
      split <;> exact hl

theorem spent_resolve (others : List Tree) (depth : Nat) (d : Draft) (name : String) :
    d.tree.Spent (resolve others depth d name).2.tree := by
  induction depth generalizing d name with
  | zero => exact .refl d.tree
  | succ depth ih =>
    cases hlocal : d.tree.rootNamed? name with
    | some id =>
      rw [resolve, hlocal]
      exact .refl d.tree
    | none =>
      cases hplanned : d.planned.lookup name with
      | some id =>
        rw [resolve, hlocal, hplanned]
        exact .refl d.tree
      | none =>
        cases hfind : firstDefining name 0 others with
        | none =>
          rw [resolve, hlocal, hplanned, hfind]
          exact .refl d.tree
        | some found =>
          obtain ⟨origin, t, root⟩ := found
          rw [resolve_copied hlocal hplanned hfind]
          exact (d.tree.spent_renumber _).trans (spent_foldl_follow ih (d.opened name t root) _)

end Adoption

/-- planning to bring a name along gives out ids, and that is all -/
theorem Tree.spent_planAdoption (t : Tree) (others : List Tree) (name : String) :
    t.Spent (t.planAdoption others name).2 :=
  Adoption.spent_resolve others ((others.flatMap (·.nodes)).length + 2) ⟨t, [], [], []⟩ name

end ByteAtlas
