/-
Where the node of an id is stored: a finite map from ids to positions in a list of nodes.
-/
import ByteAtlas.Node

namespace ByteAtlas

/-- positions of ids; an id has at most one entry -/
structure Places where
  entries : List (NodeId × Nat)
  deriving DecidableEq, Repr

namespace Places

def empty : Places := ⟨[]⟩

def get? (ps : Places) (id : NodeId) : Option Nat := ps.entries.lookup id

def erase (ps : Places) (id : NodeId) : Places := ⟨ps.entries.filter fun e => e.1 != id⟩

def put (ps : Places) (id : NodeId) (i : Nat) : Places := ⟨(id, i) :: (ps.erase id).entries⟩

/-- positions of a list of nodes, the first of them at position `i` -/
def putAll (ps : Places) (i : Nat) : List Node → Places
  | [] => ps
  | n :: rest => (ps.put n.id i).putAll (i + 1) rest

theorem get?_empty (id : NodeId) : empty.get? id = none := rfl

theorem get?_erase (ps : Places) (id k : NodeId) : (ps.erase id).get? k = if k = id then none else ps.get? k := by
  simp only [get?, erase]
  induction ps.entries with
  | nil => simp
  | cons e rest ih =>
    obtain ⟨a, i⟩ := e
    by_cases h : a = id
    · subst h
      rw [List.filter_cons_of_neg (by simp), ih]
      by_cases hk : k = a
      · simp [hk]
      · have : (k == a) = false := by simpa using hk
        simp [hk, List.lookup_cons, this]
    · rw [List.filter_cons_of_pos (by simp [h])]
      by_cases hk : k = a
      · subst hk
        simp [h]
      · have : (k == a) = false := by simpa using hk
        simp [List.lookup_cons, this, ih]

theorem get?_put (ps : Places) (id k : NodeId) (i : Nat) :
    (ps.put id i).get? k = if k = id then some i else ps.get? k := by
  have h := get?_erase ps id k
  simp only [get?, put] at h ⊢
  by_cases hk : k = id
  · simp [hk]
  · have : (k == id) = false := by simpa using hk
    simp [List.lookup_cons, this, h, hk]

end Places

end ByteAtlas
