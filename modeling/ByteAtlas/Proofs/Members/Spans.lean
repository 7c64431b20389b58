/-
The bytes of what a definition holds, counted from its start. Members are listed by where they start; they may lie upon each
other in any way, and an end that no word can tell is cut by `endAt`.
-/
import ByteAtlas.Proofs.Tree.Preorder
import ByteAtlas.Members

namespace ByteAtlas.Tree

variable {t : Tree} {c : Nat}

/-- where the bytes of a member end, even past the end of memory -/
def stopAt (t : Tree) (c : Nat) : ℕ := (t.offsetAt c).toNat + (t.size c).toNat

def span (t : Tree) (c : Nat) : Set ℕ := Set.Ico (t.offsetAt c).toNat (t.stopAt c)

/-- how far the furthest of some members reaches -/
def furthest (t : Tree) (cs : List Nat) : ℕ := (cs.map t.stopAt).foldr max 0

@[simp] theorem furthest_nil (t : Tree) : t.furthest [] = 0 := rfl

@[simp] theorem furthest_cons (t : Tree) (c : Nat) (cs : List Nat) :
    t.furthest (c :: cs) = max (t.stopAt c) (t.furthest cs) := rfl

theorem toNat_offsetAt_le_stopAt (t : Tree) (c : Nat) : (t.offsetAt c).toNat ≤ t.stopAt c := Nat.le_add_right _ _

theorem toNat_endAt (t : Tree) (c : Nat) : (t.endAt c).toNat = min (t.stopAt c) Word.top := Word.toNat_satAdd _ _

/-- an end that a word can tell is told -/
theorem toNat_endAt_of_lt (h : t.stopAt c < UInt64.size) : (t.endAt c).toNat = t.stopAt c := by
  rw [toNat_endAt, Word.top]
  omega

theorem pairwise_offsetAt (t : Tree) (parent : NodeId) :
    (t.children parent).Pairwise fun a b => (t.offsetAt a).toNat ≤ (t.offsetAt b).toNat := by
  refine (pairwise_children parent).imp ?_
  rintro a b ⟨p, q, hp, hq, -, hlt | ⟨heq, -⟩⟩
  · simpa [offsetAt, hp, hq] using Nat.le_of_lt (UInt64.lt_iff_toNat_lt.1 hlt)
  · simp [offsetAt, hp, hq, heq]

end ByteAtlas.Tree
