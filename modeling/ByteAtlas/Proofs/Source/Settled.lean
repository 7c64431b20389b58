/-
Sources whose bytes change by nothing but writes that succeed. What a source does next may depend on all that was asked of
it before, so this is said of every state that it can come to.

- `Source.Asked`: sizes were asked for and bytes were read; a block in memory stays what it is.
- `Source.Settled`: wherever a source comes to, asking it changes no byte, and no write does that is refused.
- `Source.settled_of_harmless`: nothing, blocks in memory and images without a deadly address are settled.
-/
import ByteAtlas.Source.Basic
import ByteAtlas.Source.Image

/-- an image without a deadly address refuses a write and stays, or takes it and has other bytes -/
theorem ByteAtlas.Image.write_harmless {m : Image} (h : m.deadly = none) (address : UInt64) (new : Bytes) :
    m.write address new = some (false, m) ∨ ∃ data, m.write address new = some (true, { m with data }) := by
  unfold Image.write
  split
  · exact Or.inl rfl
  · rw [h, if_neg (by simp)]
    split
    · exact Or.inr ⟨_, rfl⟩
    · exact Or.inl rfl

namespace ByteAtlas.Source

variable {τ : Type} [Transport τ] {s s' s'' : Source τ}

/-- sources of which the same bytes are read everywhere -/
def SameBytes (s s' : Source τ) : Prop := ∀ address n, (s.read address n).1 = (s'.read address n).1

theorem SameBytes.refl (s : Source τ) : s.SameBytes s := fun _ _ => rfl

theorem SameBytes.trans (h : s.SameBytes s') (h' : s'.SameBytes s'') : s.SameBytes s'' :=
  fun address n => (h address n).trans (h' address n)

/-! ## Asking and writing -/

/-- a source after its size was asked for and bytes were read, any number of times -/
inductive Asked (s : Source τ) : Source τ → Prop
  | refl : Asked s s
  | size {s' : Source τ} (before : Asked s s') : Asked s s'.size.2
  | read {s' : Source τ} (before : Asked s s') (address : UInt64) (n : Nat) : Asked s (s'.read address n).2

/-- a block in memory does not change when it is asked -/
theorem Asked.eq_buffer {b : Buffer} (h : s.Asked s') (hs : s = .buffer b) : s' = .buffer b := by
  induction h with
  | refl => exact hs
  | size _ ih =>
    rw [ih]
    rfl
  | read _ address n ih =>
    rw [ih]
    rfl

/-- where a source can come to when it is asked, written to and mapped elsewhere -/
inductive Reaches (s : Source τ) : Source τ → Prop
  | refl : Reaches s s
  | asked {s' s'' : Source τ} (before : Reaches s s') (last : s'.Asked s'') : Reaches s s''
  | write {s' : Source τ} (before : Reaches s s') (address : UInt64) (new : Bytes) : Reaches s (s'.write address new).2
  | rebase {s' : Source τ} (before : Reaches s s') (base : UInt64) : Reaches s (s'.rebase base)

theorem Reaches.trans (h : s.Reaches s') (h' : s'.Reaches s'') : s.Reaches s'' := by
  induction h' with
  | refl => exact h
  | asked _ last ih => exact .asked ih last
  | write _ address new ih => exact .write ih address new
  | rebase _ base ih => exact .rebase ih base

/-! ## Settled sources -/

/-- a source whose bytes change only when a write succeeds -/
structure Settled (s : Source τ) : Prop where
  asked : ∀ s', s.Reaches s' → ∀ s'', s'.Asked s'' → s'.SameBytes s''
  refused : ∀ s', s.Reaches s' → ∀ address new, (s'.write address new).1 = false →
    s'.SameBytes (s'.write address new).2

namespace Settled

theorem reaches (h : s.Settled) (hr : s.Reaches s') : s'.Settled :=
  ⟨fun t ht => h.asked t (hr.trans ht), fun t ht => h.refused t (hr.trans ht)⟩

theorem ask (h : s.Settled) (ha : s.Asked s') : s'.Settled ∧ s.SameBytes s' :=
  ⟨h.reaches (.asked .refl ha), h.asked s .refl s' ha⟩

theorem write (h : s.Settled) (address : UInt64) (new : Bytes) : (s.write address new).2.Settled :=
  h.reaches (.write .refl address new)

theorem rebase (h : s.Settled) (base : UInt64) : (s.rebase base).Settled := h.reaches (.rebase .refl base)

/-- a source is settled if something holds of it that calls keep, and under which calls change no byte -/
theorem of_invariant (P : Source τ → Prop) (hs : P s) (hsize : ∀ s, P s → P s.size.2 ∧ s.SameBytes s.size.2)
    (hread : ∀ s address n, P s → P (s.read address n).2 ∧ s.SameBytes (s.read address n).2)
    (hwrite : ∀ s address new, P s → P (s.write address new).2 ∧
      ((s.write address new).1 = false → s.SameBytes (s.write address new).2))
    (hrebase : ∀ s base, P s → P (s.rebase base)) : s.Settled := by
  have hasked : ∀ s s', P s → s.Asked s' → P s' ∧ s.SameBytes s' := by
    intro s s' h ha
    induction ha with
    | refl => exact ⟨h, .refl s⟩
    | size _ ih => exact ⟨(hsize _ ih.1).1, ih.2.trans (hsize _ ih.1).2⟩
    | read _ address n ih => exact ⟨(hread _ address n ih.1).1, ih.2.trans (hread _ address n ih.1).2⟩
  have hreached : ∀ s', s.Reaches s' → P s' := by
    intro s' hr
    induction hr with
    | refl => exact hs
    | asked _ last ih => exact (hasked _ _ ih last).1
    | write _ address new ih => exact (hwrite _ address new ih).1
    | rebase _ base ih => exact hrebase _ base ih
  exact ⟨fun s' hr s'' ha => (hasked s' s'' (hreached s' hr) ha).2,
    fun s' hr address new => (hwrite s' address new (hreached s' hr)).2⟩

end Settled

/-! ## Images -/

/-- no address of an image behind the source is deadly -/
def Harmless : Source Image → Prop
  | remote r => ∀ m ∈ r.transport, m.deadly = none
  | _ => True

/-- asking for a size changes nothing, whether or not the transport is gone -/
theorem size_image (s : Source Image) : s.size.2 = s := by
  cases s with
  | nothing => rfl
  | buffer b => rfl
  | remote r =>
    obtain ⟨c, base, t⟩ := r
    cases t <;> rfl

theorem read_image {s : Source Image} (h : s.Harmless) (address : UInt64) (n : Nat) : (s.read address n).2 = s := by
  cases s with
  | nothing => rfl
  | buffer b => rfl
  | remote r =>
    obtain ⟨c, base, t⟩ := r
    simp only [Source.read, Remote.read]
    split
    · rfl
    · cases t with
      | none => rfl
      | some m =>
        have hm : m.deadly = none := h m rfl
        simp [Remote.call, Transport.read, Image.read, hm]

/-- writing never kills the transport, and a write that is refused changes nothing -/
theorem write_image {s : Source Image} (h : s.Harmless) (address : UInt64) (new : Bytes) :
    (s.write address new).2.Harmless ∧ ((s.write address new).1 = false → (s.write address new).2 = s) := by
  cases s with
  | nothing => exact ⟨trivial, fun _ => rfl⟩
  | buffer b =>
    simp only [Source.write]
    split
    · exact ⟨trivial, by simp⟩
    · exact ⟨trivial, fun _ => rfl⟩
  | remote r =>
    obtain ⟨c, base, t⟩ := r
    simp only [Source.write, Remote.write]
    split
    · exact ⟨h, fun _ => rfl⟩
    · split
      · exact ⟨h, fun _ => rfl⟩
      · cases t with
        | none => exact ⟨h, fun _ => rfl⟩
        | some m =>
          have hm : m.deadly = none := h m rfl
          rcases m.write_harmless hm address new with hw | ⟨data, hw⟩
          · simp [Remote.call, Transport.write, hw, Harmless, hm]
          · simp [Remote.call, Transport.write, hw, Harmless, hm]

/-- **Images without a deadly address are settled**, and so are blocks in memory. -/
theorem settled_of_harmless {s : Source Image} (h : s.Harmless) : s.Settled := by
  refine Settled.of_invariant Harmless h ?_ ?_ ?_ ?_
  · intro s hs
    rw [size_image]
    exact ⟨hs, .refl s⟩
  · intro s address n hs
    rw [read_image hs]
    exact ⟨hs, .refl s⟩
  · intro s address new hs
    obtain ⟨hw, hr⟩ := write_image hs address new
    refine ⟨hw, fun hrefused => ?_⟩
    rw [hr hrefused]
    exact .refl s
  · intro s base hs
    cases s with
    | nothing => trivial
    | buffer b => trivial
    | remote r => exact hs

end ByteAtlas.Source
