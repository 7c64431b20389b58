/-
What a source says of a range against what happens when the range is read next. A block in memory counts from its base when it
is asked and when it is read. Memory behind a transport is asked for its size alone, and a range is said to be covered if it
ends within that size, as if the memory started at address zero; it is read where it is.

- `Source.Truthful`: a range is said to be covered exactly if it can be read next.
- `Source.remote_covers_iff`, `Source.remote_reads_iff`: both answers, for memory that starts at any address.
- `Source.truthful_iff`: nothing and blocks in memory are truthful; memory behind a transport is if and only if it starts at
  zero or has no bytes.
- `Source.not_truthful_high`: memory that starts elsewhere, told wrongly of both ways.
-/
import ByteAtlas.Proofs.Source.Written
import ByteAtlas.Source.Image

namespace ByteAtlas

variable {τ : Type} [Transport τ]

open Bytes

/-! ## Memory that starts at any address -/

/-- a transport to memory with these bytes from an address on, in every state that questions leave it in -/
def Transport.Offers (start : UInt64) (bs : Bytes) (t : τ) : Prop :=
  ∃ P : τ → Prop, P t ∧ ∀ t, P t → (∃ t', Transport.size t = some (UInt64.ofNat bs.length, t') ∧ P t') ∧
    ∀ address n, n ≠ 0 → ∃ t', Transport.read t address n = some (bs.readAt start address n, t') ∧ P t'

/-- an image without a deadly address offers its bytes where it starts -/
theorem Image.offers {m : Image} (hdeadly : m.deadly = none) : Transport.Offers m.start m.data m := by
  refine ⟨(· = m), rfl, ?_⟩
  intro t ht
  subst ht
  refine ⟨⟨t, rfl, rfl⟩, fun address n _ => ⟨t, ?_, rfl⟩⟩
  simp [Transport.read, Image.read, hdeadly]

theorem Bytes.isSome_readAt_iff (bs : Bytes) (origin address : UInt64) (n : ℕ) :
    (bs.readAt origin address n).isSome ↔ Inside origin address n bs.length := by
  unfold readAt
  rw [start?_eq]
  split_ifs with hin <;> simp [hin]

namespace Source

variable {r : Remote τ} {t : τ} {start : UInt64} {bs : Bytes}

/-- a range is said to be covered exactly if it can be read next -/
def Truthful (s : Source τ) : Prop :=
  ∀ address length : UInt64, (s.covers address length).1 = ((s.covers address length).2.read address length.toNat).1.isSome

/-! ## Both answers of a remote memory -/

/-- memory behind a transport is asked for its size, and goes on offering its bytes -/
theorem remote_size (ht : r.transport = some t) (hs : Transport.Offers start bs t) :
    ∃ t', r.size = (UInt64.ofNat bs.length, { r with transport := some t' }) ∧ Transport.Offers start bs t' := by
  obtain ⟨P, hP, hstep⟩ := hs
  obtain ⟨t', hsize, hP'⟩ := (hstep t hP).1
  refine ⟨t', ?_, P, hP', hstep⟩
  simp [Remote.size, Remote.call, ht, hsize]

/-- what is read of it is what lies there, counted from where it starts -/
theorem remote_reads_iff (ht : r.transport = some t) (hs : Transport.Offers start bs t) (address : UInt64) (n : ℕ) :
    ((remote r).read address n).1.isSome ↔ n = 0 ∨ Inside start address n bs.length := by
  obtain ⟨P, hP, hstep⟩ := hs
  by_cases hn : n = 0
  · simp [Source.read, Remote.read, hn]
  · obtain ⟨t', hread, -⟩ := (hstep t hP).2 address n hn
    simp only [Source.read, Remote.read, Remote.call, ht, Option.bind_some, hread, if_neg hn, id_eq]
    rw [filter_readAt, Bytes.isSome_readAt_iff]
    simp [hn]

/-- what is said of it is whether the range ends within its size, wherever it starts -/
theorem remote_covers_iff (ht : r.transport = some t) (hs : Transport.Offers start bs t) (hsize : bs.length < UInt64.size)
    (address length : UInt64) :
    (((remote r).covers address length).1 = true ↔ length = 0 ∨ address.toNat + length.toNat ≤ bs.length) ∧
      ∃ r' t', ((remote r).covers address length).2 = remote r' ∧ r'.transport = some t' ∧
        Transport.Offers start bs t' := by
  unfold covers
  by_cases hzero : length = 0
  · simp only [if_pos hzero]
    exact ⟨by simp [hzero], r, t, rfl, ht, hs⟩
  · simp only [if_neg hzero]
    split_ifs with hwraps
    · refine ⟨?_, r, t, rfl, ht, hs⟩
      simp only [hzero, false_or, false_iff]
      omega
    · obtain ⟨t', hanswer, hs'⟩ := remote_size ht hs
      simp only [Source.size, hanswer]
      refine ⟨?_, { r with transport := some t' }, t', rfl, rfl, hs'⟩
      simp [hzero, UInt64.toNat_ofNat_of_lt' hsize]

/-! ## Which sources are truthful -/

/-- of nothing, only nothing can be read, and no more is said to be covered -/
theorem truthful_nothing : (nothing : Source τ).Truthful := by
  intro address length
  unfold covers
  by_cases hzero : length = 0
  · simp [hzero, Source.read]
  · have hne : length.toNat ≠ 0 := fun h => hzero (UInt64.toNat_inj.1 h)
    simp only [if_neg hzero]
    split_ifs with hwraps
    · simp [Source.read, hne]
    · simp [Source.read, Source.size, hne]

/-- a block in memory counts from its base, asked or read -/
theorem truthful_buffer {b : Buffer} (hsize : b.data.length < UInt64.size) : (buffer b : Source τ).Truthful := by
  intro address length
  have hnat : b.size.toNat = b.data.length := UInt64.toNat_ofNat_of_lt' hsize
  change b.covers address length = (b.read address length.toNat).isSome
  unfold Buffer.covers Buffer.read
  by_cases hzero : length = 0
  · subst hzero
    rfl
  · have hne : length.toNat ≠ 0 := fun h => hzero (UInt64.toNat_inj.1 h)
    rw [if_neg hne, Bool.eq_iff_iff, Bytes.isSome_readAt_iff, hnat]
    simp only [Inside, Bool.or_eq_true, Bool.and_eq_true, beq_iff_eq, hzero, false_or, decide_eq_true_eq,
      UInt64.le_iff_toNat_le]
    omega

/-- **Memory behind a transport is truthful if and only if it starts at zero or has no bytes.** -/
theorem truthful_remote_iff (ht : r.transport = some t) (hs : Transport.Offers start bs t)
    (hsize : bs.length < UInt64.size) : (remote r).Truthful ↔ start = 0 ∨ bs = [] := by
  have hboth : ∀ address length : UInt64,
      (((remote r).covers address length).1 =
        (((remote r).covers address length).2.read address length.toNat).1.isSome ↔
      ((length = 0 ∨ address.toNat + length.toNat ≤ bs.length) ↔
        (length.toNat = 0 ∨ Inside start address length.toNat bs.length))) := by
    intro address length
    obtain ⟨hcovers, r', t', hr', ht', hs'⟩ := remote_covers_iff ht hs hsize address length
    rw [Bool.eq_iff_iff, hcovers, hr', remote_reads_iff ht' hs']
  unfold Truthful
  simp only [hboth, Inside]
  constructor
  · intro hagree
    refine or_iff_not_imp_right.2 fun hne => ?_
    -- the first byte by the size of the memory is read only if the memory starts there
    have hpos : 0 < bs.length := List.length_pos_iff.2 hne
    have hfirst := (hagree 0 1).1 (.inr (by simp; omega))
    simp at hfirst
    exact UInt64.toNat_inj.1 (by rw [UInt64.toNat_zero]; omega)
  · intro hsimple address length
    have hzero : length = 0 ↔ length.toNat = 0 := UInt64.toNat_inj.symm
    rw [hzero]
    rcases hsimple with rfl | rfl
    · simp
    · simp only [List.length_nil]
      omega

/-- **A range is said to be covered exactly if it can be read, but for memory that starts elsewhere.** It is so for nothing,
and for every block in memory, wherever it is mapped. For memory behind a transport, from any address on, it is so if and only
if the memory starts at zero or has no bytes. -/
theorem truthful_iff : (nothing : Source τ).Truthful ∧
    (∀ b : Buffer, b.data.length < UInt64.size → (buffer b : Source τ).Truthful) ∧
    ∀ (r : Remote τ) (t : τ) (start : UInt64) (bs : Bytes), r.transport = some t → Transport.Offers start bs t →
      bs.length < UInt64.size → ((remote r).Truthful ↔ start = 0 ∨ bs = []) := by
  exact ⟨truthful_nothing, fun _ => truthful_buffer, fun _ _ _ _ => truthful_remote_iff⟩

/-- two bytes from an address on, behind a transport whose bytes change by themselves -/
def liveBytes (start : UInt64) : Image := ⟨start, [0xaa, 0xbb], [], none, none, false⟩

def liveMemory (start : UInt64) : Remote Image := .start ⟨"", "", true, false, 0⟩ (liveBytes start)

/-- two bytes at the last two addresses are truthful in memory, and behind a transport they are not -/
theorem truthful_iff_edge : (buffer ⟨[0xaa, 0xbb], "", 0xfffffffffffffffe⟩ : Source Image).Truthful ∧
    (remote (liveMemory 0)).Truthful ∧ ¬ (remote (liveMemory 0xfffffffffffffffe)).Truthful := by
  obtain ⟨-, hbuffer, hremote⟩ := truthful_iff (τ := Image)
  have hlive : ∀ start, (remote (liveMemory start)).Truthful ↔ start = 0 ∨ (liveBytes start).data = [] :=
    fun start => hremote (liveMemory start) (liveBytes start) start _ rfl (Image.offers rfl) (show 2 < UInt64.size by decide)
  refine ⟨hbuffer _ (by decide), (hlive 0).2 (.inl rfl), fun htruthful => ?_⟩
  rcases (hlive _).1 htruthful with hstart | hnil
  · exact absurd hstart (by decide)
  · exact absurd hnil (by decide)

/-- **Memory that starts elsewhere is not truthful, one way or the other.** Its first byte is said not to be covered, and is
read. The byte at zero is said to be covered, and is not. -/
theorem not_truthful_high : Transport.Offers 0x1000 [0xaa, 0xbb] (liveBytes 0x1000) ∧
    (remote (liveMemory 0x1000)).isLive = true ∧
    ((remote (liveMemory 0x1000)).covers 0x1000 1).1 = false ∧
    ((remote (liveMemory 0x1000)).read 0x1000 1).1 = some [0xaa] ∧
    ((remote (liveMemory 0x1000)).covers 0 1).1 = true ∧
    ((remote (liveMemory 0x1000)).read 0 1).1 = none ∧
    ¬ (remote (liveMemory 0x1000)).Truthful := by
  refine ⟨Image.offers rfl, rfl, by decide, by decide, by decide, by decide, fun htruthful => ?_⟩
  have hfirst := htruthful 0x1000 1
  revert hfirst
  decide

end Source

end ByteAtlas
