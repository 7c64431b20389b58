/-
Sources whose bytes are counted from their own start, under a tree that is mapped at an address. A block in memory is mapped
there with the tree. Memory behind a transport is not: the base is noted, but requests reach the transport with the addresses
of the tree.

- `Source.Holds`: nothing, a block in memory, or memory behind a transport that serves bytes from address zero on, whatever it
  was asked before.
- `Document.reads_iff`: whatever bases a document is moved to, every byte is read as far behind the base as it lies behind the
  start of the source, exactly if the source is in memory, or there are no bytes, or the base is zero.
- `Document.not_read_remote`: bytes behind a transport are not read at the base.
-/
import ByteAtlas.Proofs.Document.Relocated

namespace ByteAtlas

variable {τ : Type} {bs : Bytes}

/-- places in a block are not wrapped around if the block does not reach around the end of memory -/
theorem Bytes.toNat_place {base : UInt64} (hbase : base.toNat + bs.length ≤ UInt64.size) {k : Nat} (hk : k < bs.length) :
    (base + UInt64.ofNat k).toNat = base.toNat + k := by
  unfold UInt64.size at hbase
  rw [UInt64.toNat_add, UInt64.toNat_ofNat', Nat.mod_eq_of_lt (a := k) (by omega), Nat.mod_eq_of_lt (by omega)]

theorem Bytes.readAt_one_eq_some_iff {base address : UInt64} (hbase : base.toNat + bs.length ≤ UInt64.size) {x : Bytes} :
    bs.readAt base address 1 = some x ↔ ∃ k, ∃ hk : k < bs.length, address = base + UInt64.ofNat k ∧ x = [bs[k]] := by
  have hone : ∀ (k : Nat) (hk : k < bs.length), (bs.drop k).take 1 = [bs[k]] := by
    intro k hk
    rw [List.drop_eq_getElem_cons hk]
    rfl
  rw [readAt, Option.map_eq_some_iff]
  constructor
  · rintro ⟨k, hk, rfl⟩
    obtain ⟨hin, haddress⟩ := (start?_eq_some_iff_add hbase Nat.one_ne_zero).1 hk
    exact ⟨k, hin, haddress, hone k hin⟩
  · rintro ⟨k, hk, haddress, rfl⟩
    exact ⟨k, (start?_eq_some_iff_add hbase Nat.one_ne_zero).2 ⟨hk, haddress⟩, hone k hk⟩

variable [Transport τ]

/-! ## What a source holds -/

/-- a transport that serves bytes from address zero on, in every state that requests leave it in -/
def Transport.Serves (bs : Bytes) (t : τ) : Prop :=
  ∃ P : τ → Prop, P t ∧ ∀ t, P t → (∃ n t', Transport.size t = some (n, t') ∧ P t') ∧
    ∀ address n, n ≠ 0 → ∃ t', Transport.read t address n = some (bs.readAt 0 address n, t') ∧ P t'

section Serves

variable {t : τ}

theorem Transport.Serves.size (h : Transport.Serves bs t) :
    ∃ n t', Transport.size t = some (n, t') ∧ Transport.Serves bs t' := by
  obtain ⟨P, ht, hP⟩ := h
  obtain ⟨n, t', hsize, ht'⟩ := (hP t ht).1
  exact ⟨n, t', hsize, P, ht', hP⟩

theorem Transport.Serves.read (h : Transport.Serves bs t) (address : UInt64) {n : Nat} (hn : n ≠ 0) :
    ∃ t', Transport.read t address n = some (bs.readAt 0 address n, t') ∧ Transport.Serves bs t' := by
  obtain ⟨P, ht, hP⟩ := h
  obtain ⟨t', hread, ht'⟩ := (hP t ht).2 address n hn
  exact ⟨t', hread, P, ht', hP⟩

/-- an image at address zero without a deadly address serves its bytes -/
theorem Image.serves {m : Image} (hstart : m.start = 0) (hdeadly : m.deadly = none) : Transport.Serves m.data m := by
  refine ⟨(· = m), rfl, ?_⟩
  rintro _ rfl
  refine ⟨⟨_, _, rfl, rfl⟩, fun address n _ => ⟨_, ?_, rfl⟩⟩
  simp [Transport.read, Image.read, hstart, hdeadly]

end Serves

theorem Remote.size_of_serves {r : Remote τ} {t : τ} (ht : r.transport = some t) (hs : Transport.Serves bs t) :
    ∃ n t', r.size = (n, { r with transport := some t' }) ∧ Transport.Serves bs t' := by
  obtain ⟨n, t', hsize, hs'⟩ := hs.size
  refine ⟨n, t', ?_, hs'⟩
  simp [Remote.size, Remote.call, ht, hsize]

/-- a request reaches the transport with the address that is asked for, wherever the source is said to be mapped -/
theorem Remote.read_of_serves {r : Remote τ} {t : τ} (ht : r.transport = some t) (hs : Transport.Serves bs t)
    (address : UInt64) {n : Nat} (hn : n ≠ 0) :
    ∃ t', r.read address n = (bs.readAt 0 address n, { r with transport := some t' }) ∧ Transport.Serves bs t' := by
  obtain ⟨t', hread, hs'⟩ := hs.read address hn
  refine ⟨t', ?_, hs'⟩
  simp [Remote.read, Remote.call, ht, hread, hn, Bytes.filter_readAt]

namespace Source

variable {s s' : Source τ}

/-- the bytes of a source, counted from its own start -/
inductive Holds (bs : Bytes) : Source τ → Prop
  | nothing : bs = [] → Holds bs .nothing
  | buffer {b : Buffer} : b.data = bs → Holds bs (.buffer b)
  | remote {r : Remote τ} {t : τ} : r.transport = some t → Transport.Serves bs t → Holds bs (.remote r)

omit [Transport τ] in
theorem isSome_memoryAt_iff : s.memoryAt.isSome ↔ ∃ b, s = .buffer b := by
  cases s <;> simp [memoryAt]

theorem Holds.rebase (h : s.Holds bs) (base : UInt64) : (s.rebase base).Holds bs := by
  cases h with
  | nothing he => exact .nothing he
  | buffer hb => exact .buffer hb
  | remote ht hs => exact .remote ht hs

theorem Holds.size (h : s.Holds bs) : s.size.2.Holds bs := by
  cases h with
  | nothing he => exact .nothing he
  | buffer hb => exact .buffer hb
  | @remote r t ht hs =>
    obtain ⟨n, t', hsize, hs'⟩ := Remote.size_of_serves ht hs
    simp only [Source.size, hsize]
    exact .remote rfl hs'

theorem Holds.read (h : s.Holds bs) (address : UInt64) (n : Nat) : (s.read address n).2.Holds bs := by
  cases h with
  | nothing he => exact .nothing he
  | buffer hb => exact .buffer hb
  | @remote r t ht hs =>
    by_cases hn : n = 0
    · have hidle : r.read address n = (some [], r) := if_pos hn
      simp only [Source.read, hidle]
      exact .remote ht hs
    · obtain ⟨t', hread, hs'⟩ := Remote.read_of_serves ht hs address hn
      simp only [Source.read, hread]
      exact .remote rfl hs'

theorem Holds.asked (h : s.Holds bs) (ha : s.Asked s') : s'.Holds bs := by
  induction ha with
  | refl => exact h
  | size _ ih => exact ih.size
  | read _ address n ih => exact ih.read address n

end Source

namespace Document

variable {d d' : Document τ} {s : Source τ}

/-- a document after it was moved to other bases and its source was asked, any number of times -/
inductive Roams (d : Document τ) : Document τ → Prop
  | refl : Roams d d
  | relocate {d' : Document τ} (before : Roams d d') (base : UInt64) : Roams d (d'.relocate base)
  | ask {d' : Document τ} {s : Source τ} (before : Roams d d') (last : d'.source.Asked s) : Roams d (d'.withSource s)

/-- each byte is read as far behind the base of the tree as it lies behind the start of the source -/
def ReadsAtBase (d : Document τ) (bs : Bytes) : Prop :=
  ∀ k, ∀ hk : k < bs.length, (d.source.read (d.tree.base + UInt64.ofNat k) 1).1 = some [bs[k]]

omit [Transport τ] in
theorem isSome_memoryAt_alignSource (d : Document τ) : d.alignSource.source.memoryAt.isSome = d.source.memoryAt.isSome := by
  unfold alignSource
  split
  · rfl
  · change (d.source.rebase d.tree.base).memoryAt.isSome = _
    cases d.source <;> rfl

theorem holds_alignSource (h : d.source.Holds bs) : d.alignSource.source.Holds bs := by
  unfold alignSource
  split
  · exact h
  · exact h.rebase _

/-- what stays of a source that is attached -/
structure Carries (d : Document τ) (bs : Bytes) (inMemory : Bool) : Prop where
  holds : d.source.Holds bs
  aligned : d.Aligned
  memory : d.source.memoryAt.isSome = inMemory

theorem carries_attach (h : s.Holds bs) (d : Document τ) : (d.attach s).Carries bs s.memoryAt.isSome where
  holds := holds_alignSource (d := { d.withSource s with dataPath := none }) h
  aligned := aligned_alignSource _
  memory := isSome_memoryAt_alignSource { d.withSource s with dataPath := none }

theorem Carries.roams {inMemory : Bool} (h : d.Carries bs inMemory) (hr : d.Roams d') : d'.Carries bs inMemory := by
  induction hr with
  | refl => exact h
  | @relocate d' _ base ih =>
    exact ⟨holds_alignSource (d := d'.withTree (d'.tree.mapped base)) ih.holds, aligned_alignSource _,
      (isSome_memoryAt_alignSource (d'.withTree (d'.tree.mapped base))).trans ih.memory⟩
  | @ask d' s _ last ih =>
    have hsites : (d'.withSource s).scene.sites = d'.scene.sites := Prod.ext rfl last.memoryAt_eq
    exact ⟨ih.holds.asked last, ih.aligned.of_sites hsites, (congrArg Option.isSome last.memoryAt_eq).trans ih.memory⟩

/-- with a block in memory the base of the tree is where its bytes are; with a transport, zero is -/
theorem Carries.readsAtBase_iff {inMemory : Bool} (h : d.Carries bs inMemory)
    (hbase : d.tree.base.toNat + bs.length ≤ UInt64.size) :
    d.ReadsAtBase bs ↔ inMemory ∨ bs = [] ∨ d.tree.base = 0 := by
  have hmemory := h.memory
  have haligned := h.aligned
  have hholds := h.holds
  unfold Aligned at haligned
  unfold ReadsAtBase
  generalize d.source = s at hmemory haligned hholds ⊢
  cases hholds with
  | nothing he =>
    subst he
    exact ⟨fun _ => .inr (.inl rfl), fun _ k hk => absurd hk (Nat.not_lt_zero k)⟩
  | @buffer b hb =>
    subst hb
    obtain rfl : true = inMemory := hmemory
    refine ⟨fun _ => .inl rfl, fun _ k hk => ?_⟩
    have hat : b.base = d.tree.base := haligned b.base rfl
    exact (Bytes.readAt_one_eq_some_iff (hat ▸ hbase)).2 ⟨k, hk, hat ▸ rfl, rfl⟩
  | @remote r t ht hs =>
    obtain rfl : false = inMemory := hmemory
    have hsmall : (0 : UInt64).toNat + bs.length ≤ UInt64.size := by
      simp only [UInt64.toNat_zero]
      omega
    have hread : ∀ address, ((Source.remote r).read address 1).1 = bs.readAt 0 address 1 := by
      intro address
      obtain ⟨t', hread, -⟩ := Remote.read_of_serves ht hs address Nat.one_ne_zero
      simp only [Source.read, hread]
    simp only [hread, Bytes.readAt_one_eq_some_iff hsmall, Bool.false_eq_true, false_or]
    constructor
    · intro hreads
      refine or_iff_not_imp_left.2 fun hne => ?_
      -- the last byte is asked for as far behind its place as the base is
      have hpos : 0 < bs.length := List.length_pos_iff.2 hne
      obtain ⟨i, hi, hplace, -⟩ := hreads (bs.length - 1) (by omega)
      have hlast := congrArg UInt64.toNat hplace
      rw [Bytes.toNat_place hbase (by omega), Bytes.toNat_place hsmall hi, UInt64.toNat_zero] at hlast
      exact UInt64.toNat_inj.1 (by rw [UInt64.toNat_zero]; omega)
    · rintro (rfl | hzero) k hk
      · exact absurd hk (Nat.not_lt_zero k)
      · exact ⟨k, hk, by rw [hzero], rfl⟩

/-- **Bytes behind a transport are read at the base only if the base is zero.** Attach a source that holds bytes, counted from
its own start, to any document, and let bases follow and questions to the source, in any number and order. Then each byte is
read as far behind the base as it lies behind the start, exactly if the source is a block in memory, or there are no bytes, or
the base is zero. -/
theorem reads_iff (h : s.Holds bs) (d : Document τ) (hr : (d.attach s).Roams d')
    (hbase : d'.tree.base.toNat + bs.length ≤ UInt64.size) :
    d'.ReadsAtBase bs ↔ (∃ b, s = .buffer b) ∨ bs = [] ∨ d'.tree.base = 0 := by
  rw [((carries_attach h d).roams hr).readsAtBase_iff hbase, Source.isSome_memoryAt_iff]

def twoBytes : Source Image := .buffer ⟨[0xaa, 0xbb], "", 0⟩

/-- the same bytes behind a transport that serves them from address zero on -/
def remoteBytes : Source Image := .remote (.start ⟨"", "", false, false, 0⟩ ⟨0, [0xaa, 0xbb], [], none, none, false⟩)

theorem holds_remoteBytes : remoteBytes.Holds [0xaa, 0xbb] := .remote rfl (Image.serves rfl rfl)

/-- moved on after it was read, the block in memory is read at the new base, and the bytes behind the transport are not -/
theorem reads_iff_two :
    let d : Document Image := (Document.empty 0x1000).attach twoBytes
    let e : Document Image := (Document.empty 0x1000).attach remoteBytes
    (d.relocate 0x2000).ReadsAtBase [0xaa, 0xbb] ∧ ¬ (e.relocate 0x2000).ReadsAtBase [0xaa, 0xbb] ∧
      (e.relocate 0).ReadsAtBase [0xaa, 0xbb] := by
  intro d e
  have hmoved : ∀ base, e.Roams (e.relocate base) := fun base => .relocate .refl base
  refine ⟨?_, ?_, ?_⟩
  · exact (reads_iff (.buffer rfl) _ (.relocate .refl 0x2000) (by decide)).2 (.inl ⟨_, rfl⟩)
  · intro hreads
    rcases (reads_iff holds_remoteBytes _ (hmoved 0x2000) (by decide)).1 hreads with ⟨b, hb⟩ | hnil | hzero
    · cases hb
    · cases hnil
    · revert hzero
      decide
  · exact (reads_iff holds_remoteBytes _ (hmoved 0) (by decide)).2 (.inr (.inr rfl))

/-- **Bytes behind a transport are not mapped with the tree.** The source is not live, and its bytes are counted from its own
start; attached to a document at `0x1000` it is said to be mapped there. Its first byte is not read there, but at zero. -/
theorem not_read_remote : remoteBytes.isLive = false ∧ remoteBytes.Holds [0xaa, 0xbb] ∧
    ((Document.empty 0x1000).attach remoteBytes).tree.base.toNat + 2 ≤ UInt64.size ∧
    ((Document.empty 0x1000).attach remoteBytes).source.base = 0x1000 ∧
    (((Document.empty 0x1000).attach remoteBytes).source.read 0x1000 1).1 = none ∧
    (((Document.empty 0x1000).attach remoteBytes).source.read 0 1).1 = some [0xaa] ∧
    ¬ ((Document.empty 0x1000).attach remoteBytes).ReadsAtBase [0xaa, 0xbb] := by
  refine ⟨rfl, holds_remoteBytes, by decide, rfl, rfl, rfl, fun hreads => ?_⟩
  have hfirst := hreads 0 (by decide)
  revert hfirst
  decide

end Document

end ByteAtlas
