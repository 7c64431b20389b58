/-
Runs of raw bytes. A run is gathered from the front of the members that are left: it goes on as long as the next one is raw
and does not start before the end of the one before it. So nothing in a run overlaps, but bytes may be left out between two
members of it, and they count for its size.

- `Gathers`: members gathered from the front. `extendRun_spec` is the step for one run, `gathers_members` the whole way.
- `touches_iff`: one run is without gaps if and only if no member of it starts behind the end of the one before it, and all of
  them end within memory.
- `raw_runs_touch_iff`: so are all runs of a node if and only if that is so of all neighbours among its members.
- `loose_run_gap`: two members with a gap between them are gathered into one run.
-/
import ByteAtlas.Proofs.Members.Spans
import ByteAtlas.Proofs.Tree.Building

namespace ByteAtlas.Tree

variable {t : Tree} {i : Nat} {r rest : List Nat}

/-- one member starts where another ends or behind that -/
def Follows (t : Tree) (a b : Nat) : Prop := t.endAt a ≤ t.offsetAt b

/-- one member starts just where another ends -/
def Touches (t : Tree) (a b : Nat) : Prop := (t.offsetAt b).toNat = t.stopAt a

/-- no bytes are left out between two members -/
def Close (t : Tree) (a b : Nat) : Prop := (t.offsetAt b).toNat ≤ t.stopAt a

def sizes (t : Tree) (cs : List Nat) : ℕ := (cs.map fun c => (t.size c).toNat).sum

@[simp] theorem sizes_nil (t : Tree) : t.sizes [] = 0 := rfl

@[simp] theorem sizes_cons (t : Tree) (c : Nat) (cs : List Nat) : t.sizes (c :: cs) = (t.size c).toNat + t.sizes cs := rfl

def runOf (t : Tree) (i : Nat) (r : List Nat) : RawRun :=
  ⟨i :: r, t.offsetAt i, t.endAt ((i :: r).getLast (List.cons_ne_nil i r)) - t.offsetAt i,
    if r.isEmpty then t.labelAt i else none⟩

/-- Members of a definition, gathered from the front: one that is not raw stands alone; raw ones that follow each other make up
a run, and the next one is not raw or does not follow. -/
inductive Gathers (t : Tree) : List Nat → List Member → Prop
  | nil : Gathers t [] []
  | plain {i : Nat} {rest : List Nat} {ms : List Member} : ¬ t.isRawAt i → Gathers t rest ms →
      Gathers t (i :: rest) (.node i :: ms)
  | run {i : Nat} {r left : List Nat} {ms : List Member} : (∀ c ∈ i :: r, t.isRawAt c) → (i :: r).IsChain t.Follows →
      (∀ c ∈ left.head?, t.isRawAt c → ¬ t.Follows ((i :: r).getLast (List.cons_ne_nil i r)) c) → Gathers t left ms →
      Gathers t (i :: r ++ left) (.raw (t.runOf i r) :: ms)

/-! ## One run -/

theorem offsetAt_le_endAt (t : Tree) (c : Nat) : t.offsetAt c ≤ t.endAt c := by
  have hword := Word.toNat_le_top (t.offsetAt c)
  have hstop := t.toNat_offsetAt_le_stopAt c
  rw [UInt64.le_iff_toNat_le, toNat_endAt]
  omega

/-- **One run.** It takes members from the front as long as they are raw and follow; the next one is not, or does not. -/
theorem extendRun_spec (t : Tree) (i : Nat) (rest : List Nat) :
    ∃ r left, t.extendRun (t.endAt i) rest = (r, t.endAt ((i :: r).getLast (List.cons_ne_nil i r)), left) ∧
      rest = r ++ left ∧ (∀ c ∈ r, t.isRawAt c) ∧ (i :: r).IsChain t.Follows ∧
      ∀ c ∈ left.head?, t.isRawAt c → ¬ t.Follows ((i :: r).getLast (List.cons_ne_nil i r)) c := by
  induction rest generalizing i with
  | nil => exact ⟨[], [], rfl, rfl, by simp, .singleton i, by simp⟩
  | cons c rest ih =>
    rw [extendRun]
    split_ifs with hgoes
    · obtain ⟨hraw, hfollows⟩ := (Bool.and_eq_true _ _).mp hgoes
      obtain ⟨r, left, he, hrest, hraws, hchain, hstops⟩ := ih c
      have hfollows : t.endAt i ≤ t.offsetAt c := of_decide_eq_true hfollows
      refine ⟨c :: r, left, ?_, by rw [hrest, List.cons_append], List.forall_mem_cons.2 ⟨hraw, hraws⟩, ?_, ?_⟩
      · simp only [he, List.getLast_cons_cons]
      · exact .cons_cons hfollows hchain
      · rwa [List.getLast_cons_cons]
    · refine ⟨[], c :: rest, rfl, rfl, by simp, .singleton i, fun c' hc' hraw hfollows => hgoes ?_⟩
      obtain rfl := Option.some.inj hc'
      exact (Bool.and_eq_true _ _).mpr ⟨hraw, decide_eq_true hfollows⟩

/-- the members of a run start no later than the last of them ends -/
theorem offsetAt_le_of_follows (h : (i :: r).IsChain t.Follows) :
    t.offsetAt i ≤ t.endAt ((i :: r).getLast (List.cons_ne_nil i r)) := by
  induction r generalizing i with
  | nil => exact t.offsetAt_le_endAt i
  | cons c r ih =>
    obtain ⟨hfollows, hrest⟩ := List.isChain_cons_cons.1 h
    rw [List.getLast_cons_cons]
    exact UInt64.le_trans (t.offsetAt_le_endAt i) (UInt64.le_trans hfollows (ih hrest))

/-- members that touch cover as many bytes as their sizes say together -/
theorem sizes_of_touches (h : (i :: r).IsChain t.Touches) :
    (t.offsetAt i).toNat + t.sizes (i :: r) = t.stopAt ((i :: r).getLast (List.cons_ne_nil i r)) := by
  induction r generalizing i with
  | nil => rfl
  | cons c r ih =>
    obtain ⟨htouch, hrest⟩ := List.isChain_cons_cons.1 h
    calc (t.offsetAt i).toNat + t.sizes (i :: c :: r)
      _ = t.stopAt i + t.sizes (c :: r) := by rw [sizes_cons, stopAt, Nat.add_assoc]
      _ = (t.offsetAt c).toNat + t.sizes (c :: r) := by rw [htouch]
      _ = t.stopAt ((c :: r).getLast (List.cons_ne_nil c r)) := ih hrest
      _ = t.stopAt ((i :: c :: r).getLast (List.cons_ne_nil i _)) := by rw [List.getLast_cons_cons]

/-- if the last of some members that touch ends within memory, so do the others -/
theorem stopAt_lt_of_touches (h : (i :: r).IsChain t.Touches)
    (hlast : t.stopAt ((i :: r).getLast (List.cons_ne_nil i r)) < UInt64.size) : ∀ c ∈ i :: r, t.stopAt c < UInt64.size := by
  induction r generalizing i with
  | nil => exact List.forall_mem_cons.2 ⟨hlast, by simp⟩
  | cons c r ih =>
    obtain ⟨htouch, hrest⟩ := List.isChain_cons_cons.1 h
    rw [List.getLast_cons_cons] at hlast
    exact List.forall_mem_cons.2 ⟨htouch ▸ (t.offsetAt c).toNat_lt, ih hrest hlast⟩

/-- **A run is without gaps, and as large as its members together, if and only if no bytes are left out between them and they
end within memory.** -/
theorem touches_iff (h : (i :: r).IsChain t.Follows) :
    ((i :: r).IsChain t.Touches ∧
      (t.endAt ((i :: r).getLast (List.cons_ne_nil i r)) - t.offsetAt i).toNat = t.sizes (i :: r)) ↔
    (∀ c ∈ i :: r, t.stopAt c < UInt64.size) ∧ (i :: r).IsChain t.Close := by
  have hle := offsetAt_le_of_follows h
  rw [UInt64.toNat_sub_of_le _ _ hle, toNat_endAt]
  rw [UInt64.le_iff_toNat_le, toNat_endAt] at hle
  constructor
  · rintro ⟨htouches, hsize⟩
    have hsum := sizes_of_touches htouches
    refine ⟨stopAt_lt_of_touches htouches ?_, htouches.imp fun _ _ htouch => htouch.le⟩
    simp only [Word.top, UInt64.size] at hle hsize ⊢
    omega
  · rintro ⟨hfits, hclose⟩
    have htouches : (i :: r).IsChain t.Touches := by
      refine List.isChain_iff_forall_rel_of_append_cons_cons.2 fun a b before after he => ?_
      have hfollows := List.isChain_iff_forall_rel_of_append_cons_cons.1 h he
      rw [Follows, UInt64.le_iff_toNat_le, toNat_endAt_of_lt (hfits a (by simp [he]))] at hfollows
      exact le_antisymm (List.isChain_iff_forall_rel_of_append_cons_cons.1 hclose he) hfollows
    have hsum := sizes_of_touches htouches
    have hlast := hfits _ (List.getLast_mem (List.cons_ne_nil i r))
    refine ⟨htouches, ?_⟩
    simp only [Word.top, UInt64.size] at hlast ⊢
    omega

/-! ## All runs -/

/-- **Members are gathered** in as many steps as there are positions. -/
theorem gathers_gather (t : Tree) (fuel : Nat) (cs : List Nat) (hfuel : cs.length ≤ fuel) :
    t.Gathers cs (t.gather fuel cs) := by
  induction fuel generalizing cs with
  | zero =>
    obtain rfl := List.length_eq_zero_iff.1 (Nat.le_zero.1 hfuel)
    exact .nil
  | succ fuel ih =>
    cases cs with
    | nil => exact .nil
    | cons i rest =>
      rw [List.length_cons, Nat.succ_le_succ_iff] at hfuel
      rw [gather]
      split_ifs with hraw
      · obtain ⟨r, left, he, rfl, hraws, hchain, hstops⟩ := t.extendRun_spec i rest
        rw [List.length_append] at hfuel
        simp only [he]
        exact .run (List.forall_mem_cons.2 ⟨hraw, hraws⟩) hchain hstops (ih left (by omega))
      · exact .plain hraw (ih rest hfuel)

theorem gathers_members (t : Tree) (i : Nat) : t.Gathers (t.childrenAt i) (t.members i) := t.gathers_gather _ _ (le_refl _)

/-- what a run that was gathered is -/
theorem Gathers.exists_runOf {cs : List Nat} {ms : List Member} (h : t.Gathers cs ms) {run : RawRun} (hrun : .raw run ∈ ms) :
    ∃ i r, run = t.runOf i r ∧ (∀ c ∈ i :: r, t.isRawAt c) ∧ (i :: r).IsChain t.Follows := by
  induction h with
  | nil => exact absurd hrun List.not_mem_nil
  | plain _ _ ih => exact ih ((List.mem_cons.1 hrun).resolve_left nofun)
  | run hraws hchain _ _ ih =>
    rcases List.mem_cons.1 hrun with e | hrun
    · exact ⟨_, _, Member.raw.inj e, hraws, hchain⟩
    · exact ih hrun

/-- a run is without gaps, and as large as its members together -/
def Solid (t : Tree) (run : RawRun) : Prop := run.nodes.IsChain t.Touches ∧ run.size.toNat = t.sizes run.nodes

/-- no bytes are left out between two members if both are raw -/
def RawClose (t : Tree) (a b : Nat) : Prop := t.isRawAt a → t.isRawAt b → t.Close a b

theorem solid_runOf_iff (hraws : ∀ c ∈ i :: r, t.isRawAt c) (h : (i :: r).IsChain t.Follows) :
    t.Solid (t.runOf i r) ↔ (∀ c ∈ i :: r, t.isRawAt c → t.stopAt c < UInt64.size) ∧ (i :: r).IsChain t.RawClose := by
  refine (touches_iff h).trans (and_congr ?_ (List.IsChain.iff_of_mem_imp fun a b ha hb => ?_))
  · exact ⟨fun hfits c hc _ => hfits c hc, fun hfits c hc => hfits c hc (hraws c hc)⟩
  · exact ⟨fun hclose _ _ => hclose, fun hclose => hclose (hraws a ha) (hraws b hb)⟩

/-- between a run and what is left nothing can be amiss: the next member is not raw, or starts before the run ends -/
theorem rawClose_of_not_follows {a b : Nat} (h : t.isRawAt b → ¬ t.Follows a b) : t.RawClose a b := by
  intro _ hraw
  have hlt := h hraw
  rw [Follows, UInt64.le_iff_toNat_le, toNat_endAt] at hlt
  rw [Close]
  omega

/-- **All runs are solid if and only if raw neighbours are close and end within memory.** -/
theorem Gathers.solid_iff {cs : List Nat} {ms : List Member} (h : t.Gathers cs ms) :
    (∀ run, .raw run ∈ ms → t.Solid run) ↔
      (∀ c ∈ cs, t.isRawAt c → t.stopAt c < UInt64.size) ∧ cs.IsChain t.RawClose := by
  induction h with
  | nil => simp
  | @plain i rest ms hraw _ ih =>
    have hfirst : ∀ c ∈ rest.head?, t.RawClose i c := fun c _ hraw' => absurd hraw' hraw
    have hmem : (∀ run, .raw run ∈ Member.node i :: ms → t.Solid run) ↔ ∀ run, .raw run ∈ ms → t.Solid run := by simp
    rw [hmem, ih, List.forall_mem_cons, List.isChain_cons]
    tauto
  | @run i r left ms hraws hchain hstops _ ih =>
    have hnext : ∀ a ∈ (i :: r).getLast?, ∀ c ∈ left.head?, t.RawClose a c := by
      intro a ha c hc
      rw [List.getLast?_eq_some_getLast (List.cons_ne_nil i r)] at ha
      obtain rfl := Option.some.inj ha
      exact rawClose_of_not_follows (hstops c hc)
    have hmem : (∀ run, .raw run ∈ Member.raw (t.runOf i r) :: ms → t.Solid run) ↔
        t.Solid (t.runOf i r) ∧ ∀ run, .raw run ∈ ms → t.Solid run := by simp
    rw [hmem, ih, solid_runOf_iff hraws hchain, List.isChain_append, List.forall_mem_append]
    tauto

/-- **Runs of raw bytes are without gaps if and only if raw neighbours are.** In every run each member starts where the one
before it ends or behind that, and the run goes from the start of the first to the end of the last. Each of them starts just
where the one before it ends, and the size of each run is that of its members together, if and only if no bytes are left out
between two neighbours that are both raw, and no raw member ends past the end of memory. -/
theorem raw_runs_touch_iff (t : Tree) (i : Nat) :
    (∀ run, .raw run ∈ t.members i → ∃ c r, run = t.runOf c r ∧ (∀ b ∈ c :: r, t.isRawAt b) ∧
      (c :: r).IsChain t.Follows ∧ t.offsetAt c ≤ t.endAt ((c :: r).getLast (List.cons_ne_nil c r))) ∧
    ((∀ run, .raw run ∈ t.members i →
        run.nodes.IsChain t.Touches ∧ run.size.toNat = (run.nodes.map fun c => (t.size c).toNat).sum) ↔
      (∀ c ∈ t.childrenAt i, t.isRawAt c → t.stopAt c < UInt64.size) ∧
        (t.childrenAt i).IsChain fun a b => t.isRawAt a → t.isRawAt b → (t.offsetAt b).toNat ≤ t.stopAt a) := by
  have hgathers := t.gathers_members i
  refine ⟨fun run hrun => ?_, hgathers.solid_iff⟩
  obtain ⟨c, r, he, hraws, hchain⟩ := hgathers.exists_runOf hrun
  exact ⟨c, r, he, hraws, hchain, offsetAt_le_of_follows hchain⟩

/-- a struct with two raw words and four bytes between them that no member takes -/
def looseNodes : List Node :=
  [{ Node.rootStruct "l" "Loose" with id := 1 }, { Node.field 1 0 .hex32 "low" with id := 2 },
    { Node.field 1 8 .hex32 "high" with id := 3 }]

def loose : Tree := looseNodes.foldl push (empty 0)

/-- the two words are gathered into one run, which is larger than they are together -/
theorem loose_run_gap : loose.WellFormed ∧ loose.members 0 = [.raw ⟨[1, 2], 0, 12, none⟩] ∧
    ¬ [1, 2].IsChain loose.Touches ∧ loose.sizes [1, 2] = 8 := by
  refine ⟨wellFormed_ofNodes (show ofNodes 0 looseNodes 1 = .ok loose from rfl), by decide, fun htouches => ?_, by decide⟩
  exact absurd (List.isChain_pair.1 htouches) (show ¬ (loose.offsetAt 2).toNat = loose.stopAt 1 by decide)

end ByteAtlas.Tree
