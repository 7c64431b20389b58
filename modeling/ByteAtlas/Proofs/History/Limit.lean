/-
The limit of a history. Recording an edit and changing the limit drop the oldest edits past it, taking edits back and making
them again drops none. So a history can come to hold more edits than its limit: those that were taken back before the limit
was lowered are made again after it.

- `Session.Goes`: all that a call can do to a history while its limit stays.
- `Goes.steps_le`: the edits made and taken back are together never more than the limit, or than they were.
- `Session.exists_redone`: whatever was taken back can be made again, in scenes of its own.
- `Session.withinLimit_iff`: a new limit holds from then on exactly if nothing was taken back or all of it fits.
- `Session.not_withinLimit_redone`: two edits, taken back and made again around a lower limit.
-/
import ByteAtlas.History
import ByteAtlas.Source.Image
import ByteAtlas.Proofs.Tree.Building

namespace ByteAtlas

namespace History

/-- no more edits can be taken back than the limit says -/
def WithinLimit (h : History) : Prop := h.limit ≠ 0 → h.done.length ≤ h.limit.toNat

/-- edits made and edits taken back -/
def steps (h : History) : Nat := h.done.length + h.undone.length

end History

namespace Session

variable {τ : Type}

inductive Call (τ : Type) where
  | perform (e : Edit)
  | undo
  | redo
  | setLimit (limit : UInt64)
  | clear
  /-- what edits are made in is given anew with each of them, so from now on it may be another tree and source -/
  | visit (scene : Scene τ)

/-- calls that leave the limit as it is -/
def Call.KeepsLimit : Call τ → Prop
  | .setLimit _ => False
  | _ => True

section Calling

variable [Transport τ]

/-- the session after a call, whether or not it was refused -/
def call (s : Session τ) : Call τ → Session τ
  | .perform e => (s.perform e).2
  | .undo => s.undo.2
  | .redo => s.redo.2
  | .setLimit limit => { s with history := s.history.withLimit limit }
  | .clear => { s with history := s.history.clear }
  | .visit scene => { s with scene }

def calls (s : Session τ) (cs : List (Call τ)) : Session τ := cs.foldl call s

variable {s : Session τ} {h h' : History} {cs : List (Call τ)}

theorem calls_append (s : Session τ) (cs cs' : List (Call τ)) : s.calls (cs ++ cs') = (s.calls cs).calls cs' := by
  rw [calls, calls, calls, List.foldl_append]

/-! ## One call -/

/-- an edit that was made once -/
def Made (τ : Type) [Transport τ] (e : Edit) : Prop := ∃ scene scene' : Scene τ, e.apply scene = (.ok (), scene')

/-- what becomes of a history while its limit stays -/
inductive Goes (τ : Type) [Transport τ] : History → History → Prop
  | stays {h : History} : Goes τ h h
  | records {h : History} {e : Edit} (made : Made τ e) : Goes τ h (h.record e)
  | back {h : History} {e : Edit} {es : List Edit} (newest : h.done = e :: es) :
    Goes τ h { h with done := es, undone := e :: h.undone }
  | forth {h : History} {e : Edit} {es : List Edit} (newest : h.undone = e :: es) :
    Goes τ h { h with done := e :: h.done, undone := es }
  | clears {h : History} : Goes τ h h.clear

theorem goes_call (s : Session τ) {c : Call τ} (hc : c.KeepsLimit) : Goes τ s.history (s.call c).history := by
  cases c with
  | perform e =>
    rw [call, perform]
    cases happ : e.apply s.scene with
    | mk r scene =>
      cases r with
      | error err => exact .stays
      | ok _ => exact .records ⟨s.scene, scene, happ⟩
  | undo =>
    rw [call, undo]
    cases hd : s.history.done with
    | nil => exact .stays
    | cons e es =>
      simp only
      cases e.retract s.scene with
      | mk r scene =>
        cases r with
        | error err => exact .stays
        | ok _ => exact .back hd
  | redo =>
    rw [call, redo]
    cases hu : s.history.undone with
    | nil => exact .stays
    | cons e es =>
      simp only
      cases e.apply s.scene with
      | mk r scene =>
        cases r with
        | error err => exact .stays
        | ok _ => exact .forth hu
  | setLimit limit => exact hc.elim
  | clear => exact .clears
  | visit scene => exact .stays

theorem Goes.limit_eq (hg : Goes τ h h') : h'.limit = h.limit := by cases hg <;> rfl

/-- edits are added only up to the limit -/
theorem Goes.steps_le (hg : Goes τ h h') (hlimit : h.limit ≠ 0) : h'.steps ≤ max h.steps h.limit.toNat := by
  cases hg with
  | stays => exact le_max_left _ _
  | @records e made =>
    have hlen := History.length_cut h.limit (e :: h.done)
    rw [if_neg hlimit] at hlen
    simp only [History.steps, History.record, hlen, List.length_nil]
    omega
  | back newest | forth newest =>
    simp only [History.steps, newest, List.length_cons]
    omega
  | clears => exact Nat.zero_le _

/-- only edits that were made are ever in a history -/
def EachMade (τ : Type) [Transport τ] (h : History) : Prop := ∀ e ∈ h.done ++ h.undone, Made τ e

theorem EachMade.subset (hm : EachMade τ h) (hsub : h'.done ++ h'.undone ⊆ h.done ++ h.undone) : EachMade τ h' :=
  fun e he => hm e (hsub he)

theorem EachMade.withLimit (hm : EachMade τ h) (limit : UInt64) : EachMade τ (h.withLimit limit) :=
  hm.subset (List.append_subset.2 ⟨List.subset_append_of_subset_left _ (History.cut_subset limit h.done),
    List.subset_append_right _ _⟩)

theorem Goes.eachMade (hg : Goes τ h h') (hm : EachMade τ h) : EachMade τ h' := by
  cases hg with
  | stays => exact hm
  | @records e made =>
    intro f hf
    rw [History.record, List.append_nil] at hf
    rcases List.mem_cons.1 (History.cut_subset _ _ hf) with rfl | hf
    · exact made
    · exact hm f (List.mem_append_left _ hf)
  | back newest | forth newest =>
    refine hm.subset fun f hf => ?_
    simp only [newest, List.cons_append, List.mem_append, List.mem_cons] at hf ⊢
    tauto
  | clears => exact hm.subset (List.nil_subset _)

/-! ## Calls in order -/

theorem eachMade_call (hm : EachMade τ s.history) (c : Call τ) : EachMade τ (s.call c).history := by
  cases c with
  | setLimit limit => exact hm.withLimit limit
  | perform | undo | redo | clear | visit => exact (goes_call s (by trivial)).eachMade hm

theorem eachMade_calls (hm : EachMade τ s.history) (cs : List (Call τ)) : EachMade τ (s.calls cs).history := by
  induction cs generalizing s with
  | nil => exact hm
  | cons c rest ih => exact ih (eachMade_call hm c)

/-- while the limit stays, edits are added only up to it -/
theorem calls_keep (hcs : ∀ c ∈ cs, Call.KeepsLimit c) : (s.calls cs).history.limit = s.history.limit ∧
    (s.history.limit ≠ 0 → (s.calls cs).history.steps ≤ max s.history.steps s.history.limit.toNat) := by
  induction cs generalizing s with
  | nil => exact ⟨rfl, fun _ => le_max_left _ _⟩
  | cons c rest ih =>
    obtain ⟨hc, hrest⟩ := List.forall_mem_cons.1 hcs
    have hgoes := goes_call s hc
    obtain ⟨hlimit, hsteps⟩ := ih (s := s.call c) hrest
    rw [hgoes.limit_eq] at hlimit hsteps
    exact ⟨hlimit, fun h0 => (hsteps h0).trans (max_le (hgoes.steps_le h0) (le_max_right _ _))⟩

theorem withinLimit_calls (hcs : ∀ c ∈ cs, Call.KeepsLimit c)
    (hfits : s.history.limit ≠ 0 → s.history.steps ≤ s.history.limit.toNat) : (s.calls cs).history.WithinLimit := by
  obtain ⟨hlimit, hsteps⟩ := calls_keep hcs
  intro h0
  rw [hlimit] at h0 ⊢
  have hle := hsteps h0
  rw [max_eq_right (hfits h0)] at hle
  exact (Nat.le_add_right _ _).trans hle

/-- an edit that was taken back is made again in a scene in which it was made once -/
theorem exists_redone (hm : EachMade τ s.history) : ∃ cs : List (Call τ), (∀ c ∈ cs, c.KeepsLimit) ∧
    (s.calls cs).history.done.length = s.history.steps := by
  obtain ⟨scene, done, undone, limit⟩ := s
  induction undone generalizing scene done with
  | nil => exact ⟨[], by simp, rfl⟩
  | cons e rest ih =>
    obtain ⟨old, new, happ⟩ := hm e (List.mem_append_right _ List.mem_cons_self)
    have hredo : (Session.calls ⟨scene, done, e :: rest, limit⟩ [.visit old, .redo]) = ⟨new, e :: done, rest, limit⟩ := by
      simp only [calls, List.foldl_cons, List.foldl_nil, call, redo, happ]
    obtain ⟨cs, hcs, hlen⟩ := ih new (e :: done) (hm.subset (by simp))
    refine ⟨[.visit old, .redo] ++ cs, ?_, ?_⟩
    · simpa [Call.KeepsLimit] using hcs
    · rw [calls_append, hredo, hlen]
      simp only [History.steps, List.length_cons]
      omega

/-! ## A limit that is kept -/

/-- a limit that is set now holds as long as it stays exactly if all that was taken back fits -/
theorem withinLimit_setLimit_iff (hm : EachMade τ s.history) (limit : UInt64) :
    (∀ after, (∀ c ∈ after, Call.KeepsLimit c) → (s.calls (.setLimit limit :: after)).history.WithinLimit) ↔
      limit = 0 ∨ s.history.undone = [] ∨ s.history.steps ≤ limit.toNat := by
  have hstart : ∀ after, s.calls (.setLimit limit :: after) = (s.call (.setLimit limit)).calls after := fun _ => rfl
  have hcut := History.length_cut limit s.history.done
  simp only [hstart]
  constructor
  · intro hkept
    by_contra! hno
    obtain ⟨h0, hundone, hmore⟩ := hno
    obtain ⟨cs, hcs, hlen⟩ := exists_redone (eachMade_call hm (.setLimit limit))
    have hlimit := (calls_keep (s := s.call (.setLimit limit)) hcs).1
    have hle := hkept cs hcs (by rwa [hlimit])
    have hpos := List.length_pos_iff.2 hundone
    rw [if_neg h0] at hcut
    rw [hlimit, hlen] at hle
    simp only [call, History.withLimit, History.steps, hcut] at hle hmore
    omega
  · intro hfits after hafter
    refine withinLimit_calls hafter fun h0 => ?_
    change (History.cut limit s.history.done).length + s.history.undone.length ≤ limit.toNat
    have hlimit : limit ≠ 0 := h0
    rw [hcut, if_neg hlimit]
    rcases hfits with hzero | hnil | hle
    · exact absurd hzero hlimit
    · rw [hnil]
      exact min_le_left _ _
    · exact (Nat.add_le_add_right (min_le_right _ _) _).trans hle

/-- **When a limit is kept.** The limit that a history starts with is kept until another one is set. One that is set after
any calls is kept from then on, whatever else is asked for, exactly if it is no limit, or nothing was taken back that could
be made again, or the edits made and those taken back fit into it together. -/
theorem withinLimit_iff (scene : Scene τ) (start : UInt64) :
    (∀ cs, (∀ c ∈ cs, Call.KeepsLimit c) → (Session.calls ⟨scene, .empty start⟩ cs).history.WithinLimit) ∧
    ∀ before limit,
      (∀ after, (∀ c ∈ after, Call.KeepsLimit c) →
        (Session.calls ⟨scene, .empty start⟩ (before ++ .setLimit limit :: after)).history.WithinLimit) ↔
      limit = 0 ∨ (Session.calls ⟨scene, .empty start⟩ before).history.undone = [] ∨
        (Session.calls ⟨scene, .empty start⟩ before).history.steps ≤ limit.toNat := by
  refine ⟨fun cs hcs => withinLimit_calls hcs fun _ => Nat.zero_le _, fun before limit => ?_⟩
  have hnone : EachMade τ (History.empty start) := fun e he => by cases he
  rw [← withinLimit_setLimit_iff (eachMade_calls (s := ⟨scene, .empty start⟩) hnone before)]
  simp only [calls_append]

end Calling

def renamedAndBack : List (Call Image) :=
  [.perform (.rename 1 "pair" "twins"), .perform (.rename 1 "twins" "couple"), .undo, .undo]

/-- two edits that were taken back fit into a limit of two, and not into a limit of one -/
theorem withinLimit_iff_renamed : let s : Session Image := ⟨⟨Tree.pair, .nothing⟩, .empty 2⟩
    (∀ after, (∀ c ∈ after, Call.KeepsLimit c) →
      (s.calls (renamedAndBack ++ .setLimit 2 :: after)).history.WithinLimit) ∧
    ¬ ∀ after, (∀ c ∈ after, Call.KeepsLimit c) →
      (s.calls (renamedAndBack ++ .setLimit 1 :: after)).history.WithinLimit := by
  intro s
  have hlimit := (withinLimit_iff (τ := Image) ⟨Tree.pair, .nothing⟩ 2).2 renamedAndBack
  rw [hlimit 2, hlimit 1]
  decide

/-- both are made again, though no more than one is to be kept -/
theorem not_withinLimit_redone :
    ¬ (Session.calls (τ := Image) ⟨⟨Tree.pair, .nothing⟩, .empty 2⟩
      (renamedAndBack ++ [.setLimit 1, .redo, .redo])).history.WithinLimit := by
  unfold History.WithinLimit
  decide

end Session

end ByteAtlas
