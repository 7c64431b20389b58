/-
Stores that keep what is saved in them: whatever block is saved under a key is what the key loads next. Both stores of the
library do, the one in memory and the one in the files of a directory, unless they refuse the block.

- `Files.read_of_write`: what is written to a file is read from it. Where a file is depends on the directories alone, and
  writing makes none.
- `MemoryStore.retains`, `DirectoryStore.retains`: the two stores.
-/
import Mathlib
import ByteAtlas.Settings.Store

namespace ByteAtlas

/-- whatever is saved under a key is what is loaded next -/
def SettingsStore.Retains (σ : Type) [SettingsStore σ] : Prop :=
  ∀ (s s' : σ) (key : String) (bs : Bytes), SettingsStore.save s key bs = .ok s' → SettingsStore.load s' key = .ok bs

/-! ## In memory -/

theorem MemoryStore.retains : SettingsStore.Retains MemoryStore := by
  intro m m' key bs hsave
  change MemoryStore.save m key bs = .ok m' at hsave
  change MemoryStore.load m' key = .ok bs
  unfold MemoryStore.save at hsave
  split at hsave
  · cases hsave
  · next hno =>
    obtain rfl := Except.ok.inj hsave
    simp [MemoryStore.load, hno]

/-! ## In files -/

namespace Files

variable {fs gs : Files}

/-- a step to a directory that is there does not depend on files -/
theorem step_of_ok (hd : gs.directories = fs.directories) {d e : Nat} {s : Path.Step} (h : fs.step d s = .ok e) :
    gs.step d s = .ok e := by
  cases s with
  | stay => exact h
  | up =>
    have hholder : gs.holder? d = fs.holder? d := by cases d <;> simp [holder?, hd]
    rw [step, hholder]
    exact h
  | into name =>
    have hat : gs.directoryAt? ⟨d, name⟩ = fs.directoryAt? ⟨d, name⟩ := by rw [directoryAt?, directoryAt?, hd]
    rw [step] at h ⊢
    rw [hat]
    cases hn : fs.directoryAt? ⟨d, name⟩ with
    | some n => simpa [hn] using h
    | none =>
      simp only [hn] at h
      split_ifs at h

theorem walk_of_ok (hd : gs.directories = fs.directories) {steps : List Path.Step} {d e : Nat}
    (h : steps.foldlM fs.step d = .ok e) : steps.foldlM gs.step d = .ok e := by
  induction steps generalizing d with
  | nil => exact h
  | cons s rest ih =>
    rw [List.foldlM_cons] at h ⊢
    cases hs : fs.step d s with
    | error _ => simp [hs, bind, Except.bind] at h
    | ok m =>
      rw [step_of_ok hd hs]
      rw [hs] at h
      exact ih h

/-- the file at the end of a last step into something -/
theorem place_of_into {s name : String} {steps : List Path.Step} {d : Nat} (hs : Path.steps s = .ok steps)
    (hw : fs.walk steps.dropLast = .ok d) (hl : steps.getLast? = some (.into name)) :
    fs.place s = if Path.endsInSlash s || !Path.fits name || (fs.directoryAt? ⟨d, name⟩).isSome then .error .refused
      else .ok ⟨d, name⟩ := by
  rw [place, hs]
  simp only [bind, Except.bind, hw, hl]
  split <;> rfl

/-- a text names a file if its last step is one from a directory that is there into something that can be a file -/
theorem exists_of_place {s : String} {p : Place} (h : fs.place s = .ok p) :
    ∃ steps, Path.steps s = .ok steps ∧ fs.walk steps.dropLast = .ok p.directory ∧
      steps.getLast? = some (.into p.name) := by
  have hplace := h
  unfold place at h
  cases hs : Path.steps s with
  | error e => simp [hs, bind, Except.bind] at h
  | ok steps =>
    cases hw : fs.walk steps.dropLast with
    | error e => simp [hs, hw, bind, Except.bind] at h
    | ok d =>
      cases hl : steps.getLast? with
      | none => simp [hs, hw, hl, bind, Except.bind, throw, throwThe, MonadExceptOf.throw] at h
      | some last =>
        cases last with
        | stay | up => simp [hs, hw, hl, bind, Except.bind, throw, throwThe, MonadExceptOf.throw] at h
        | into name =>
          rw [place_of_into hs hw hl] at hplace
          split_ifs at hplace
          obtain rfl := Except.ok.inj hplace
          exact ⟨steps, rfl, hw, hl⟩

/-- where a file is depends on the directories alone -/
theorem place_of_ok (hd : gs.directories = fs.directories) {s : String} {p : Place} (h : fs.place s = .ok p) :
    gs.place s = .ok p := by
  obtain ⟨steps, hs, hw, hl⟩ := exists_of_place h
  have hat : gs.directoryAt? p = fs.directoryAt? p := by rw [directoryAt?, directoryAt?, hd]
  rw [place_of_into hs hw hl] at h
  rw [place_of_into hs (walk_of_ok hd hw) hl, hat]
  exact h

/-- **What is written to a file is read from it.** -/
theorem read_of_write {s : String} {bs : Bytes} (h : fs.write s bs = .ok gs) : gs.read s = .ok bs := by
  unfold write at h
  cases hp : fs.place s with
  | error e => simp [hp, bind, Except.bind] at h
  | ok p =>
    rw [hp] at h
    have hd : gs.directories = fs.directories := by
      rw [← Except.ok.inj h]
    have hc : gs.contents = (p, bs) :: fs.contents.filter fun f => f.1 != p := by
      rw [← Except.ok.inj h]
    rw [read, place_of_ok hd hp]
    simp only [bind, Except.bind, hc, List.lookup_cons_self]
    rfl

end Files

/-! ## In a directory -/

theorem DirectoryStore.retains : SettingsStore.Retains DirectoryStore := by
  intro d d' key bs hsave
  change DirectoryStore.save d key bs = .ok d' at hsave
  change DirectoryStore.load d' key = .ok bs
  unfold DirectoryStore.save at hsave
  cases hpath : d.fileOf key with
  | error e => simp [hpath] at hsave
  | ok path =>
    cases hdirs : d.files.makeDirectories d.base with
    | error e => simp [hpath, hdirs, Except.bind] at hsave
    | ok fs =>
      cases hfiles : fs.write path bs with
      | error e => simp [hpath, hdirs, hfiles, Except.bind] at hsave
      | ok gs =>
        simp only [hpath, hdirs, hfiles, Except.bind, Except.ok.injEq] at hsave
        subst hsave
        -- the file of a key is told by the base alone
        have hsame : DirectoryStore.fileOf { d with files := gs } key = .ok path := hpath
        rw [DirectoryStore.load, hsame]
        simp only [Files.read_of_write hfiles]

end ByteAtlas
