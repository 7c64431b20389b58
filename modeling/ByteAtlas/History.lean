/-
The history of edits: those made, which can be taken back, and those taken back, which can be made again. An edit that
is refused leaves no trace.
-/
import ByteAtlas.Edit.Apply

namespace ByteAtlas

/-- edits made and edits taken back, the newest first in both, and how many of the former are kept -/
structure History where
  done : List Edit
  undone : List Edit
  /-- zero keeps everything -/
  limit : UInt64

namespace History

/-- edits that are kept unless told otherwise -/
def standardLimit : UInt64 := 512

def empty (limit : UInt64) : History := ⟨[], [], limit⟩

/-- drops the oldest edits past the limit -/
def cut (limit : UInt64) (done : List Edit) : List Edit := if limit = 0 then done else done.take limit.toNat

theorem cut_subset (limit : UInt64) (done : List Edit) : cut limit done ⊆ done := by
  unfold cut
  split
  · exact List.Subset.refl _
  · exact List.take_subset _ _

theorem length_cut (limit : UInt64) (done : List Edit) :
    (cut limit done).length = if limit = 0 then done.length else min limit.toNat done.length := by
  unfold cut
  split
  · rfl
  · exact List.length_take

def withLimit (h : History) (limit : UInt64) : History := { h with limit, done := cut limit h.done }

/-- the history with an edit that has just been made; what was taken back before can no longer be made again -/
def record (h : History) (e : Edit) : History := { h with done := cut h.limit (e :: h.done), undone := [] }

def clear (h : History) : History := { h with done := [], undone := [] }

def newest (h : History) : Option Edit := h.done.head?

end History

structure Session (τ : Type) where
  scene : Scene τ
  history : History

namespace Session

variable {τ : Type} [Transport τ]

def perform (s : Session τ) (e : Edit) : Outcome (Session τ) Unit :=
  match e.apply s.scene with
  | (.ok (), scene) => (.ok (), ⟨scene, s.history.record e⟩)
  | (.error err, scene) => (.error err, { s with scene })

/-- takes the newest edit back; tells whether there was one -/
def undo (s : Session τ) : Outcome (Session τ) Bool :=
  match s.history.done with
  | [] => (.ok false, s)
  | e :: done =>
    match e.retract s.scene with
    | (.ok (), scene) => (.ok true, ⟨scene, { s.history with done, undone := e :: s.history.undone }⟩)
    | (.error err, scene) => (.error err, { s with scene })

/-- makes the edit again that was taken back last; tells whether there was one -/
def redo (s : Session τ) : Outcome (Session τ) Bool :=
  match s.history.undone with
  | [] => (.ok false, s)
  | e :: undone =>
    match e.apply s.scene with
    | (.ok (), scene) => (.ok true, ⟨scene, { s.history with done := e :: s.history.done, undone }⟩)
    | (.error err, scene) => (.error err, { s with scene })

end Session

end ByteAtlas
