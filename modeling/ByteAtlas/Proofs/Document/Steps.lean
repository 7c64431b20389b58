/-
What a user can do to a document: ask for something, and go back and forth in the history. The steps of the history are
taken apart here one by one. Each either is refused, and then the history stays, or moves an edit from one of its lists to
the other.
-/
import ByteAtlas.Proofs.Document.Requests

namespace ByteAtlas.Document

variable {τ : Type} [Transport τ] {d : Document τ} {e : Edit} {es : List Edit} {s : Scene τ} {err : EditError}

theorem perform_of_ok (h : e.apply d.scene = (.ok (), s)) :
    d.perform e = (.ok (), { d with session := ⟨s, d.history.record e⟩ }) := by
  rw [scene] at h
  simp only [perform, Session.perform, h, history]

theorem perform_of_error (h : e.apply d.scene = (.error err, s)) :
    d.perform e = (.error err, { d with session := ⟨s, d.history⟩ }) := by
  rw [scene] at h
  simp only [perform, Session.perform, h, history]

theorem undo_of_nil (h : d.history.done = []) : d.undo = (.ok false, d) := by
  rw [history] at h
  simp only [undo, Session.undo, h]

theorem undo_of_ok (hd : d.history.done = e :: es) (h : e.retract d.scene = (.ok (), s)) :
    d.undo = (.ok true,
      { d with session := ⟨s, { d.history with done := es, undone := e :: d.history.undone }⟩ }) := by
  rw [history] at hd
  rw [scene] at h
  simp only [undo, Session.undo, hd, h, history]

theorem undo_of_error (hd : d.history.done = e :: es) (h : e.retract d.scene = (.error err, s)) :
    d.undo = (.error err, { d with session := ⟨s, d.history⟩ }) := by
  rw [history] at hd
  rw [scene] at h
  simp only [undo, Session.undo, hd, h, history]

theorem redo_of_nil (h : d.history.undone = []) : d.redo = (.ok false, d) := by
  rw [history] at h
  simp only [redo, Session.redo, h]

theorem redo_of_ok (hd : d.history.undone = e :: es) (h : e.apply d.scene = (.ok (), s)) :
    d.redo = (.ok true,
      { d with session := ⟨s, { d.history with done := e :: d.history.done, undone := es }⟩ }) := by
  rw [history] at hd
  rw [scene] at h
  simp only [redo, Session.redo, hd, h, history]

theorem redo_of_error (hd : d.history.undone = e :: es) (h : e.apply d.scene = (.error err, s)) :
    d.redo = (.error err, { d with session := ⟨s, d.history⟩ }) := by
  rw [history] at hd
  rw [scene] at h
  simp only [redo, Session.redo, hd, h, history]

inductive Action where
  | ask (r : Request)
  | undo
  | redo

def act (d : Document τ) : Action → Document τ
  | .ask r => d.after r
  | .undo => d.undo.2
  | .redo => d.redo.2

end ByteAtlas.Document
