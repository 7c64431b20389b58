/-
Calls of a source, one after the other. A caller that reads hands over memory of its own, and gets as many bytes as that has
room for, or its memory back as it was.

- `Source.tell`: what a caller is told on one call, and the source that is left.
- `Source.after`, `Source.tells`: a run of calls.
- `Source.readInto_eq`: a read that succeeds fills the memory, and one that fails leaves it alone.
-/
import ByteAtlas.Proofs.Source.Buffer

namespace ByteAtlas

variable {τ : Type} [Transport τ]

namespace Source

inductive Call where
  | size
  | read (address : UInt64) (memory : Bytes)
  | write (address : UInt64) (new : Bytes)
  | symbol (address : UInt64)
  | rebase (base : UInt64)
  deriving DecidableEq, Repr

inductive Told where
  | size (n : UInt64)
  | read (done : Bool) (memory : Bytes)
  | write (done : Bool)
  | symbol (name : Option String)
  | rebase
  deriving DecidableEq, Repr

/-- what a caller is told, and the source that is left -/
def tell (s : Source τ) : Call → Told × Source τ
  | .size => let (n, s) := s.size; (.size n, s)
  | .read address memory => let ((done, memory), s) := s.readInto address memory; (.read done memory, s)
  | .write address new => let (done, s) := s.write address new; (.write done, s)
  | .symbol address => let (name, s) := s.symbol address; (.symbol name, s)
  | .rebase base => (.rebase, s.rebase base)

def after (s : Source τ) (calls : List Call) : Source τ := calls.foldl (fun s call => (s.tell call).2) s

def tells : Source τ → List Call → List Told
  | _, [] => []
  | s, call :: calls => (s.tell call).1 :: tells (s.tell call).2 calls

@[simp] theorem after_nil (s : Source τ) : s.after [] = s := rfl

@[simp] theorem after_cons (s : Source τ) (call : Call) (calls : List Call) :
    s.after (call :: calls) = (s.tell call).2.after calls := rfl

@[simp] theorem tells_nil (s : Source τ) : s.tells [] = [] := rfl

@[simp] theorem tells_cons (s : Source τ) (call : Call) (calls : List Call) :
    s.tells (call :: calls) = (s.tell call).1 :: (s.tell call).2.tells calls := rfl

/-! ## Reading into memory of the caller -/

/-- bytes that are read are as many as were asked for -/
theorem length_read {s : Source τ} {address : UInt64} {n : Nat} {bs : Bytes} (h : (s.read address n).1 = some bs) :
    bs.length = n := by
  cases s with
  | nothing =>
    simp only [Source.read] at h
    split_ifs at h with hn
    obtain rfl := Option.some.inj h
    exact hn.symm
  | buffer b => exact Buffer.length_read h
  | remote r =>
    simp only [Source.read, Remote.read] at h
    split_ifs at h with hn
    · obtain rfl := Option.some.inj h
      exact hn.symm
    · simpa using (Option.filter_eq_some_iff.1 h).2

/-- **A read fills the memory of the caller, or leaves it as it was.** -/
theorem readInto_eq (s : Source τ) (address : UInt64) (memory : Bytes) :
    s.readInto address memory =
      (((s.read address memory.length).1.isSome, (s.read address memory.length).1.getD memory),
        (s.read address memory.length).2) := by
  unfold readInto
  cases hread : s.read address memory.length with
  | mk bs s' =>
    cases bs with
    | none => rfl
    | some bs =>
      have hlength : bs.length = memory.length := length_read (congrArg Prod.fst hread)
      simp [Bytes.patch, hlength]

end Source

end ByteAtlas
