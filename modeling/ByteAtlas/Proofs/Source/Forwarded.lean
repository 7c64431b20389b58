/-
Calls of memory behind a transport against the transport alone. A call is either answered without the transport, or it comes
to one request; what the caller is told is then what the transport replies, and a failure if there is no reply.

- `Transport.replies`: what a transport replies to requests one after the other. It may die on any of them; from then on there
  are no replies.
- `Source.Call.way`: whether a call is answered alone or comes to a request.
- `Source.tell_alone`, `Source.tell_asked`: one call.
- `Source.remote_after`, `Source.tells_remote`, `Source.getElem?_tells_of_died`: a run of calls, in terms of the transport.
-/
import ByteAtlas.Proofs.Source.Calls

namespace ByteAtlas

variable {τ : Type} [Transport τ]

/-! ## What a transport replies -/

namespace Transport

inductive Request where
  | size
  | read (address : UInt64) (n : ℕ)
  | write (address : UInt64) (new : Bytes)
  | symbol (address : UInt64)
  deriving DecidableEq, Repr

inductive Reply where
  | size (n : UInt64)
  | read (bytes : Option Bytes)
  | write (done : Bool)
  | symbol (name : Option String)
  deriving DecidableEq, Repr

/-- the reply to a request and the transport afterwards, nothing if it dies on it; bytes are read only if they fill the memory
that there is for them -/
def serve (t : τ) : Request → Option (Reply × τ)
  | .size => (Transport.size t).map fun o => (.size o.1, o.2)
  | .read address n => (Transport.read t address n).map fun o => (.read (o.1.filter fun bs => bs.length == n), o.2)
  | .write address new => (Transport.write t address new).map fun o => (.write o.1, o.2)
  | .symbol address => (Transport.symbol t address).map fun o => (.symbol o.1, o.2)

/-- what is replied to requests one after the other: to the one that the transport dies on and to all behind it, nothing -/
def replies (t : τ) : List Request → List (Option Reply)
  | [] => []
  | q :: qs =>
    match serve t q with
    | some (a, t) => some a :: replies t qs
    | none => List.replicate (qs.length + 1) none

/-- the transport after requests, if it is alive and lives through all of them -/
def after (alive : Option τ) (qs : List Request) : Option τ :=
  qs.foldl (fun alive q => (alive.bind (serve · q)).map Prod.snd) alive

@[simp] theorem after_nil (alive : Option τ) : after alive [] = alive := rfl

@[simp] theorem after_cons (alive : Option τ) (q : Request) (qs : List Request) :
    after alive (q :: qs) = after ((alive.bind (serve · q)).map Prod.snd) qs := rfl

theorem after_append (alive : Option τ) (qs qs' : List Request) : after alive (qs ++ qs') = after (after alive qs) qs' :=
  List.foldl_append

/-- a dead transport stays dead -/
@[simp] theorem after_none (qs : List Request) : after (none : Option τ) qs = none := by
  induction qs with
  | nil => rfl
  | cons q qs ih => exact ih

/-- a reply is missing exactly if the transport has died -/
theorem none_mem_replies_iff (t : τ) (qs : List Request) : none ∈ replies t qs ↔ after (some t) qs = none := by
  induction qs generalizing t with
  | nil => simp [replies]
  | cons q qs ih =>
    rw [replies, after_cons, Option.bind_some]
    cases hserve : serve t q with
    | none => simp [List.replicate_succ]
    | some o => simp [ih o.2]

end Transport

open Transport

/-! ## What a caller is told -/

namespace Source

namespace Call

/-- what a call comes to: an answer without the transport, or a request. Nothing is always read; without leave to write no
write is made, and with it nothing is always written. -/
def way (writable : Bool) : Call → Told ⊕ Request
  | .size => .inr .size
  | .read address memory => if memory.isEmpty then .inl (.read true memory) else .inr (.read address memory.length)
  | .write address new =>
    if !writable then .inl (.write false) else if new.isEmpty then .inl (.write true) else .inr (.write address new)
  | .symbol address => .inr (.symbol address)
  | .rebase _ => .inl .rebase

/-- what the caller is told if there is no reply; its memory is as it was -/
def failed : Call → Told
  | .size => .size 0
  | .read _ memory => .read false memory
  | .write _ _ => .write false
  | .symbol _ => .symbol none
  | .rebase _ => .rebase

/-- what the caller is told of a reply, if there is one -/
def told : Call → Option Reply → Told
  | .size, some (.size n) => .size n
  | .read _ _, some (.read (some bs)) => .read true bs
  | .write _ _, some (.write done) => .write done
  | .symbol _, some (.symbol name) => .symbol name
  | call, _ => call.failed

def requests (writable : Bool) (calls : List Call) : List Request := calls.filterMap fun call => (call.way writable).getRight?

/-- what the callers are told in a run, where the replies go to those whose calls came to requests, in order -/
def handOut (writable : Bool) : List Call → List (Option Reply) → List Told
  | [], _ => []
  | call :: calls, replies =>
    match call.way writable with
    | .inl told => told :: handOut writable calls replies
    | .inr _ => call.told replies.head?.join :: handOut writable calls replies.tail

section Way

variable {call : Call} {told : Told} {q : Request} {writable : Bool}

theorem requests_alone (h : call.way writable = .inl told) (calls : List Call) :
    requests writable (call :: calls) = requests writable calls := by
  simp [requests, h]

theorem requests_asked (h : call.way writable = .inr q) (calls : List Call) :
    requests writable (call :: calls) = q :: requests writable calls := by
  simp [requests, h]

theorem requests_append (writable : Bool) (calls calls' : List Call) :
    requests writable (calls ++ calls') = requests writable calls ++ requests writable calls' := List.filterMap_append

theorem handOut_alone (h : call.way writable = .inl told) (calls : List Call) (replies : List (Option Reply)) :
    handOut writable (call :: calls) replies = told :: handOut writable calls replies := by
  simp [handOut, h]

theorem handOut_asked (h : call.way writable = .inr q) (calls : List Call) (a : Option Reply)
    (replies : List (Option Reply)) :
    handOut writable (call :: calls) (a :: replies) = call.told a :: handOut writable calls replies := by
  simp [handOut, h]

end Way

@[simp] theorem told_none (call : Call) : call.told none = call.failed := by cases call <;> rfl

end Call

open Call

variable {r : Remote τ} {t : τ} {call : Call} {told : Told} {q : Request} {writable : Bool}

/-! ## One call -/

omit [Transport τ] in
/-- a request is put to the transport if that is alive -/
theorem call_eq {α : Type} (r : Remote τ) (request : τ → Option (α × τ)) :
    r.call request =
      ((r.transport.bind request).map Prod.fst, { r with transport := (r.transport.bind request).map Prod.snd }) := by
  unfold Remote.call
  cases r.transport.bind request <;> rfl

/-- a call that is answered alone leaves the transport alone -/
theorem tell_alone (r : Remote τ) (h : call.way r.connection.writable = .inl told) :
    ∃ base, (remote r).tell call = (told, remote { r with base }) := by
  cases call with
  | size => cases h
  | symbol address => cases h
  | rebase base => exact ⟨base, congrArg (·, _) (Sum.inl.inj h)⟩
  | read address memory =>
    refine ⟨r.base, ?_⟩
    by_cases hempty : memory = []
    · subst hempty
      obtain rfl := Sum.inl.inj h
      rfl
    · simp [way, hempty] at h
  | write address new =>
    refine ⟨r.base, ?_⟩
    by_cases hwritable : r.connection.writable
    · by_cases hempty : new = []
      · simp only [way, hwritable, hempty] at h
        simpa [tell, Source.write, Remote.write, hwritable, hempty] using h
      · simp [way, hwritable, hempty] at h
    · simp only [way, hwritable] at h
      simpa [tell, Source.write, Remote.write, hwritable] using h

/-- a call that comes to a request puts it to the transport, and the caller is told of the reply -/
theorem tell_asked (r : Remote τ) (h : call.way r.connection.writable = .inr q) :
    (remote r).tell call = (call.told ((r.transport.bind (serve · q)).map Prod.fst),
      remote { r with transport := (r.transport.bind (serve · q)).map Prod.snd }) := by
  cases call with
  | size =>
    obtain rfl := Sum.inr.inj h
    have hserve : r.transport.bind (serve · .size) =
      (r.transport.bind Transport.size).map fun o => (.size o.1, o.2) := Option.map_bind.symm
    simp only [tell, Source.size, Remote.size, call_eq, hserve]
    cases r.transport.bind Transport.size <;> rfl
  | symbol address =>
    obtain rfl := Sum.inr.inj h
    have hserve : r.transport.bind (serve · (.symbol address)) =
      (r.transport.bind (Transport.symbol · address)).map fun o => (.symbol o.1, o.2) := Option.map_bind.symm
    simp only [tell, Source.symbol, Remote.symbol, call_eq, hserve]
    cases r.transport.bind (Transport.symbol · address) <;> rfl
  | rebase base => cases h
  | read address memory =>
    by_cases hempty : memory = []
    · simp [way, hempty] at h
    · obtain rfl : .read address memory.length = q := by simpa [way, hempty] using h
      have hserve : r.transport.bind (serve · (.read address memory.length)) =
        (r.transport.bind (Transport.read · address memory.length)).map fun o =>
          (.read (o.1.filter fun bs => bs.length == memory.length), o.2) := Option.map_bind.symm
      have hne : memory.length ≠ 0 := by simpa using hempty
      simp only [tell, readInto_eq, Source.read, Remote.read, if_neg hne, call_eq, hserve]
      cases r.transport.bind (Transport.read · address memory.length) with
      | none => rfl
      | some o =>
        obtain ⟨bs, t⟩ := o
        simp only [Option.map_some, Option.bind_some, id_eq]
        cases bs.filter fun bs => bs.length == memory.length <;> rfl
  | write address new =>
    by_cases hwritable : r.connection.writable
    · by_cases hempty : new = []
      · simp [way, hwritable, hempty] at h
      · obtain rfl : .write address new = q := by simpa [way, hwritable, hempty] using h
        have hserve : r.transport.bind (serve · (.write address new)) =
          (r.transport.bind (Transport.write · address new)).map fun o => (.write o.1, o.2) := Option.map_bind.symm
        simp only [tell, Source.write, Remote.write, hwritable, Bool.not_true, List.isEmpty_iff, hempty, call_eq, hserve]
        cases r.transport.bind (Transport.write · address new) <;> rfl
    · simp [way, hwritable] at h

/-! ## A run of calls -/

/-- **A run puts its requests to the transport, and no others.** -/
theorem remote_after (r : Remote τ) (calls : List Call) :
    ∃ base, (remote r).after calls =
      remote { r with base, transport := Transport.after r.transport (requests r.connection.writable calls) } := by
  induction calls generalizing r with
  | nil => exact ⟨r.base, rfl⟩
  | cons call calls ih =>
    cases hway : call.way r.connection.writable with
    | inl told =>
      obtain ⟨base, htell⟩ := tell_alone r hway
      obtain ⟨base', hafter⟩ := ih { r with base }
      refine ⟨base', ?_⟩
      rw [after_cons, htell, hafter, requests_alone hway]
    | inr q =>
      obtain ⟨base, hafter⟩ := ih { r with transport := (r.transport.bind (serve · q)).map Prod.snd }
      refine ⟨base, ?_⟩
      rw [after_cons, tell_asked r hway, hafter, requests_asked hway, Transport.after_cons]

/-- **Behind a dead transport every request fails.** -/
theorem tells_dead (r : Remote τ) (hdead : r.transport = none) (calls : List Call) :
    (remote r).tells calls = handOut r.connection.writable calls
      (List.replicate (requests r.connection.writable calls).length none) := by
  induction calls generalizing r with
  | nil => rfl
  | cons call calls ih =>
    cases hway : call.way r.connection.writable with
    | inl told =>
      obtain ⟨base, htell⟩ := tell_alone r hway
      rw [tells_cons, htell, ih { r with base } hdead, requests_alone hway, handOut_alone hway]
    | inr q =>
      rw [tells_cons, tell_asked r hway, hdead, Option.bind_none, requests_asked hway, List.length_cons,
        List.replicate_succ, handOut_asked hway]
      exact congrArg _ (ih { r with transport := none } rfl)

/-- **A run hands out what the transport replies.** -/
theorem tells_remote (r : Remote τ) (hlive : r.transport = some t) (calls : List Call) :
    (remote r).tells calls = handOut r.connection.writable calls (replies t (requests r.connection.writable calls)) := by
  induction calls generalizing r t with
  | nil => rfl
  | cons call calls ih =>
    cases hway : call.way r.connection.writable with
    | inl told =>
      obtain ⟨base, htell⟩ := tell_alone r hway
      rw [tells_cons, htell, ih { r with base } hlive, requests_alone hway, handOut_alone hway]
    | inr q =>
      rw [tells_cons, tell_asked r hway, hlive, Option.bind_some, requests_asked hway, replies]
      cases hserve : serve t q with
      | none =>
        -- the transport dies on this request: it fails, and so do all behind it
        rw [tells_dead _ rfl, List.replicate_succ, handOut_asked hway]
        rfl
      | some o =>
        obtain ⟨a, t'⟩ := o
        exact (congrArg _ (ih { r with transport := some t' } rfl)).trans (handOut_asked hway _ _ _).symm

/-- the `k`-th caller is told what it would be told after the calls before -/
theorem getElem?_tells (s : Source τ) (calls : List Call) (k : ℕ) :
    (s.tells calls)[k]? = calls[k]?.map fun call => ((s.after (calls.take k)).tell call).1 := by
  induction calls generalizing s k with
  | nil => rfl
  | cons call calls ih =>
    cases k with
    | zero => rfl
    | succ k => exact ih _ k

/-- **Once the transport has died on a request, that one and all later ones fail.** -/
theorem getElem?_tells_of_died (r : Remote τ) {calls : List Call} {k : ℕ} (hcall : calls[k]? = some call)
    (hway : call.way r.connection.writable = .inr q)
    (hdied : Transport.after r.transport (requests r.connection.writable (calls.take (k + 1))) = none) :
    ((remote r).tells calls)[k]? = some call.failed := by
  have htake : calls.take (k + 1) = calls.take k ++ [call] := by rw [List.take_add_one, hcall, Option.toList_some]
  obtain ⟨base, hafter⟩ := remote_after r (calls.take k)
  generalize halive : Transport.after r.transport (requests r.connection.writable (calls.take k)) = alive at hafter
  rw [htake, requests_append, Transport.after_append, halive, requests_asked hway, Transport.after_cons] at hdied
  have hnone : alive.bind (serve · q) = none := Option.map_eq_none_iff.1 hdied
  have htell := tell_asked { r with base, transport := alive } hway
  rw [getElem?_tells, hcall, Option.map_some, hafter, htell, hnone, Option.map_none, told_none]

end Source

end ByteAtlas
