/-
Calls of memory behind a transport as an exchange of messages. A worker owns the transport. Callers put requests in its
queue, each with the channel on which its caller waits for one reply. A worker whose transport dies drops the channel of that
request, and then the queue with all channels in it.

- `Exchange.Step`: what the worker does. It may do it while a caller waits, or between calls.
- `Exchange.Tells`: what callers are told in a run of calls, by all that the worker may do meanwhile.
- `Exchange.Idle.sent_cases`, `Exchange.Idle.exists_received`: while a caller waits, its request is untouched or done, and it
  gets done.
- `Exchange.tells_iff`: every run tells the callers the same, and there is a run.
- `Source.tells_start`: what callers of memory behind a transport are told, by the transport alone and by the exchange.
-/
import ByteAtlas.Proofs.Source.Forwarded
import ByteAtlas.Source.Image
import Mathlib.Logic.Relation

namespace ByteAtlas

open Transport

/-- the channel on which a caller waits for one reply; it is closed if no reply can come any more -/
inductive Slot where
  | waiting
  | replied (a : Reply)
  | closed
  deriving DecidableEq, Repr

/-- what the caller receives, as soon as there is something to receive -/
def Slot.received : Slot → Option (Option Reply)
  | waiting => none
  | replied a => some (some a)
  | closed => some none

/-- a worker with its queue, and the channels of all requests so far -/
structure Exchange (τ : Type) where
  /-- the transport, as long as the worker runs -/
  worker : Option τ
  /-- whether the queue takes requests -/
  isOpen : Bool
  /-- requests that wait, each with the number of its channel -/
  queue : List (Request × ℕ)
  slots : List Slot

namespace Exchange

variable {τ : Type}

def opened (t : τ) : Exchange τ := ⟨some t, true, [], []⟩

/-- the exchange after a caller has put a request in the queue -/
def send (e : Exchange τ) (q : Request) : Exchange τ :=
  { e with queue := e.queue ++ [(q, e.slots.length)], slots := e.slots ++ [.waiting] }

/-- what the caller on a channel receives, as soon as there is something to receive -/
def received (e : Exchange τ) (k : ℕ) : Option (Option Reply) := e.slots[k]?.bind Slot.received

@[simp] theorem received_set (worker : Option τ) (isOpen : Bool) (queue : List (Request × ℕ)) (slots : List Slot)
    (slot : Slot) :
    received ⟨worker, isOpen, queue, (slots ++ [Slot.waiting]).set slots.length slot⟩ slots.length = slot.received := by
  simp [received]

/-- the channels after a queue is dropped -/
def dropped (queue : List (Request × ℕ)) (slots : List Slot) : List Slot :=
  queue.foldl (fun slots waiting => slots.set waiting.2 .closed) slots

variable [Transport τ]

/-- what the worker does next -/
inductive Step : Exchange τ → Exchange τ → Prop where
  /-- it replies to the first request of the queue -/
  | serve {t t' : τ} {q a k isOpen queue slots} (hserve : serve t q = some (a, t')) :
    Step ⟨some t, isOpen, (q, k) :: queue, slots⟩ ⟨some t', isOpen, queue, slots.set k (.replied a)⟩
  /-- it dies on the first request of the queue -/
  | die {t : τ} {q k isOpen queue slots} (hserve : serve t q = none) :
    Step ⟨some t, isOpen, (q, k) :: queue, slots⟩ ⟨none, isOpen, queue, slots.set k .closed⟩
  /-- it drops the queue after it died -/
  | close {queue slots} : Step ⟨none, true, queue, slots⟩ ⟨none, false, [], dropped queue slots⟩

/-- what the worker may have done after a while -/
def Steps (e e' : Exchange τ) : Prop := Relation.ReflTransGen Step e e'

/-- what the callers may be told in a run of calls -/
inductive Tells (writable : Bool) : Exchange τ → List Source.Call → List Source.Told → Prop where
  | nil {e} : Tells writable e [] []
  /-- the worker does something between calls -/
  | step {e e' calls told} (hstep : Step e e') (hrest : Tells writable e' calls told) : Tells writable e calls told
  /-- a call is answered without a request -/
  | alone {e calls told call answer} (hway : call.way writable = .inl answer) (hrest : Tells writable e calls told) :
    Tells writable e (call :: calls) (answer :: told)
  /-- the queue does not take the request -/
  | refused {e calls told call q} (hway : call.way writable = .inr q) (hopen : e.isOpen = false)
    (hrest : Tells writable e calls told) : Tells writable e (call :: calls) (call.told none :: told)
  /-- the caller waits until there is something to receive -/
  | answered {e e' calls told call q a} (hway : call.way writable = .inr q) (hopen : e.isOpen = true)
    (hsteps : Steps (e.send q) e') (hreceived : e'.received e.slots.length = some a)
    (hrest : Tells writable e' calls told) : Tells writable e (call :: calls) (call.told a :: told)

/-! ## A worker at rest -/

/-- nothing waits in the queue, and a worker that runs takes requests -/
structure Idle (e : Exchange τ) (alive : Option τ) : Prop where
  worker : e.worker = alive
  queue : e.queue = []
  isOpen : alive.isSome → e.isOpen = true

variable {e e' : Exchange τ} {alive : Option τ} {q : Request}

omit [Transport τ] in
theorem idle_opened (t : τ) : Idle (opened t) (some t) := ⟨rfl, rfl, fun _ => rfl⟩

/-- a worker at rest stays at rest, and nothing else is received -/
theorem Idle.step (h : Idle e alive) (hstep : Step e e') : Idle e' alive ∧ e'.slots = e.slots := by
  cases hstep with
  | serve hserve => exact absurd h.queue (List.cons_ne_nil _ _)
  | die hserve => exact absurd h.queue (List.cons_ne_nil _ _)
  | close =>
    obtain rfl := h.worker
    obtain rfl := h.queue
    exact ⟨⟨rfl, rfl, nofun⟩, rfl⟩

omit [Transport τ] in
/-- only a worker that has died refuses requests -/
theorem Idle.dead_of_refused (h : Idle e alive) (hopen : e.isOpen = false) : alive = none := by
  by_contra halive
  simp [h.isOpen (Option.isSome_iff_ne_none.2 halive)] at hopen

/-- the state in which a request is done: the transport is what the request leaves, and its reply is there -/
structure Done (alive : Option τ) (q : Request) (k : ℕ) (e : Exchange τ) : Prop where
  idle : Idle e ((alive.bind (serve · q)).map Prod.snd)
  received : e.received k = some ((alive.bind (serve · q)).map Prod.fst)

/-- the first thing that the worker does with a request ends it -/
theorem Idle.sent_step (h : Idle e alive) (hopen : e.isOpen = true) (hstep : Step (e.send q) e') :
    Done alive q e.slots.length e' := by
  obtain ⟨worker, isOpen, queue, slots⟩ := e
  obtain rfl : worker = alive := h.worker
  obtain rfl : queue = [] := h.queue
  obtain rfl : isOpen = true := hopen
  cases hstep with
  | serve hserve =>
    refine ⟨?_, ?_⟩
    · rw [Option.bind_some, hserve]
      exact ⟨rfl, rfl, fun _ => rfl⟩
    · rw [received_set, Option.bind_some, hserve]
      rfl
  | die hserve =>
    refine ⟨?_, ?_⟩
    · rw [Option.bind_some, hserve]
      exact ⟨rfl, rfl, nofun⟩
    · rw [received_set, Option.bind_some, hserve]
      rfl
  | close =>
    -- the request came too late: it is dropped with the queue
    exact ⟨⟨rfl, rfl, nofun⟩, received_set _ _ _ _ _⟩

/-- **While a caller waits, its request is untouched or done.** -/
theorem Idle.sent_cases (h : Idle e alive) (hopen : e.isOpen = true) (hsteps : Steps (e.send q) e') :
    e' = e.send q ∨ Done alive q e.slots.length e' := by
  induction hsteps with
  | refl => exact Or.inl rfl
  | tail _ hstep ih =>
    right
    obtain rfl | hdone := ih
    · exact h.sent_step hopen hstep
    · obtain ⟨hidle, hslots⟩ := hdone.idle.step hstep
      exact ⟨hidle, by simpa [Exchange.received, hslots] using hdone.received⟩

/-- the worker does something with a request -/
theorem Idle.exists_step (h : Idle e alive) (hopen : e.isOpen = true) (q : Request) : ∃ e', Step (e.send q) e' := by
  obtain ⟨worker, isOpen, queue, slots⟩ := e
  obtain rfl : worker = alive := h.worker
  obtain rfl : queue = [] := h.queue
  obtain rfl : isOpen = true := hopen
  cases worker with
  | none => exact ⟨_, .close⟩
  | some t =>
    cases hserve : serve t q with
    | none => exact ⟨_, .die hserve⟩
    | some o => exact ⟨_, .serve hserve⟩

/-- **Nobody waits for ever**: whatever the worker has done since the request, it goes on until the reply is there. -/
theorem Idle.exists_received (h : Idle e alive) (hopen : e.isOpen = true) (hsteps : Steps (e.send q) e') :
    ∃ e'', Steps e' e'' ∧ Done alive q e.slots.length e'' := by
  obtain rfl | hdone := h.sent_cases hopen hsteps
  · obtain ⟨e'', hstep⟩ := h.exists_step hopen q
    exact ⟨e'', .single hstep, h.sent_step hopen hstep⟩
  · exact ⟨e', .refl, hdone⟩

/-- a caller that has received something has received the reply, and the worker is at rest -/
theorem Idle.done_of_received (h : Idle e alive) (hopen : e.isOpen = true) (hsteps : Steps (e.send q) e')
    {a : Option Reply} (hreceived : e'.received e.slots.length = some a) : Done alive q e.slots.length e' := by
  obtain rfl | hdone := h.sent_cases hopen hsteps
  · simp [Exchange.received, send, Slot.received] at hreceived
  · exact hdone

/-! ## A run of calls -/

variable {r : Remote τ} {calls : List Source.Call} {told : List Source.Told}

/-- every run tells the callers what memory behind the transport tells them -/
theorem Tells.eq_tells {writable : Bool} (h : Tells writable e calls told) (hwritable : writable = r.connection.writable)
    (hidle : Idle e r.transport) : told = (Source.remote r).tells calls := by
  induction h generalizing r with
  | nil => rfl
  | step hstep _ ih => exact ih hwritable (hidle.step hstep).1
  | alone hway _ ih =>
    obtain ⟨base, htell⟩ := Source.tell_alone r (hwritable ▸ hway)
    rw [Source.tells_cons, htell, ← ih (r := { r with base }) hwritable hidle]
  | refused hway hopen _ ih =>
    have hdead := hidle.dead_of_refused hopen
    rw [Source.tells_cons, Source.tell_asked r (hwritable ▸ hway), hdead]
    exact congrArg _ (ih (r := { r with transport := none }) hwritable (hdead ▸ hidle))
  | answered hway hopen hsteps hreceived _ ih =>
    have hdone := hidle.done_of_received hopen hsteps hreceived
    obtain rfl := Option.some.inj (hreceived.symm.trans hdone.received)
    rw [Source.tells_cons, Source.tell_asked r (hwritable ▸ hway)]
    exact congrArg _ (ih (r := { r with transport := _ }) hwritable hdone.idle)

/-- there is a run -/
theorem tells_tells (hidle : Idle e r.transport) (calls : List Source.Call) :
    Tells r.connection.writable e calls ((Source.remote r).tells calls) := by
  induction calls generalizing e r with
  | nil => exact .nil
  | cons call calls ih =>
    cases hway : call.way r.connection.writable with
    | inl answer =>
      obtain ⟨base, htell⟩ := Source.tell_alone r hway
      rw [Source.tells_cons, htell]
      exact .alone hway (ih (r := { r with base }) hidle)
    | inr q =>
      rw [Source.tells_cons, Source.tell_asked r hway]
      cases hopen : e.isOpen with
      | true =>
        obtain ⟨e', hsteps, hdone⟩ := hidle.exists_received hopen (q := q) .refl
        exact .answered hway hopen hsteps hdone.received (ih (r := { r with transport := _ }) hdone.idle)
      | false =>
        have hdead := hidle.dead_of_refused hopen
        rw [hdead]
        exact .refused hway hopen (ih (r := { r with transport := none }) (hdead ▸ hidle))

/-- **Every run of the exchange tells the callers the same, and there is a run.** -/
theorem tells_iff (hidle : Idle e r.transport) :
    Tells r.connection.writable e calls told ↔ told = (Source.remote r).tells calls := by
  refine ⟨fun h => h.eq_tells rfl hidle, fun h => ?_⟩
  rw [h]
  exact tells_tells hidle calls

end Exchange

namespace Source

open Call

variable {τ : Type} [Transport τ]

/-- **Callers of memory behind a transport are told what the transport replies.** Whoever needs it gets its replies to the
same requests in the same order; the others are answered without it, and it sees no more than those requests. From the
request on that it dies on, whoever needs it is told of a failure. An exchange of messages with a worker tells the callers the
same, in whatever way it goes. -/
theorem tells_start (c : Connection) (t : τ) (calls : List Call) :
    (remote (Remote.start c t)).tells calls = handOut c.writable calls (replies t (requests c.writable calls)) ∧
      (∃ base, (remote (Remote.start c t)).after calls =
        remote ⟨c, base, Transport.after (some t) (requests c.writable calls)⟩) ∧
      (∀ (k : ℕ) (call : Call) (q : Request), calls[k]? = some call → call.way c.writable = .inr q →
        none ∈ replies t (requests c.writable (calls.take (k + 1))) →
        ((remote (Remote.start c t)).tells calls)[k]? = some call.failed) ∧
      ∀ told, Exchange.Tells c.writable (Exchange.opened t) calls told ↔ told = (remote (Remote.start c t)).tells calls := by
  refine ⟨tells_remote _ rfl calls, remote_after _ calls, ?_, fun told => ?_⟩
  · intro k call q hcall hway hdied
    exact getElem?_tells_of_died (Remote.start c t) hcall hway ((none_mem_replies_iff t _).1 hdied)
  · exact Exchange.tells_iff (r := Remote.start c t) (Exchange.idle_opened t)

/-- memory that is deadly to touch in its middle: what needs the transport fails from there on, what does not goes on -/
theorem tells_start_deadly :
    let calls := [.read 0 [9, 9], .write 2 [1], .size, .read 2 [], .write 0 [], .write 0 [1], .read 0 [9]]
    let memory : Source Image := remote (.start ⟨"", "", true, true, 0⟩ ⟨0, [5, 6, 7, 8], [], none, some 2, false⟩)
    memory.tells calls =
        [.read true [5, 6], .write false, .size 0, .read true [], .write true, .write false, .read false [9]] ∧
      (memory.tells calls)[6]? = some (.read false [9]) := by
  intro calls memory
  obtain ⟨htells, _, hfails, _⟩ :=
    tells_start ⟨"", "", true, true, 0⟩ (⟨0, [5, 6, 7, 8], [], none, some 2, false⟩ : Image) calls
  exact ⟨htells.trans (by decide), hfails 6 (.read 0 [9]) (.read 0 1) rfl rfl (by decide)⟩

end Source

end ByteAtlas
