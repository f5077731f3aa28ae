import Mathlib.Algebra.GroupWithZero.Nat
import PreforkHttpd.Transition.Mailbox
import PreforkHttpd.Ipc.Queues

/-!
# Messages between processes

`http_ipc.h` lets processes send messages to each other through a queue of the system: `send_queue`
puts a `msg_t` in, `rcv_queue` waits for one of a type (any type for `0`, the lowest type up to
`-type` when it is negative), and `peek_message` asks whether one is there. Any number of processes
share the queue, and other programs can send to it as well, since it is open to everybody.

The three calls have their own ways with failures. `send_queue` and `rcv_queue` pass every failure
to `check`, which exits, so a process ends when the queue is removed under it, when a signal comes
in, and when the message it asks for is longer than a `msg_t`. `peek_message` offers a buffer of no
size and reads the answer off the failure: a message that does not fit is there. It works because
such a call leaves the message in the queue, and only for messages that are not empty: an empty one
fits, so `peek_message` takes it out and reports that there is none.

With no empty messages, then, the calls do what they are for in every state (`Serves`): a send into
a queue with room puts its message at the end, a receive takes the oldest message of the type it
comes to, and `peek_message` tells if there is one and takes nothing. Over a run, every message of a
type is received once and in order (`delivered_of_runFrom`), by whichever process, and what a
process receives of another one's `send_queue` is the `msg_t` that was sent, byte for byte.
-/

open LabelledRun

namespace PreforkHttpd

/-! ### The code -/

/-- `sizeof(msg_t) - sizeof(long)`: `mcontext`, `pid` and the padding behind it. -/
def textSize : ℕ := 1032

/-- `msg_t`. -/
structure MsgT where
  mtype : ℤ
  text : CArray textSize
deriving DecidableEq

/-- A message in the queue. -/
structure Message where
  mtype : ℤ
  text : List UInt8
deriving DecidableEq

/-- What `msgsnd` copies of a `msg_t`. -/
def MsgT.message (p : MsgT) : Message := ⟨p.mtype, p.text.bytes⟩

/-- The type of the message that `msgrcv` looks for. -/
def wantedType (type : ℤ) (waiting : List Message) : Option ℤ :=
  if type = 0 then waiting.head?.map Message.mtype
  else if 0 < type then some type
  else ((waiting.map Message.mtype).filter (· ≤ -type)).min?

/-- The message that `msgrcv` finds, and what is left without it. -/
def selectMessage (type : ℤ) (waiting : List Message) : Option (Message × List Message) :=
  (wantedType type waiting).bind (Mailbox.takeFirst Message.mtype · waiting)

/-- What `msgrcv` with a buffer of `size` bytes comes to. -/
inductive MsgRcv
  | received (m : Message) (rest : List Message)
  /-- `E2BIG`. -/
  | tooBig
  /-- There is no such message: `ENOMSG`, or the call waits. -/
  | nothing
deriving DecidableEq

/-- `msgrcv` without `MSG_NOERROR`: a message that is too long stays. -/
def msgrcv (size : ℕ) (type : ℤ) (waiting : List Message) : MsgRcv :=
  match selectMessage type waiting with
  | some (m, rest) => if size < m.text.length then .tooBig else .received m rest
  | none => .nothing

/-- `send_queue`: its result, and the queue after it. It waits while the queue is full. What it
returns is the outcome of a comparison, `0`, since another outcome is passed to `check`. -/
def sendQueue (capacity : ℕ) (p : MsgT) :
    Option (List Message) → Option (Wrapped ℤ × Option (List Message))
  | none => some (.exited 0, none)
  | some waiting =>
    if p.mtype ≤ 0 then some (.exited 0, some waiting)
    else if capacity < (waiting.map (·.text.length)).sum + textSize then none
    else some (.returned 0, some (waiting ++ [p.message]))

/-- `rcv_queue`: its result with `*p` after the call, and the queue. It waits while there is no
message for it. -/
def rcvQueue (p : MsgT) (type : ℤ) :
    Option (List Message) → Option (Wrapped (ℕ × MsgT) × Option (List Message))
  | none => some (.exited 0, none)
  | some waiting =>
    match msgrcv textSize type waiting with
    | .received m rest =>
      some (.returned (m.text.length, ⟨m.mtype, p.text.overlay m.text⟩), some rest)
    | .tooBig => some (.exited 0, some waiting)
    | .nothing => none

/-- `peek_message`: its result and the queue. -/
def peekMessage (type : ℤ) : Option (List Message) → ℤ × Option (List Message)
  | none => (0, none)
  | some waiting =>
    match msgrcv 0 type waiting with
    | .received _ rest => (0, some rest)
    | .tooBig => (-1, some waiting)
    | .nothing => (0, some waiting)

/-! ### Processes that share a queue -/

/-- What a process does. -/
inductive MsgCall
  | sendQueue (p : MsgT)
  | rcvQueue (p : MsgT) (type : ℤ)
  | peekMessage (type : ℤ)
  | removeMessage
  /-- A signal comes in during `msgsnd` or `msgrcv`. -/
  | interrupted
  /-- Another program sends a message of its own. -/
  | msgsnd (m : Message)
deriving DecidableEq

/-- What `rcv_queue` gave to a process. -/
structure MsgReceipt where
  receiver : ℕ
  result : ℕ
  p : MsgT
deriving DecidableEq

/-- The message that a process has received: as many bytes as `rcv_queue` says. -/
def MsgReceipt.message (r : MsgReceipt) : Message := ⟨r.p.mtype, r.p.text.bytes.take r.result⟩

/-- The queue, as long as it exists, and the processes that have exited. What was sent and received
is history. -/
structure MsgChannel where
  queue : Option (List Message)
  exited : List ℕ
  sent : List Message
  received : List MsgReceipt
deriving DecidableEq

namespace MsgChannel

/-- `create_queue` has opened the queue, and it is empty. -/
def initial : MsgChannel := ⟨some [], [], [], []⟩

/-- Process `i` exits in `check`. -/
def exit (i : ℕ) (s : MsgChannel) : MsgChannel := { s with exited := i :: s.exited }

/-- One call of one process. -/
def call (capacity : ℕ) (s : MsgChannel) (i : ℕ) : MsgCall → Option MsgChannel
  | .sendQueue p => (PreforkHttpd.sendQueue capacity p s.queue).map fun r ↦
    match r.1 with
    | .returned _ => { s with queue := r.2, sent := s.sent ++ [p.message] }
    | .exited _ => s.exit i
  | .rcvQueue p type => (PreforkHttpd.rcvQueue p type s.queue).map fun r ↦
    match r.1 with
    | .returned (result, p) => { s with queue := r.2, received := s.received ++ [⟨i, result, p⟩] }
    | .exited _ => s.exit i
  | .peekMessage type => some { s with queue := (PreforkHttpd.peekMessage type s.queue).2 }
  | .removeMessage => if s.queue.isSome then some { s with queue := none } else some (s.exit i)
  | .interrupted => some (s.exit i)
  | .msgsnd m =>
    if 0 < m.mtype then s.queue.map fun waiting ↦
      { s with queue := some (waiting ++ [m]), sent := s.sent ++ [m] }
    else none

/-- One call of a process that has not exited. -/
def step (capacity : ℕ) (s : MsgChannel) (act : ℕ × MsgCall) : Option MsgChannel :=
  if act.1 ∈ s.exited then none else s.call capacity act.1 act.2

end MsgChannel

/-! ### What the calls do to the queue -/

section

variable {type : ℤ} {waiting rest : List Message} {m : Message} {size : ℕ}

/-- The message that is found is the oldest of its type. -/
theorem takeFirst_of_selectMessage (h : selectMessage type waiting = some (m, rest)) :
    Mailbox.takeFirst Message.mtype m.mtype waiting = some (m, rest) := by
  obtain ⟨k, -, htake⟩ := Option.bind_eq_some_iff.1 h
  obtain ⟨before, after, -, hm, -, -⟩ := Mailbox.takeFirst_eq_some_iff.1 htake
  exact hm ▸ htake

theorem mem_of_selectMessage (h : selectMessage type waiting = some (m, rest)) : m ∈ waiting := by
  obtain ⟨before, after, rfl, -⟩ := Mailbox.takeFirst_eq_some_iff.1 (takeFirst_of_selectMessage h)
  exact List.mem_append_right _ List.mem_cons_self

/-- The message is one that a receive of this type is for. -/
def Message.IsFor (type : ℤ) (m : Message) : Prop :=
  type = 0 ∨ 0 < type ∧ m.mtype = type ∨ type < 0 ∧ m.mtype ≤ -type

/-- **A receive finds something** if there is a message for it. -/
theorem isSome_selectMessage_iff :
    (selectMessage type waiting).isSome ↔ ∃ m ∈ waiting, m.IsFor type := by
  rw [selectMessage, wantedType]
  rcases lt_trichotomy type 0 with hneg | rfl | hpos
  · have hfor : ∀ m : Message, m.IsFor type ↔ m.mtype ≤ -type := fun m ↦ by
      simp [Message.IsFor, hneg, hneg.ne, hneg.le]
    rw [if_neg hneg.ne, if_neg (not_lt.2 hneg.le)]
    simp only [hfor]
    cases hmin : ((waiting.map Message.mtype).filter (· ≤ -type)).min? with
    | none =>
      have hnil := List.min?_eq_none_iff.1 hmin
      rw [List.filter_eq_nil_iff] at hnil
      simpa using hnil
    | some k =>
      have hk := List.min?_mem hmin
      simp only [List.mem_filter, List.mem_map, decide_eq_true_eq] at hk
      obtain ⟨⟨m, hm, rfl⟩, hle⟩ := hk
      exact iff_of_true (Mailbox.isSome_takeFirst_iff.2 ⟨m, hm, rfl⟩) ⟨m, hm, hle⟩
  · rw [if_pos rfl]
    cases waiting with
    | nil => simp
    | cons m waiting =>
      exact iff_of_true (Mailbox.isSome_takeFirst_iff.2 ⟨m, List.mem_cons_self, rfl⟩)
        ⟨m, List.mem_cons_self, Or.inl rfl⟩
  · have hfor : ∀ m : Message, m.IsFor type ↔ m.mtype = type := fun m ↦ by
      simp [Message.IsFor, hpos, hpos.ne', hpos.le]
    rw [if_neg hpos.ne', if_pos hpos]
    simp only [hfor]
    exact Mailbox.isSome_takeFirst_iff

/-- **A message that was received** was the oldest of its type, and fitted. -/
theorem msgrcv_eq_received_iff : msgrcv size type waiting = .received m rest ↔
    selectMessage type waiting = some (m, rest) ∧ m.text.length ≤ size := by
  rw [msgrcv]
  cases hselect : selectMessage type waiting with
  | none => simp
  | some r =>
    obtain ⟨m', rest'⟩ := r
    by_cases hsize : size < m'.text.length
    · simp only [hsize, if_true, reduceCtorEq, false_iff, Option.some.injEq, Prod.mk.injEq]
      rintro ⟨⟨rfl, rfl⟩, hle⟩
      exact absurd hsize (not_lt.2 hle)
    · simp only [hsize, if_false, MsgRcv.received.injEq, Option.some.injEq, Prod.mk.injEq]
      exact ⟨fun h ↦ ⟨h, h.1 ▸ not_lt.1 hsize⟩, fun h ↦ h.1⟩

/-- **`peek_message` looks and takes nothing**, when no message is empty: it returns `-1` if a
message of the type is there, and `0` if none is. -/
theorem peekMessage_eq (hne : ∀ m ∈ waiting, m.text ≠ []) (type : ℤ) :
    peekMessage type (some waiting) =
      (if (selectMessage type waiting).isSome then -1 else 0, some waiting) := by
  rw [peekMessage, msgrcv]
  cases hselect : selectMessage type waiting with
  | none => rfl
  | some r =>
    have hpos : 0 < r.1.text.length :=
      List.length_pos_iff.2 (hne r.1 (mem_of_selectMessage hselect))
    simp only [hpos, if_true, Option.isSome_some]

/-- **The message that is selected**: the oldest of its type, and one for the receive. With type `0`
it is the first of all, and with a negative type none has a lower type. -/
theorem selectMessage_spec (h : selectMessage type waiting = some (m, rest)) :
    ∃ before after, waiting = before ++ m :: after ∧ rest = before ++ after ∧
      (∀ x ∈ before, x.mtype ≠ m.mtype) ∧ m.IsFor type ∧ (type = 0 → before = []) ∧
      (type < 0 → ∀ x ∈ waiting, m.mtype ≤ x.mtype) := by
  obtain ⟨k, hk, htake⟩ := Option.bind_eq_some_iff.1 h
  obtain ⟨before, after, hwaiting, rfl, hbefore, rfl⟩ := Mailbox.takeFirst_eq_some_iff.1 htake
  refine ⟨before, after, hwaiting, rfl, hbefore, ?_⟩
  rw [wantedType] at hk
  rcases lt_trichotomy type 0 with hneg | rfl | hpos
  · rw [if_neg hneg.ne, if_neg (not_lt.2 hneg.le), List.min?_eq_some_iff] at hk
    obtain ⟨hmem, hmin⟩ := hk
    have hle : m.mtype ≤ -type := of_decide_eq_true (List.mem_filter.1 hmem).2
    refine ⟨Or.inr (Or.inr ⟨hneg, hle⟩), fun h0 ↦ absurd h0 hneg.ne, fun _ x hx ↦ ?_⟩
    rcases le_or_gt x.mtype (-type) with hx' | hx'
    · exact hmin _ (List.mem_filter.2 ⟨List.mem_map_of_mem hx, decide_eq_true hx'⟩)
    · exact (hle.trans_lt hx').le
  · rw [if_pos rfl, hwaiting] at hk
    refine ⟨Or.inl rfl, fun _ ↦ ?_, fun hlt ↦ absurd hlt (lt_irrefl 0)⟩
    cases before with
    | nil => rfl
    | cons x before => exact absurd (Option.some.inj hk) (hbefore x List.mem_cons_self)
  · rw [if_neg hpos.ne', if_pos hpos] at hk
    exact ⟨Or.inr (Or.inl ⟨hpos, (Option.some.inj hk).symm⟩), fun h0 ↦ absurd h0 hpos.ne',
      fun hlt ↦ absurd hlt (not_lt.2 hpos.le)⟩

/-- How many bytes wait in the queue. -/
def queuedBytes (waiting : List Message) : ℕ := (waiting.map (·.text.length)).sum

/-- **The calls do what they are for** with this queue. A `send_queue` that has room returns, with
its message at the end. An `rcv_queue` waits while no message is for it; else it comes to the oldest
message of a type, the lowest one where it leaves the choice, and takes it if it fits. And
`peek_message` returns `-1` exactly when there is a message, and takes nothing. -/
structure Serves (capacity : ℕ) (waiting : List Message) : Prop where
  send : ∀ p : MsgT, 0 < p.mtype → queuedBytes waiting + textSize ≤ capacity →
    sendQueue capacity p (some waiting) = some (.returned 0, some (waiting ++ [p.message]))
  receive_eq_none : ∀ p type, (¬ ∃ m ∈ waiting, m.IsFor type) →
    rcvQueue p type (some waiting) = none
  receive : ∀ p type, (∃ m ∈ waiting, m.IsFor type) →
    ∃ before m after, waiting = before ++ m :: after ∧ (∀ x ∈ before, x.mtype ≠ m.mtype) ∧
      m.IsFor type ∧ (type = 0 → before = []) ∧ (type < 0 → ∀ x ∈ waiting, m.mtype ≤ x.mtype) ∧
      rcvQueue p type (some waiting) =
        if textSize < m.text.length then some (.exited 0, some waiting)
        else some (.returned (m.text.length, ⟨m.mtype, p.text.overlay m.text⟩),
          some (before ++ after))
  peek : ∀ type, ((peekMessage type (some waiting)).1 = -1 ↔ ∃ m ∈ waiting, m.IsFor type) ∧
    (peekMessage type (some waiting)).2 = some waiting

/-- A send that has room returns. -/
theorem sendQueue_of_room {capacity : ℕ} {p : MsgT} (hp : 0 < p.mtype)
    (hroom : queuedBytes waiting + textSize ≤ capacity) :
    sendQueue capacity p (some waiting) = some (.returned 0, some (waiting ++ [p.message])) := by
  rw [sendQueue, if_neg (not_le.2 hp)]
  exact if_neg (not_lt.2 hroom)

theorem serves_of_ne_nil (capacity : ℕ) (hne : ∀ m ∈ waiting, m.text ≠ []) :
    Serves capacity waiting where
  send _ hp hroom := sendQueue_of_room hp hroom
  receive_eq_none p type hnone := by
    rw [← isSome_selectMessage_iff, Option.not_isSome_iff_eq_none] at hnone
    rw [rcvQueue, msgrcv, hnone]
  receive p type hsome := by
    obtain ⟨⟨m, rest⟩, hselect⟩ := Option.isSome_iff_exists.1 (isSome_selectMessage_iff.2 hsome)
    obtain ⟨before, after, hwaiting, rfl, hbefore, hfor, hzero, hneg⟩ := selectMessage_spec hselect
    refine ⟨before, m, after, hwaiting, hbefore, hfor, hzero, hneg, ?_⟩
    rw [rcvQueue, msgrcv, hselect]
    by_cases hsize : textSize < m.text.length <;> simp [hsize]
  peek type := by
    rw [peekMessage_eq hne, ← isSome_selectMessage_iff]
    refine ⟨?_, rfl⟩
    by_cases hsome : (selectMessage type waiting).isSome <;> simp [hsome]

/-- A send that returns puts the message at the end. -/
theorem sendQueue_eq_returned {capacity : ℕ} {p : MsgT} {queue queue' : Option (List Message)}
    {result : ℤ} (h : sendQueue capacity p queue = some (.returned result, queue')) :
    ∃ waiting, queue = some waiting ∧ queue' = some (waiting ++ [p.message]) := by
  cases queue with
  | none => cases h
  | some waiting =>
    rw [sendQueue] at h
    split at h
    · cases h
    split at h
    · cases h
    obtain ⟨-, rfl⟩ := Prod.mk.inj (Option.some.inj h)
    exact ⟨waiting, rfl, rfl⟩

/-- **A receive that returns** took the oldest message of some type, and `*p` holds it. -/
theorem rcvQueue_eq_returned {p p' : MsgT} {queue queue' : Option (List Message)} {result : ℕ}
    (h : rcvQueue p type queue = some (.returned (result, p'), queue')) :
    ∃ waiting m rest, queue = some waiting ∧ queue' = some rest ∧
      Mailbox.takeFirst Message.mtype m.mtype waiting = some (m, rest) ∧
      result = m.text.length ∧ m.text.length ≤ textSize ∧
      p' = ⟨m.mtype, p.text.overlay m.text⟩ := by
  cases queue with
  | none => cases h
  | some waiting =>
    rw [rcvQueue] at h
    split at h
    next m rest hrcv =>
      obtain ⟨hselect, hsize⟩ := msgrcv_eq_received_iff.1 hrcv
      obtain ⟨hresult, rfl⟩ := Prod.mk.inj (Option.some.inj h)
      obtain ⟨rfl, rfl⟩ := Prod.mk.inj (Wrapped.returned.inj hresult)
      exact ⟨waiting, m, rest, rfl, rfl, takeFirst_of_selectMessage hselect, rfl, hsize, rfl⟩
    · cases h
    · cases h

end

namespace MsgChannel

variable {capacity : ℕ} {s s' t : MsgChannel} {acts : List (ℕ × MsgCall)}

/-- Other programs send no empty messages. -/
def NoEmpty : MsgCall → Prop
  | .msgsnd m => m.text ≠ []
  | _ => True

/-- What is kept by the calls: the messages of each type are received in order, and none is empty.
Once the queue is removed, the messages that waited in it are gone with it. -/
structure Ordered (s : MsgChannel) : Prop where
  delivered : ∃ waiting, Mailbox.Delivered Message.mtype s.sent (s.received.map MsgReceipt.message)
    waiting ∧ ∀ queue ∈ s.queue, queue = waiting
  nonempty : ∀ queue ∈ s.queue, ∀ m ∈ queue, m.text ≠ []
  fits : ∀ r ∈ s.received, r.result ≤ textSize

theorem ordered_initial : initial.Ordered where
  delivered := ⟨[], Mailbox.delivered_nil, fun _ h ↦ (Option.some.inj h).symm⟩
  nonempty queue h := by
    obtain rfl := Option.some.inj h
    exact List.forall_mem_nil _
  fits := nofun

/-- The bytes that a receive has stored are the message. -/
theorem message_of_rcvQueue {i : ℕ} {p : MsgT} {m : Message} (h : m.text.length ≤ textSize) :
    (MsgReceipt.mk i m.text.length ⟨m.mtype, p.text.overlay m.text⟩).message = m := by
  rw [MsgReceipt.message, CArray.bytes_overlay _ h, List.take_left]

/-- **A send** keeps the order. -/
theorem Ordered.send {m : Message} {waiting : List Message} (hs : s.Ordered)
    (hqueue : s.queue = some waiting) (hm : m.text ≠ []) :
    Ordered { s with queue := some (waiting ++ [m]), sent := s.sent ++ [m] } := by
  obtain ⟨⟨w, hw, heq⟩, hne, hfits⟩ := hs
  obtain rfl := heq waiting hqueue
  refine ⟨⟨_, hw.send m, fun queue h ↦ (Option.some.inj h).symm⟩, fun queue h ↦ ?_, hfits⟩
  obtain rfl := Option.some.inj h
  exact List.forall_mem_append.2 ⟨hne _ hqueue, List.forall_mem_singleton.2 hm⟩

theorem text_message_ne_nil (p : MsgT) : p.message.text ≠ [] := by
  refine List.ne_nil_of_length_pos ?_
  rw [MsgT.message, p.text.length_bytes]
  exact Nat.succ_pos _

/-- A `send_queue` that has room, -/
theorem step_sendQueue {i : ℕ} {p : MsgT} {waiting : List Message} (hi : i ∉ s.exited)
    (hqueue : s.queue = some waiting) (hp : 0 < p.mtype)
    (hroom : queuedBytes waiting + textSize ≤ capacity) :
    s.step capacity (i, .sendQueue p) =
      some { s with queue := some (waiting ++ [p.message]), sent := s.sent ++ [p.message] } := by
  rw [MsgChannel.step, if_neg hi, call, hqueue, sendQueue_of_room hp hroom, Option.map_some]

/-- and a `peek_message`, which changes nothing. -/
theorem step_peekMessage {i : ℕ} {type : ℤ} {waiting : List Message} (hi : i ∉ s.exited)
    (hqueue : s.queue = some waiting) (hne : ∀ m ∈ waiting, m.text ≠ []) :
    s.step capacity (i, .peekMessage type) = some s := by
  rw [MsgChannel.step, if_neg hi, call, hqueue, peekMessage_eq hne, ← hqueue]

theorem Ordered.step {act : ℕ × MsgCall} (hs : s.Ordered) (hact : NoEmpty act.2)
    (h : s.step capacity act = some s') : s'.Ordered := by
  obtain ⟨i, a⟩ := act
  obtain ⟨-, h⟩ := Option.ite_none_left_eq_some.1 h
  cases a with
  | sendQueue p =>
    obtain ⟨⟨r, queue⟩, hr, rfl⟩ := Option.map_eq_some_iff.1 h
    cases r with
    | returned result =>
      obtain ⟨waiting, hqueue, rfl⟩ := sendQueue_eq_returned hr
      exact hs.send hqueue (text_message_ne_nil p)
    | exited status => exact ⟨hs.delivered, hs.nonempty, hs.fits⟩
  | rcvQueue p type =>
    obtain ⟨⟨r, queue⟩, hr, rfl⟩ := Option.map_eq_some_iff.1 h
    cases r with
    | returned result =>
      obtain ⟨result, p'⟩ := result
      obtain ⟨waiting, m, rest, hqueue, rfl, htake, rfl, hsize, rfl⟩ := rcvQueue_eq_returned hr
      obtain ⟨⟨w, hw, heq⟩, hne, hfits⟩ := hs
      obtain rfl := heq waiting hqueue
      refine ⟨⟨rest, ?_, fun queue h ↦ (Option.some.inj h).symm⟩, fun queue h ↦ ?_,
        List.forall_mem_append.2 ⟨hfits, List.forall_mem_singleton.2 hsize⟩⟩
      · rw [List.map_append, List.map_singleton, message_of_rcvQueue hsize]
        exact hw.receive htake
      · obtain rfl := Option.some.inj h
        obtain ⟨before, after, rfl, -, -, rfl⟩ := Mailbox.takeFirst_eq_some_iff.1 htake
        obtain ⟨hbefore, hafter⟩ := List.forall_mem_append.1 (hne _ hqueue)
        exact List.forall_mem_append.2 ⟨hbefore, (List.forall_mem_cons.1 hafter).2⟩
    | exited status => exact ⟨hs.delivered, hs.nonempty, hs.fits⟩
  | peekMessage type =>
    obtain rfl := Option.some.inj h
    have hsame : (peekMessage type s.queue).2 = s.queue := by
      cases hqueue : s.queue with
      | none => rfl
      | some waiting => rw [peekMessage_eq (hs.nonempty waiting hqueue)]
    exact ⟨hsame.symm ▸ hs.delivered, hsame.symm ▸ hs.nonempty, hs.fits⟩
  | removeMessage =>
    obtain ⟨w, hw, -⟩ := hs.delivered
    rw [call] at h
    split at h <;> obtain rfl := Option.some.inj h
    · exact ⟨⟨w, hw, nofun⟩, nofun, hs.fits⟩
    · exact ⟨hs.delivered, hs.nonempty, hs.fits⟩
  | interrupted =>
    obtain rfl := Option.some.inj h
    exact ⟨hs.delivered, hs.nonempty, hs.fits⟩
  | msgsnd m =>
    obtain ⟨-, h⟩ := Option.ite_none_right_eq_some.1 h
    obtain ⟨waiting, hqueue, rfl⟩ := Option.map_eq_some_iff.1 h
    exact hs.send hqueue hact

theorem ordered_of_runFrom (hrun : runFrom (step capacity) initial acts = some s)
    (hacts : ∀ act ∈ acts, NoEmpty act.2) : s.Ordered :=
  invariant_of_along (fun hs ha h ↦ hs.step ha h) hrun ((along_iff_forall hrun).2 hacts)
    ordered_initial

/-- **A `msgrcv` of a `msg_t`** that was sent with `send_queue` gives the same `msg_t`. -/
theorem eq_of_message_eq {r : MsgReceipt} {p : MsgT} (hfits : r.result ≤ textSize)
    (h : r.message = p.message) : r.result = textSize ∧ r.p = p := by
  obtain ⟨htype, htext⟩ := Message.mk.inj h
  have hlength := congrArg List.length htext
  rw [List.length_take, r.p.text.length_bytes, p.text.length_bytes] at hlength
  have hresult : r.result = textSize := by omega
  rw [hresult, List.take_of_length_le r.p.text.length_bytes.le] at htext
  obtain ⟨i, result, ⟨mtype, text⟩⟩ := r
  obtain ⟨mtype', text'⟩ := p
  exact ⟨hresult, congrArg₂ MsgT.mk htype (CArray.ext htext)⟩

/-- The process takes no message out, and does not remove the queue. -/
def Leaves : MsgCall → Prop
  | .rcvQueue _ _ | .removeMessage => False
  | _ => True

/-- A call that takes nothing out leaves the messages for others. -/
theorem Ordered.prefix_of_step {act : ℕ × MsgCall} {waiting : List Message} (hs : s.Ordered)
    (hact : Leaves act.2) (hqueue : s.queue = some waiting) (h : s.step capacity act = some s') :
    ∃ waiting', s'.queue = some waiting' ∧ waiting <+: waiting' := by
  obtain ⟨i, a⟩ := act
  obtain ⟨-, h⟩ := Option.ite_none_left_eq_some.1 h
  cases a with
  | sendQueue p =>
    obtain ⟨⟨r, queue⟩, hr, rfl⟩ := Option.map_eq_some_iff.1 h
    cases r with
    | returned result =>
      obtain ⟨w, hw, rfl⟩ := sendQueue_eq_returned hr
      obtain rfl := Option.some.inj (hqueue.symm.trans hw)
      exact ⟨_, rfl, List.prefix_append _ _⟩
    | exited status => exact ⟨waiting, hqueue, List.prefix_rfl⟩
  | rcvQueue p type => exact hact.elim
  | peekMessage type =>
    obtain rfl := Option.some.inj h
    refine ⟨waiting, ?_, List.prefix_rfl⟩
    show (peekMessage type s.queue).2 = some waiting
    rw [hqueue, peekMessage_eq (hs.nonempty waiting hqueue)]
  | removeMessage => exact hact.elim
  | interrupted =>
    obtain rfl := Option.some.inj h
    exact ⟨waiting, hqueue, List.prefix_rfl⟩
  | msgsnd m =>
    obtain ⟨-, h⟩ := Option.ite_none_right_eq_some.1 h
    obtain ⟨w, hw, rfl⟩ := Option.map_eq_some_iff.1 h
    obtain rfl := Option.some.inj (hqueue.symm.trans hw)
    exact ⟨_, rfl, List.prefix_append _ _⟩

/-- **What `peek_message` has seen stays**, as long as nobody takes a message out or removes the
queue: a receive of the type does not have to wait. -/
theorem Ordered.isSome_rcvQueue {type : ℤ} {more : List (ℕ × MsgCall)} (hs : s.Ordered)
    (hpeek : (peekMessage type s.queue).1 = -1)
    (hmore : runFrom (MsgChannel.step capacity) s more = some t)
    (hacts : ∀ act ∈ more, NoEmpty act.2 ∧ Leaves act.2) (p : MsgT) :
    (rcvQueue p type t.queue).isSome := by
  cases hqueue : s.queue with
  | none => simp [hqueue, peekMessage] at hpeek
  | some waiting =>
    rw [hqueue, peekMessage_eq (hs.nonempty waiting hqueue)] at hpeek
    have hsome : (selectMessage type waiting).isSome := by
      by_contra hnone
      simp [hnone] at hpeek
    obtain ⟨m, hm, hfor⟩ := isSome_selectMessage_iff.1 hsome
    obtain ⟨-, w, hw, hprefix⟩ := invariant_of_along
      (fun {u act u'} (hu : u.Ordered ∧ ∃ w, u.queue = some w ∧ waiting <+: w)
          (ha : NoEmpty act.2 ∧ Leaves act.2) h ↦ by
        obtain ⟨hordered, w, hw, hprefix⟩ := hu
        obtain ⟨w', hw', hprefix'⟩ := hordered.prefix_of_step ha.2 hw h
        exact ⟨hordered.step ha.1 h, w', hw', hprefix.trans hprefix'⟩)
      hmore ((along_iff_forall hmore).2 hacts) ⟨hs, waiting, hqueue, List.prefix_rfl⟩
    obtain ⟨⟨m', rest⟩, hselect⟩ := Option.isSome_iff_exists.1
      (isSome_selectMessage_iff.2 ⟨m, hprefix.subset hm, hfor⟩)
    rw [hw, rcvQueue, msgrcv, hselect]
    by_cases hsize : textSize < m'.text.length <;> simp [hsize]

/-- **Messages arrive once, in order and unchanged.** In every run of any processes, in which other
programs send no empty messages, the messages of each type that were sent are those that processes
have received and those that wait, in the order of sending. What a process has received of a
`send_queue` is the `msg_t` that was sent. As long as there is a queue the calls do what they are
for; and a `-1` of `peek_message` stays right until somebody takes a message out or removes the
queue. -/
theorem delivered_of_runFrom (hrun : runFrom (step capacity) initial acts = some s)
    (hacts : ∀ act ∈ acts, NoEmpty act.2) :
    (∃ waiting, Mailbox.Delivered Message.mtype s.sent (s.received.map MsgReceipt.message) waiting ∧
      ∀ queue ∈ s.queue, queue = waiting) ∧
    (∀ r ∈ s.received, r.message ∈ s.sent ∧
      ∀ p : MsgT, r.message = p.message → r.result = textSize ∧ r.p = p) ∧
    (∀ queue ∈ s.queue, Serves capacity queue) ∧
    ∀ type, (peekMessage type s.queue).1 = -1 → ∀ more t,
      runFrom (step capacity) s more = some t → (∀ act ∈ more, NoEmpty act.2 ∧ Leaves act.2) →
        ∀ p, (rcvQueue p type t.queue).isSome := by
  have hs := ordered_of_runFrom hrun hacts
  refine ⟨hs.delivered, fun r hr ↦ ⟨?_, fun p ↦ eq_of_message_eq (hs.fits r hr)⟩,
    fun queue hqueue ↦ serves_of_ne_nil capacity (hs.nonempty queue hqueue),
    fun type hpeek more t hmore hmore' p ↦ hs.isSome_rcvQueue hpeek hmore hmore' p⟩
  obtain ⟨waiting, hdelivered, -⟩ := hs.delivered
  exact hdelivered.perm.mem_iff.2 (List.mem_append_left _ (List.mem_map_of_mem hr))

/-- A `msg_t` of this type, with the byte `c` all over. -/
def filled (mtype : ℤ) (c : UInt8) : MsgT := ⟨mtype, CArray.fill textSize c⟩

/-- Two processes send, and a third asks for the second message and receives it first. -/
def crossing : List (ℕ × MsgCall) :=
  [(1, .sendQueue (filled 1 7)), (2, .sendQueue (filled 2 8)), (3, .peekMessage 2),
    (3, .rcvQueue (filled 0 0) 2)]

/-- What the third process has received. -/
def crossingReceipt : MsgReceipt where
  receiver := 3
  result := (filled 2 8).message.text.length
  p := ⟨2, (filled 0 0).text.overlay (filled 2 8).message.text⟩

/-- What there is after `crossing`. -/
def crossed : MsgChannel where
  queue := some [(filled 1 7).message]
  exited := []
  sent := [(filled 1 7).message, (filled 2 8).message]
  received := [crossingReceipt]

theorem runFrom_crossing : runFrom (step 2064) initial crossing = some crossed := by
  have hlength (mtype : ℤ) (c : UInt8) : (filled mtype c).message.text.length = textSize :=
    CArray.length_bytes _
  have hroom : queuedBytes [] + textSize ≤ 2064 := by decide
  have hroom' : queuedBytes [(filled 1 7).message] + textSize ≤ 2064 := by
    simp [queuedBytes, hlength, textSize]
  have hne : ∀ m ∈ [(filled 1 7).message, (filled 2 8).message], m.text ≠ [] :=
    List.forall_mem_cons.2
      ⟨text_message_ne_nil _, List.forall_mem_singleton.2 (text_message_ne_nil _)⟩
  have hrcv : PreforkHttpd.rcvQueue (filled 0 0) 2
      (some [(filled 1 7).message, (filled 2 8).message]) =
        some (.returned (crossingReceipt.result, crossingReceipt.p),
          some [(filled 1 7).message]) := by
    have hselect : selectMessage 2 [(filled 1 7).message, (filled 2 8).message] =
      some ((filled 2 8).message, [(filled 1 7).message]) := rfl
    rw [PreforkHttpd.rcvQueue, msgrcv, hselect]
    dsimp only
    rw [if_neg (by rw [hlength]; exact lt_irrefl _)]
    rfl
  have h₁ : step 2064 initial (1, .sendQueue (filled 1 7)) =
      some ⟨some [(filled 1 7).message], [], [(filled 1 7).message], []⟩ :=
    step_sendQueue (s := initial) (p := filled 1 7) List.not_mem_nil rfl (by decide) hroom
  have h₂ : step 2064 ⟨some [(filled 1 7).message], [], [(filled 1 7).message], []⟩
      (2, .sendQueue (filled 2 8)) = some ⟨some crossed.sent, [], crossed.sent, []⟩ :=
    step_sendQueue (p := filled 2 8) List.not_mem_nil rfl (by decide) hroom'
  have h₃ : step 2064 ⟨some crossed.sent, [], crossed.sent, []⟩ (3, .peekMessage 2) =
      some ⟨some crossed.sent, [], crossed.sent, []⟩ :=
    step_peekMessage List.not_mem_nil rfl hne
  have h₄ : step 2064 ⟨some crossed.sent, [], crossed.sent, []⟩
      (3, .rcvQueue (filled 0 0) 2) = some crossed := by
    rw [step, if_neg List.not_mem_nil, call]
    exact congrArg (Option.map _) hrcv
  rw [crossing, runFrom_cons, h₁, Option.bind_some, runFrom_cons, h₂, Option.bind_some,
    runFrom_cons, h₃, Option.bind_some, runFrom_cons, h₄]
  rfl

/-- The `msg_t` of the second process has arrived at the third one, as it was sent. -/
theorem delivered_of_runFrom_crossing :
    runFrom (step 2064) initial crossing = some crossed ∧
      ∀ r ∈ crossed.received, r.message ∈ crossed.sent ∧ r.result = textSize ∧
        r.p = filled 2 8 := by
  have hacts : ∀ act ∈ crossing, NoEmpty act.2 := by simp [crossing, NoEmpty]
  obtain ⟨-, hreceived, -⟩ := delivered_of_runFrom runFrom_crossing hacts
  refine ⟨runFrom_crossing, fun r hr ↦ ⟨(hreceived r hr).1, (hreceived r hr).2 _ ?_⟩⟩
  rw [List.mem_singleton.1 hr]
  exact message_of_rcvQueue (CArray.length_bytes _).le

end MsgChannel

end PreforkHttpd
