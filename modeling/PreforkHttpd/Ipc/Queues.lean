import PreforkHttpd.Transition.PartialRun
import PreforkHttpd.Dispatch.Transient
import Mathlib.Data.Fintype.Pi

/-!
# Removing the message queues at the end

`http_ipc.h` keeps the identifiers of three message queues in the global array `arr`. `create_queue`
opens the queues and fills the array, one entry after the other, and `destroy_queue`, which the
handlers of `SIGINT` and `SIGQUIT` call before they exit, asks for the removal of all three.

Two things keep the handlers from removing what was created. `start` installs them and never calls
`create_queue`, so `arr` is still as the loader left it, and the number `0` that it holds is a valid
identifier, that of the first queue of the system. And the removals do not stand on their own:
`remove_message` passes a failure to `check`, which exits, so no removal is asked for after one that
has failed.

The process is followed through any number of calls of `create_queue`, statement by statement, since
a signal can arrive between any two of them, while other programs open and remove queues. A run that
calls `create_queue` nowhere, as every run of `start` does, leaves the array alone (`Idle`). Its
handlers ask for the removal of the queue `0`, whosever it is (`eq_zero_of_mem_handler`), though
nothing was created. Nor do calls of `create_queue` help for **all** outcomes of the removals, and
`not_removesOwn` says both. What is achieved is the case of three new queues and no failure
(`removesOwn_of_createQueue`).
-/

open LabelledRun

namespace PreforkHttpd

/-! ### The code -/

/-- A message queue of the system. -/
structure MsgQueue where
  key : ℤ
  id : ℤ
deriving DecidableEq

/-- Where the process is: in `start`, or in `create_queue`, about to open the queue for an entry of
`arr`, or with its identifier in `qid`. -/
inductive Place
  | start
  | opening (i : Fin 3)
  | storing (i : Fin 3) (qid : ℤ)
  | exited
deriving DecidableEq

/-- The queues of the system, and the process: the array `arr`, where it is, and the identifiers of
the queues that it has created. -/
structure Queues where
  present : List MsgQueue
  arr : Fin 3 → ℤ
  place : Place
  created : List ℤ
deriving DecidableEq

/-- What can happen. -/
inductive QueueAction
  /-- A statement of `start`, or of a function it calls. None of them is about queues. -/
  | statement
  /-- A call of `create_queue`. -/
  | createQueue
  /-- `open_queue`, `open_queue2` or `open_queue3`, with the answers of `ftok` and `msgget`. -/
  | openQueue (key id : Option ℤ)
  /-- `arr[i] = qid`. -/
  | store
  /-- Other programs open and remove queues. -/
  | others (present : List MsgQueue)
deriving DecidableEq

namespace Queues

/-- `msgget(key, IPC_CREAT | 0666)`, when it returns `id`: this is the queue with the key, or a new
one. -/
def msgget (key id : ℤ) (s : Queues) : Option Queues :=
  match s.present.find? (·.key = key) with
  | some q => if q.id = id then some s else none
  | none =>
    if ∃ q ∈ s.present, q.id = id then none
    else some { s with present := ⟨key, id⟩ :: s.present, created := id :: s.created }

/-- `open_queue` for the entry `i`, and its two siblings. A failure of `ftok` or of `msgget` is
passed to `check`. -/
def openQueue (i : Fin 3) (key id : Option ℤ) (s : Queues) : Option Queues :=
  match key, id with
  | some key, some id => (s.msgget key id).map fun s' ↦ { s' with place := .storing i id }
  | _, _ => some { s with place := .exited }

/-- One step. -/
def step (s : Queues) : QueueAction → Option Queues
  | .statement => if s.place = .start then some s else none
  | .createQueue => if s.place = .start then some { s with place := .opening 0 } else none
  | .openQueue key id =>
    match s.place with
    | .opening i => s.openQueue i key id
    | _ => none
  | .store =>
    match s.place with
    | .storing i qid => some
        { s with
          arr := Function.update s.arr i qid
          place := if i = 2 then .start else .opening (i + 1) }
    | _ => none
  | .others present => some { s with present := present }

/-- The process when `start` has installed the handlers: a global array is zero at first. -/
def initial (present : List MsgQueue) : Queues where
  present := present
  arr := fun _ ↦ 0
  place := .start
  created := []

end Queues

/-- `remove_message`, by the outcome of its call of `msgctl`. A failure is passed to `check`, which
exits with status `0`. -/
def removeMessage (outcome : Option Errno) : Wrapped ℤ :=
  match outcome with
  | none => .returned 0
  | some _ => .exited 0

/-- The loop of `destroy_queue` over the listed entries: the identifiers it calls `msgctl` with. -/
def destroyEntries (arr : Fin 3 → ℤ) (outcome : Fin 3 → Option Errno) : List (Fin 3) → List ℤ
  | [] => []
  | i :: is =>
    arr i ::
      match removeMessage (outcome i) with
      | .returned _ => destroyEntries arr outcome is
      | .exited _ => []

/-- `destroy_queue`. -/
def destroyQueue (arr : Fin 3 → ℤ) (outcome : Fin 3 → Option Errno) : List ℤ :=
  destroyEntries arr outcome [0, 1, 2]

/-- `sig_int_kill`: the removals it requests before it exits. -/
def sigIntKill (arr : Fin 3 → ℤ) (outcome : Fin 3 → Option Errno) : List ℤ :=
  destroyQueue arr outcome

/-- `sig_quit`. -/
def sigQuit (arr : Fin 3 → ℤ) (outcome : Fin 3 → Option Errno) : List ℤ :=
  destroyQueue arr outcome

/-- The signals with a handler that removes queues. -/
inductive QuitSignal
  | sigint
  | sigquit
deriving DecidableEq

/-- The handler that `start` installs. -/
def QuitSignal.handler : QuitSignal → (Fin 3 → ℤ) → (Fin 3 → Option Errno) → List ℤ
  | .sigint => sigIntKill
  | .sigquit => sigQuit

namespace Queues

/-- **The handler removes what was created**: it requests the removal of every queue that the
process has created, once, and of no other, when the removals come to `outcome`. -/
def RemovesOwn (s : Queues) (signal : QuitSignal) (outcome : Fin 3 → Option Errno) : Prop :=
  (signal.handler s.arr outcome).Nodup ∧
    ∀ q, q ∈ signal.handler s.arr outcome ↔ q ∈ s.created

/-! ### What the handlers request -/

variable {s s' : Queues} {arr : Fin 3 → ℤ} {outcome : Fin 3 → Option Errno} {signal : QuitSignal}

theorem handler_eq (signal : QuitSignal) (arr : Fin 3 → ℤ) (outcome : Fin 3 → Option Errno) :
    signal.handler arr outcome = destroyQueue arr outcome := by
  cases signal <;> rfl

/-- **The first request is always made**, -/
theorem arr_zero_mem_handler : arr 0 ∈ signal.handler arr outcome := by
  rw [handler_eq]
  exact List.mem_cons_self

/-- it is the only one when it fails, -/
theorem handler_of_failed (e : Errno) (h : outcome 0 = some e) :
    signal.handler arr outcome = [arr 0] := by
  rw [handler_eq, destroyQueue, destroyEntries, h]
  rfl

/-- and without a failure all three are made. -/
theorem handler_of_removed (h : ∀ i, outcome i = none) :
    signal.handler arr outcome = [arr 0, arr 1, arr 2] := by
  rw [handler_eq, destroyQueue, destroyEntries, destroyEntries, destroyEntries, destroyEntries,
    h, h, h]
  rfl

/-- What is requested is in the array. -/
theorem mem_destroyEntries {q : ℤ} {is : List (Fin 3)} (h : q ∈ destroyEntries arr outcome is) :
    ∃ i, q = arr i := by
  induction is with
  | nil => cases h
  | cons i is ih =>
    rw [destroyEntries] at h
    rcases List.mem_cons.1 h with rfl | h
    · exact ⟨i, rfl⟩
    · cases hcall : removeMessage (outcome i) with
      | returned r =>
        rw [hcall] at h
        exact ih h
      | exited status =>
        rw [hcall] at h
        cases h

/-- **No state is right for all outcomes**: what was created would have to be one queue and three.
-/
theorem not_forall_removesOwn (s : Queues) (signal : QuitSignal) :
    ¬ ∀ outcome, s.RemovesOwn signal outcome := by
  intro h
  obtain ⟨hnodup, hall⟩ := h fun _ ↦ none
  obtain ⟨-, hone⟩ := h fun _ ↦ some .eintr
  rw [handler_of_removed fun _ ↦ rfl] at hnodup hall
  rw [handler_of_failed .eintr rfl] at hone
  have hsecond : s.arr 1 ∈ [s.arr 0] := (hone _).2 ((hall _).1 (by simp))
  rw [List.mem_singleton] at hsecond
  simp [hsecond] at hnodup

/-! ### Runs -/

/-- What is kept without `create_queue`: the process is in `start` and has created nothing, and
`arr` is as it was at first. -/
structure Idle (s : Queues) : Prop where
  place_eq : s.place = .start
  arr_eq : ∀ i, s.arr i = 0
  created_eq : s.created = []

theorem Idle.step {a : QueueAction} (hs : s.Idle) (ha : a ≠ .createQueue)
    (h : s.step a = some s') : s'.Idle := by
  cases a with
  | statement =>
    rw [Queues.step, if_pos hs.place_eq] at h
    exact Option.some.inj h ▸ hs
  | createQueue => exact absurd rfl ha
  | openQueue key id => simp [Queues.step, hs.place_eq] at h
  | store => simp [Queues.step, hs.place_eq] at h
  | others present =>
    obtain rfl := Option.some.inj h
    exact ⟨hs.place_eq, hs.arr_eq, hs.created_eq⟩

/-- **A run of `start` leaves the array alone.** -/
theorem idle_of_runFrom {present : List MsgQueue} {acts : List QueueAction}
    (hrun : runFrom step (initial present) acts = some s) (hacts : .createQueue ∉ acts) :
    s.Idle := by
  have halong : Along step (fun _ a ↦ a ≠ .createQueue) (initial present) acts :=
    (along_iff_forall hrun).2 fun a ha heq ↦ hacts (heq ▸ ha)
  exact invariant_of_along Idle.step hrun halong ⟨rfl, fun _ ↦ rfl, rfl⟩

/-- **A run of `start` is interrupted**: the only queue whose removal is requested is the one with
the identifier `0`, whoever has created it. -/
theorem eq_zero_of_mem_handler {present : List MsgQueue} {acts : List QueueAction} {q : ℤ}
    (hrun : runFrom step (initial present) acts = some s) (hacts : .createQueue ∉ acts)
    (hq : q ∈ signal.handler s.arr outcome) : q = 0 := by
  rw [handler_eq] at hq
  obtain ⟨i, rfl⟩ := mem_destroyEntries hq
  exact (idle_of_runFrom hrun hacts).arr_eq i

/-- Where nothing was created, the handler requests something else. -/
theorem not_removesOwn_of_idle (hs : s.Idle) : ¬ s.RemovesOwn signal outcome := by
  rintro ⟨-, hall⟩
  have hmem := (hall _).1 arr_zero_mem_handler
  rw [hs.created_eq] at hmem
  cases hmem

/-- **The handlers never remove what was created, and only that**: not in a run of `start`, which
has no call of `create_queue`, whatever the removals come to; and in no run for all outcomes of the
removals. -/
theorem not_removesOwn {present : List MsgQueue} {acts : List QueueAction} {s : Queues}
    (hrun : runFrom step (initial present) acts = some s) (signal : QuitSignal) :
    (.createQueue ∉ acts → ∀ outcome, ¬ s.RemovesOwn signal outcome) ∧
      ¬ ∀ outcome, s.RemovesOwn signal outcome :=
  ⟨fun hacts _ ↦ not_removesOwn_of_idle (idle_of_runFrom hrun hacts),
    s.not_forall_removesOwn signal⟩

/-- A run of `start` during which another program opens a queue, and the removal of it fails. -/
theorem not_removesOwn_others :
    runFrom step (initial []) [.statement, .others [⟨7, 0⟩], .statement] =
      some ⟨[⟨7, 0⟩], fun _ ↦ 0, .start, []⟩ ∧
      ¬ Queues.RemovesOwn ⟨[⟨7, 0⟩], fun _ ↦ 0, .start, []⟩ .sigquit fun _ ↦ some .eintr := by
  have hrun : runFrom step (initial []) [.statement, .others [⟨7, 0⟩], .statement] =
    some ⟨[⟨7, 0⟩], fun _ ↦ 0, .start, []⟩ := rfl
  exact ⟨hrun, (not_removesOwn hrun .sigquit).1 (by decide) _⟩

/-- The first removal takes the queue, and then there is none (`EINVAL`). -/
def removedOnce (i : Fin 3) : Option Errno := if i = 0 then none else some (.other 22)

/-- `start` is interrupted with another program's queue in the system, the first one: the handler
removes it, though the process has created nothing, and asks for its removal again. -/
theorem not_removesOwn_first_queue :
    runFrom step (initial [⟨7, 0⟩]) [.statement] = some (initial [⟨7, 0⟩]) ∧
      QuitSignal.sigint.handler (initial [⟨7, 0⟩]).arr removedOnce = [0, 0] ∧
      (initial [⟨7, 0⟩]).created = [] ∧
      ¬ (initial [⟨7, 0⟩]).RemovesOwn .sigint removedOnce := by
  have hhandler : QuitSignal.sigint.handler (initial [⟨7, 0⟩]).arr removedOnce = [0, 0] := rfl
  refine ⟨rfl, hhandler, rfl, fun h ↦ ?_⟩
  exact absurd h.1 (by rw [hhandler]; decide)

/-! ### With `create_queue` -/

/-- No queue of the system has the key or the identifier. -/
def Unused (present : List MsgQueue) (key id : ℤ) : Prop :=
  ∀ q ∈ present, q.key ≠ key ∧ q.id ≠ id

theorem msgget_of_unused {key id : ℤ} (h : Unused s.present key id) :
    s.msgget key id =
      some { s with present := ⟨key, id⟩ :: s.present, created := id :: s.created } := by
  have hkey : s.present.find? (·.key = key) = none :=
    List.find?_eq_none.2 fun q hq ↦ by simpa using (h q hq).1
  have hid : ¬ ∃ q ∈ s.present, q.id = id := fun ⟨q, hq, heq⟩ ↦ (h q hq).2 heq
  rw [msgget, hkey]
  exact if_neg hid

/-- One entry of `arr` is filled, with a new queue. -/
theorem runFrom_openQueue_store (arr : Fin 3 → ℤ) (i : Fin 3) {key id : ℤ}
    {present : List MsgQueue} (created : List ℤ) (h : Unused present key id) :
    runFrom step ⟨present, arr, .opening i, created⟩ [.openQueue key id, .store] =
      some ⟨⟨key, id⟩ :: present, Function.update arr i id,
        if i = 2 then .start else .opening (i + 1), id :: created⟩ := by
  have hopen : (Queues.mk present arr (.opening i) created).step (.openQueue key id) =
      some ⟨⟨key, id⟩ :: present, arr, .storing i id, id :: created⟩ :=
    congrArg (Option.map _) (msgget_of_unused h)
  rw [runFrom_cons, hopen]
  rfl

/-- **What the functions achieve**: when `create_queue` has opened three new queues and no removal
fails, the handlers remove these. -/
theorem removesOwn_of_createQueue {present : List MsgQueue} {key id : Fin 3 → ℤ}
    (hkey : key.Injective) (hid : id.Injective)
    (hnew : ∀ i, Unused present (key i) (id i)) (signal : QuitSignal)
    (houtcome : ∀ i, outcome i = none) :
    ∃ s, runFrom step (initial present)
        ([.createQueue] ++ [.openQueue (key 0) (id 0), .store] ++
          [.openQueue (key 1) (id 1), .store] ++ [.openQueue (key 2) (id 2), .store]) = some s ∧
      s.RemovesOwn signal outcome := by
  -- the queues that `create_queue` has opened so far are not in the way of the next one
  have hcons : ∀ (i j : Fin 3) {qs : List MsgQueue}, i ≠ j → Unused qs (key j) (id j) →
      Unused (⟨key i, id i⟩ :: qs) (key j) (id j) := fun _ _ _ hij hqs ↦
    List.forall_mem_cons.2 ⟨⟨hkey.ne hij, hid.ne hij⟩, hqs⟩
  have hfirst := runFrom_openQueue_store (fun _ ↦ 0) 0 [] (hnew 0)
  have hsecond := runFrom_openQueue_store (Function.update (fun _ ↦ 0) 0 (id 0)) 1 [id 0]
    (hcons 0 1 (by decide) (hnew 1))
  have hthird := runFrom_openQueue_store
    (Function.update (Function.update (fun _ ↦ 0) 0 (id 0)) 1 (id 1)) 2 [id 1, id 0]
    (hcons 1 2 (by decide) (hcons 0 2 (by decide) (hnew 2)))
  refine ⟨_, runFrom_append_eq_some_iff.2 ⟨_, runFrom_append_eq_some_iff.2
    ⟨_, runFrom_append_eq_some_iff.2 ⟨_, rfl, hfirst⟩, hsecond⟩, hthird⟩, ?_⟩
  have hne : ∀ {i j : Fin 3}, i ≠ j → id i ≠ id j := hid.ne
  rw [RemovesOwn, handler_of_removed houtcome]
  simp [hne, Function.update, or_comm, or_assoc]

end Queues

end PreforkHttpd
