import Mathlib.Logic.Function.Basic
import PreforkHttpd.Pool.ProcPool

/-!
# The master, the workers and the socketpair

The running server of `src/core/epoll_circle.h` after `init_manager_proc`: one **master** in the
accept loop of `start()`, `NPROC_MAX_NUM` **workers** in `jump_task_pool_obj`, and the socketpair
over which the master passes each client's descriptor. The workers are forked before the first
client is accepted and inherit no client descriptor.

A process is its program counter together with the part of its descriptor table that refers to
accepted connections. A connection is named by the order in which it was accepted; passing a
descriptor by `SCM_RIGHTS` duplicates the reference, so the message on the socketpair and the table
entry it was made from refer to it independently.

`step` takes one action of one process. The action carries whatever the operating system decides
there: which descriptor number is handed out, what a call returned, which events `epoll_wait`
reports. Any process can be killed at any point, and the calls whose wrapper ends in `unix_error`
exit when they fail.

Two points of the source fix the shape of the model.

* In `start()` the retry loop around `Sock_fd_write` calls it in its condition (`sendCond`) **and**
  in its body (`sendBody`); both put a message when they succeed, and the body's result is dropped.
* In `jump_task_pool_obj` a received descriptor is given to `Open_epoll`, that is to `do_epoll`, a
  loop without an exit. Inside it the worker waits for events and serves them; request handling
  ends in the two `close` calls of `http_module_handler_response`, the first on the local `fd`
  (whatever it holds), the second on the client's descriptor.

The history fields (`accepted`, `handed`, `sent`, `received`, `closed`) record what happened and are
read by no process. End of stream on the socketpair is not among the outcomes of a receive: every
worker holds the writing end itself.
-/

open LabelledRun

namespace PreforkHttpd

/-- A descriptor number, `-1` for none. -/
abbrev Fd := ℤ

/-- An accepted connection: the `n`th accepted client is `n`. -/
abbrev Conn := ℕ

/-- The descriptors of a process that refer to accepted connections. -/
abbrev FdTable := List (Fd × Conn)

namespace FdTable

/-- A number the kernel can hand out next. -/
def Fresh (t : FdTable) (fd : Fd) : Prop := 0 ≤ fd ∧ fd ∉ t.map Prod.fst

instance (t : FdTable) (fd : Fd) : Decidable (t.Fresh fd) :=
  inferInstanceAs (Decidable (_ ∧ _))

/-- `close(fd)`; a number that is not open is left alone (`EBADF`). -/
def close (t : FdTable) (fd : Fd) : FdTable := t.filter fun entry ↦ entry.1 ≠ fd

end FdTable

/-! ### The processes -/

/-- Where the master is in `start()`. -/
inductive MasterPc
  /-- `Epoll_wait` on the listening descriptor. -/
  | epollWait
  /-- The top of the accept loop. -/
  | accept
  /-- `Setnoblock(clientfd, O_NONBLOCK)`. -/
  | setnoblock (clientfd : Fd)
  /-- `Sock_fd_write` in the condition of the retry loop. -/
  | sendCond (clientfd : Fd)
  /-- `Sock_fd_write` in the body of the retry loop. -/
  | sendBody (clientfd : Fd)
  | exited
deriving DecidableEq

/-- The master process. -/
structure Master where
  pc : MasterPc
  table : FdTable
deriving DecidableEq

/-- What `epoll_wait` reports about one descriptor. -/
structure Event where
  fd : Fd
  /-- `EPOLLIN`. -/
  readable : Bool
  /-- `EPOLLOUT`. -/
  writable : Bool
deriving DecidableEq

/-- Where a worker is in `jump_task_pool_obj` and below. -/
inductive WorkerPc
  /-- `Sock_fd_read` in the receive loop. -/
  | sockFdRead
  /-- The opening lines of `do_epoll`. -/
  | doEpoll (clientfd : Fd)
  /-- `Epoll_wait` in the loop of `do_epoll`. -/
  | epollWait
  /-- The loop of `handle_events`, with the events still to come. -/
  | handleEvents (events : List Event)
  /-- The `fdopen` loop of `do_read`. -/
  | doRead (fd : Fd) (events : List Event)
  /-- `http_module_handler_request`, up to the `close` calls of the responder. -/
  | handlerRequest (clientfd : Fd) (events : List Event)
  /-- `close(fd)` of the responder. -/
  | closeFile (clientfd : Fd) (events : List Event)
  /-- `close(clientfd)` of the responder. -/
  | closeClient (clientfd : Fd) (events : List Event)
  /-- `do_write`. -/
  | doWrite (fd : Fd) (events : List Event)
  | exited
deriving DecidableEq

/-- A worker process. -/
structure Worker where
  pc : WorkerPc
  table : FdTable
  /-- `flag_x`: how often `do_epoll` was entered; only the first entry creates `epollfd`. -/
  flagX : ℕ
deriving DecidableEq

/-- What a worker does by itself. -/
inductive WorkerAct
  /-- The opening of `do_epoll` ends: `epollfd` exists, `listenfd` was offered to it. -/
  | doEpoll
  /-- `Epoll_wait` returned these events. -/
  | epollWait (events : List Event)
  /-- `handle_events` looks at its next event. -/
  | handleEvent
  /-- `fdopen` returned a stream, or `NULL`. -/
  | fdopen (ok : Bool)
  /-- Request handling arrives at its `close` calls. -/
  | respond
  /-- `close(fd)`, with the value that `fd` has there. -/
  | closeFile (fd : Fd)
  /-- `close(clientfd)`. -/
  | closeClient
  /-- `write` succeeded and the registration was changed, or `write` failed. -/
  | write (ok : Bool)
  /-- The process ends: a signal, `unix_error`, a crash. -/
  | exit
deriving DecidableEq

namespace Worker

/-- The process is gone, and with it its descriptors. -/
def exit (k : Worker) : Worker := { k with pc := .exited, table := [] }

/-- One action of a worker on its own state. -/
def step (k : Worker) (a : WorkerAct) : Option Worker :=
  match k.pc, a with
  | .doEpoll _, .doEpoll => some { k with pc := .epollWait, flagX := k.flagX + 1 }
  | .epollWait, .epollWait events => some { k with pc := .handleEvents events }
  | .handleEvents [], .handleEvent => some { k with pc := .epollWait }
  | .handleEvents (e :: events), .handleEvent =>
    if e.readable then some { k with pc := .doRead e.fd events }
    else if e.writable then some { k with pc := .doWrite e.fd events }
    else some { k with pc := .handleEvents events }
  | .doRead fd events, .fdopen ok =>
    if ok then some { k with pc := .handlerRequest fd events } else some k
  | .handlerRequest fd events, .respond => some { k with pc := .closeFile fd events }
  | .closeFile fd events, .closeFile file =>
    some { k with pc := .closeClient fd events, table := k.table.close file }
  | .closeClient fd events, .closeClient =>
    some { k with pc := .handleEvents events, table := k.table.close fd }
  -- after a failed write `delete_event` runs on the closed descriptor, and its wrapper exits
  | .doWrite fd events, .write ok =>
    if ok then some { k with pc := .handleEvents events }
    else some { k with table := k.table.close fd }.exit
  | .exited, .exit => none
  | _, .exit => some k.exit
  | _, _ => none

/-- The client descriptor that `close(clientfd)` of the responder is about to be called on. -/
def closing (k : Worker) : WorkerAct → List Fd
  | .closeClient => match k.pc with
    | .closeClient fd _ => [fd]
    | _ => []
  | _ => []

end Worker

/-! ### The system -/

/-- The processes, the messages in flight, and the history. -/
structure System where
  master : Master
  workers : Fin nprocMaxNum → Worker
  /-- The messages on the socketpair, the next to be received first. -/
  queue : List Conn
  /-- How many connections were accepted. -/
  accepted : ℕ
  /-- The clients whose retry loop has ended, in that order. -/
  handed : List Conn
  /-- Every message ever put on the socketpair, in that order. -/
  sent : List Conn
  /-- Which worker received which connection, under which number, in that order. -/
  received : List (Fin nprocMaxNum × Option Fd × Conn)
  /-- Which worker executed `close(clientfd)` on which number. -/
  closed : List (Fin nprocMaxNum × Fd)

/-- What the master does. -/
inductive MasterAct
  /-- `Epoll_wait` reports the listening descriptor, or `EPOLLERR`/`EPOLLHUP`. -/
  | epollWait (ready : Bool)
  /-- `accept` returned a descriptor, or failed. -/
  | accept (result : Option Fd)
  /-- The two `fcntl` calls of `Setnoblock` succeeded, or one failed. -/
  | setnoblock (ok : Bool)
  /-- `Sock_fd_write` returned `result`. -/
  | sockFdWrite (result : ℤ)
  /-- The process ends. -/
  | exit
deriving DecidableEq

/-- One action of one process. -/
inductive Act
  | master (a : MasterAct)
  /-- Worker `w` receives the next message; `fd` is the number its descriptor gets, or `none` when
  the control message is missing and `Sock_fd_read` stores `-1`. -/
  | sockFdRead (w : Fin nprocMaxNum) (fd : Option Fd)
  | worker (w : Fin nprocMaxNum) (a : WorkerAct)
deriving DecidableEq

namespace System

/-- Before the first client: every worker is at its receive loop, with nothing in flight. -/
def initial : System where
  master := { pc := .epollWait, table := [] }
  workers := fun _ ↦ { pc := .sockFdRead, table := [], flagX := 0 }
  queue := []
  accepted := 0
  handed := []
  sent := []
  received := []
  closed := []

/-- The master goes on at `pc`. -/
def goto (s : System) (pc : MasterPc) : System := { s with master := { s.master with pc := pc } }

/-- The master is gone, and with it its descriptors. -/
def exitMaster (s : System) : System := { s with master := { pc := .exited, table := [] } }

/-- A successful `sendmsg` with `clientfd`: one message referring to its connection. A number that
is not open cannot be passed. -/
def put (s : System) (clientfd : Fd) : Option (System × Conn) :=
  (s.master.table.lookup clientfd).map fun c ↦
    ({ s with queue := s.queue ++ [c], sent := s.sent ++ [c] }, c)

/-- One action of the master. -/
def stepMaster (s : System) (a : MasterAct) : Option System :=
  match s.master.pc, a with
  | .epollWait, .epollWait ready => some (if ready then s.goto .accept else s.exitMaster)
  | .accept, .accept none => some s.exitMaster
  | .accept, .accept (some fd) =>
    if s.master.table.Fresh fd then
      some { s with
        master := { pc := .setnoblock fd, table := (fd, s.accepted) :: s.master.table }
        accepted := s.accepted + 1 }
    else none
  | .setnoblock fd, .setnoblock ok => some (if ok then s.goto (.sendCond fd) else s.exitMaster)
  | .sendCond fd, .sockFdWrite result =>
    -- a message that is out ends the loop for this client
    if 0 < result then
      (s.put fd).map fun (t, c) ↦ { t.goto .accept with handed := t.handed ++ [c] }
    else some (s.goto (.sendBody fd))
  -- back to the condition, whatever came of the send
  | .sendBody fd, .sockFdWrite result =>
    if 0 < result then (s.put fd).map fun (t, _) ↦ t.goto (.sendCond fd)
    else some (s.goto (.sendCond fd))
  | .exited, .exit => none
  | _, .exit => some s.exitMaster
  | _, _ => none

/-- `Sock_fd_read` of worker `w`: it blocks while there is no message. -/
def stepRead (s : System) (w : Fin nprocMaxNum) (fd : Option Fd) : Option System :=
  match (s.workers w).pc, s.queue with
  | .sockFdRead, c :: queue =>
    if ∀ n ∈ fd, (s.workers w).table.Fresh n then
      some { s with
        workers := Function.update s.workers w
          { s.workers w with
            pc := .doEpoll (fd.getD (-1))
            table := (fd.map (·, c)).toList ++ (s.workers w).table }
        queue := queue
        received := s.received ++ [(w, fd, c)] }
    else none
  | _, _ => none

/-- One action of worker `w` on its own state. -/
def stepWorker (s : System) (w : Fin nprocMaxNum) (a : WorkerAct) : Option System :=
  ((s.workers w).step a).map fun k ↦
    { s with
      workers := Function.update s.workers w k
      closed := s.closed ++ ((s.workers w).closing a).map (w, ·) }

/-- One action of one process. -/
def step (s : System) : Act → Option System
  | .master a => s.stepMaster a
  | .sockFdRead w fd => s.stepRead w fd
  | .worker w a => s.stepWorker w a

/-! ### What a step does -/

/-- The moves of the master, one constructor for each. -/
inductive MasterStep (s : System) : MasterAct → System → Prop
  | ready (hpc : s.master.pc = .epollWait) : MasterStep s (.epollWait true) (s.goto .accept)
  | accept {fd : Fd} (hpc : s.master.pc = .accept) (hfresh : s.master.table.Fresh fd) :
    MasterStep s (.accept (some fd))
      { s with
        master := { pc := .setnoblock fd, table := (fd, s.accepted) :: s.master.table }
        accepted := s.accepted + 1 }
  | setnoblock {fd : Fd} (hpc : s.master.pc = .setnoblock fd) :
    MasterStep s (.setnoblock true) (s.goto (.sendCond fd))
  | condSent {fd : Fd} {result : ℤ} {c : Conn} (hpc : s.master.pc = .sendCond fd)
    (hresult : 0 < result) (hc : s.master.table.lookup fd = some c) :
    MasterStep s (.sockFdWrite result)
      { s.goto .accept with
        queue := s.queue ++ [c]
        sent := s.sent ++ [c]
        handed := s.handed ++ [c] }
  | condFailed {fd : Fd} {result : ℤ} (hpc : s.master.pc = .sendCond fd) (hresult : result ≤ 0) :
    MasterStep s (.sockFdWrite result) (s.goto (.sendBody fd))
  | bodySent {fd : Fd} {result : ℤ} {c : Conn} (hpc : s.master.pc = .sendBody fd)
    (hresult : 0 < result) (hc : s.master.table.lookup fd = some c) :
    MasterStep s (.sockFdWrite result)
      { s.goto (.sendCond fd) with queue := s.queue ++ [c], sent := s.sent ++ [c] }
  | bodyFailed {fd : Fd} {result : ℤ} (hpc : s.master.pc = .sendBody fd) (hresult : result ≤ 0) :
    MasterStep s (.sockFdWrite result) (s.goto (.sendCond fd))
  | notReady : MasterStep s (.epollWait false) s.exitMaster
  | acceptFailed : MasterStep s (.accept none) s.exitMaster
  | setnoblockFailed : MasterStep s (.setnoblock false) s.exitMaster
  | exit : MasterStep s .exit s.exitMaster

variable {s s' : System} {w : Fin nprocMaxNum}

theorem put_eq_some_iff {fd : Fd} {t : System} {c : Conn} :
    s.put fd = some (t, c) ↔ s.master.table.lookup fd = some c ∧
      t = { s with queue := s.queue ++ [c], sent := s.sent ++ [c] } := by
  rw [put, Option.map_eq_some_iff]
  constructor
  · rintro ⟨c', hc', h⟩
    obtain ⟨rfl, rfl⟩ := Prod.mk.inj h
    exact ⟨hc', rfl⟩
  · rintro ⟨hc, rfl⟩
    exact ⟨c, hc, rfl⟩

/-- **Every step of the master is one of its moves.** -/
theorem masterStep_of_stepMaster {a : MasterAct} (h : s.stepMaster a = some s') :
    MasterStep s a s' := by
  unfold stepMaster at h
  split at h
  next ready hpc =>
    obtain rfl := Option.some.inj h
    cases ready with
    | true => exact .ready hpc
    | false => exact .notReady
  next hpc =>
    obtain rfl := Option.some.inj h
    exact .acceptFailed
  next fd hpc =>
    split at h
    next hfresh =>
      obtain rfl := Option.some.inj h
      exact .accept hpc hfresh
    next => cases h
  next fd ok hpc =>
    obtain rfl := Option.some.inj h
    cases ok with
    | true => exact .setnoblock hpc
    | false => exact .setnoblockFailed
  next fd result hpc =>
    split at h
    next hresult =>
      obtain ⟨⟨t, c⟩, hput, rfl⟩ := Option.map_eq_some_iff.1 h
      obtain ⟨hc, rfl⟩ := put_eq_some_iff.1 hput
      exact .condSent hpc hresult hc
    next hresult =>
      obtain rfl := Option.some.inj h
      exact .condFailed hpc (not_lt.1 hresult)
  next fd result hpc =>
    split at h
    next hresult =>
      obtain ⟨⟨t, c⟩, hput, rfl⟩ := Option.map_eq_some_iff.1 h
      obtain ⟨hc, rfl⟩ := put_eq_some_iff.1 hput
      exact .bodySent hpc hresult hc
    next hresult =>
      obtain rfl := Option.some.inj h
      exact .bodyFailed hpc (not_lt.1 hresult)
  next => cases h
  next =>
    obtain rfl := Option.some.inj h
    exact .exit
  next => cases h

/-- **A receive** takes the oldest message and leaves the worker inside `do_epoll`. -/
theorem stepRead_cases {fd : Option Fd} (h : s.stepRead w fd = some s') :
    ∃ c queue, (s.workers w).pc = .sockFdRead ∧ s.queue = c :: queue ∧
      s' = { s with
        workers := Function.update s.workers w
          { s.workers w with
            pc := .doEpoll (fd.getD (-1))
            table := (fd.map (·, c)).toList ++ (s.workers w).table }
        queue := queue
        received := s.received ++ [(w, fd, c)] } := by
  unfold stepRead at h
  split at h
  next c queue hpc hqueue =>
    split at h
    next => exact ⟨c, queue, hpc, hqueue, (Option.some.inj h).symm⟩
    next => cases h
  next => cases h

/-- **A worker's own step** touches nothing but that worker and the record of closed clients. -/
theorem stepWorker_cases {a : WorkerAct} (h : s.stepWorker w a = some s') :
    ∃ k, (s.workers w).step a = some k ∧
      s' = { s with
        workers := Function.update s.workers w k
        closed := s.closed ++ ((s.workers w).closing a).map (w, ·) } := by
  obtain ⟨k, hk, rfl⟩ := Option.map_eq_some_iff.1 h
  exact ⟨k, hk, rfl⟩

/-! ### Which workers a step touches -/

/-- The worker that receives enters `do_epoll`, -/
theorem pc_of_stepRead {fd : Option Fd} (h : s.stepRead w fd = some s') :
    (s'.workers w).pc = .doEpoll (fd.getD (-1)) := by
  obtain ⟨c, queue, -, -, rfl⟩ := stepRead_cases h
  show (Function.update s.workers w _ w).pc = _
  rw [Function.update_self]

/-- and leaves the other workers alone. -/
theorem workers_of_stepRead {fd : Option Fd} {v : Fin nprocMaxNum} (h : s.stepRead w fd = some s')
    (hv : v ≠ w) : s'.workers v = s.workers v := by
  obtain ⟨c, queue, -, -, rfl⟩ := stepRead_cases h
  exact Function.update_of_ne hv _ _

/-- A worker's own step is its step, -/
theorem step_of_stepWorker {a : WorkerAct} (h : s.stepWorker w a = some s') :
    (s.workers w).step a = some (s'.workers w) := by
  obtain ⟨k, hk, rfl⟩ := stepWorker_cases h
  exact hk.trans (congrArg some (Function.update_self w k s.workers).symm)

/-- and leaves the other workers alone. -/
theorem workers_of_stepWorker {a : WorkerAct} {v : Fin nprocMaxNum}
    (h : s.stepWorker w a = some s') (hv : v ≠ w) : s'.workers v = s.workers v := by
  obtain ⟨k, -, rfl⟩ := stepWorker_cases h
  exact Function.update_of_ne hv _ _

end System

end PreforkHttpd
