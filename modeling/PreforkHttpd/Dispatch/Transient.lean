import PreforkHttpd.Dispatch.HandOff
import PreforkHttpd.Dispatch.Stranding
import PreforkHttpd.Http.Calls

/-!
# When transient failures are survived

Some failures of a system call say nothing about the server: a signal arrives during the call, a
client is gone before it is accepted, the descriptors run out for a moment. The server has code that
is ready for them — `jump_task_pool_obj` goes on with its loop when `errno` is `EINTR`, and the test
server of the HTTP module calls `Accept` again for as long as it fails — but two levels are involved
in every call, and it is the wrapper that sees the failure first. `Accept` passes it to
`unix_error`, which exits with status `0`; `Sock_fd_read` exits with status `1`. Neither looks at
`errno`, and the retry in the caller is never reached (`sockFdRead_ne_failed`).

Here the two calls are taken at the level of the system calls, with the wrappers between them and
the rest of the system, which is that of `PreforkHttpd.Dispatch.System`. A run **survives** when
both kinds of process are alive at its end, everything accepted and passed has been handled, and
leaving out the failed calls would have changed nothing. `survived_iff` is exact: a run whose only
failures are transient ones is survived if and only if it has no failures.
-/

open LabelledRun

namespace PreforkHttpd

/-- `ECONNABORTED`. -/
def Errno.econnaborted : Errno := .other 103

/-- `EMFILE`. -/
def Errno.emfile : Errno := .other 24

/-! ### The wrappers -/

/-- What a call of a wrapper comes to: it returns, or the process exits in it. -/
inductive Wrapped (α : Type)
  | returned (a : α)
  | exited (status : ℕ)
deriving DecidableEq

/-- `Accept` around a call of `accept`; `unix_error` exits with status `0`. -/
def accept (result : Except Errno Fd) : Wrapped Fd :=
  match result with
  | .ok fd => .returned fd
  | .error _ => .exited 0

/-- `Sock_fd_read` around a call of `recvmsg` that received a message, with a descriptor or without
one. What it returns is a result of the same kind: its callers expect to be told of a failure. -/
def sockFdRead (result : Except Errno (Option Fd)) : Wrapped (Except Errno (Option Fd)) :=
  match result with
  | .ok fd => .returned (.ok fd)
  | .error _ => .exited 1

/-- **The error branch of the receive loop is dead**: `Sock_fd_read` never reports a failure. -/
theorem sockFdRead_ne_failed (result : Except Errno (Option Fd)) (e : Errno) :
    sockFdRead result ≠ .returned (.error e) := by
  cases result <;> nofun

/-! ### The system with its calls -/

/-- What happens in the system, the two calls in question by what the system call returned. -/
inductive Outcome
  /-- `accept` in the accept loop of the master. -/
  | accept (result : Except Errno Fd)
  /-- `recvmsg` in the receive loop of worker `w`. -/
  | recvmsg (w : Fin nprocMaxNum) (result : Except Errno (Option Fd))
  | other (a : Act)

/-- The call failed. -/
def Outcome.failed : Outcome → Bool
  | .accept (.error _) | .recvmsg _ (.error _) => true
  | _ => false

/-- Nothing in this action fails, and no process ends. -/
def Act.Succeeds : Act → Prop
  | .master (.epollWait ready) => ready = true
  | .master (.setnoblock ok) => ok = true
  | .master (.sockFdWrite result) => 0 < result
  | .master (.accept _) | .master .exit => False
  | .sockFdRead _ _ => False
  | .worker _ (.fdopen ok) => ok = true
  | .worker _ (.write ok) => ok = true
  | .worker _ .exit => False
  | .worker _ _ => True

/-- **The only failures are transient ones**: of `accept` by a signal, an aborted connection or a
lack of descriptors, and of `recvmsg` by a signal. -/
def Outcome.Transient : Outcome → Prop
  | .accept (.error e) => e = .eintr ∨ e = .econnaborted ∨ e = .emfile
  | .recvmsg _ (.error e) => e = .eintr
  | .accept (.ok _) | .recvmsg _ (.ok _) => True
  | .other a => a.Succeeds

namespace System

/-- One step of the system, through the wrappers. A failure that `Sock_fd_read` reported would send
the worker round its loop again for `EINTR`, and out of the loop otherwise, which leads to the code
of `PreforkHttpd.Pool.ForkTree`. -/
def stepOutcome (s : System) : Outcome → Option System
  | .accept result =>
    match s.master.pc, PreforkHttpd.accept result with
    | .accept, .returned fd => s.stepMaster (.accept (some fd))
    | .accept, .exited _ => s.stepMaster (.accept none)
    | _, _ => none
  | .recvmsg w result =>
    match (s.workers w).pc, PreforkHttpd.sockFdRead result with
    | .sockFdRead, .returned (.ok fd) => s.stepRead w fd
    | .sockFdRead, .returned (.error e) => if e = .eintr then some s else none
    | .sockFdRead, .exited _ => s.stepWorker w .exit
    | _, _ => none
  | .other a => s.step a

/-- **A run that was survived.** -/
structure Survived (outcomes : List Outcome) (s : System) : Prop where
  master_alive : s.master.pc ≠ .exited
  worker_alive : ∀ w, (s.workers w).pc ≠ .exited
  /-- The failed calls are retried and change nothing: what came after them is handled as if they
  had never been. -/
  unharmed : runFrom stepOutcome initial (outcomes.filter fun o ↦ !o.failed) = some s
  /-- Every client accepted has been passed on, but for the one the master is busy with. -/
  clients : ∀ c < s.accepted, c ∈ s.handed ∨ s.master.pc ≠ .accept ∧ c + 1 = s.accepted
  /-- Every descriptor passed has been received, or waits to be. -/
  passed : ∀ c ∈ s.sent, c ∈ s.queue ∨ ∃ w fd, (w, fd, c) ∈ s.received

/-! ### From outcomes to actions -/

variable {s s' : System}

/-- What an outcome does to the system, it does by an action of the system. -/
theorem exists_step_of_stepOutcome {o : Outcome} (h : s.stepOutcome o = some s') :
    ∃ a, s.step a = some s' := by
  cases o with
  | accept result =>
    simp only [stepOutcome] at h
    split at h
    next fd hpc hfd => exact ⟨.master (.accept (some fd)), h⟩
    next status hpc hexit => exact ⟨.master (.accept none), h⟩
    next => cases h
  | recvmsg w result =>
    simp only [stepOutcome] at h
    split at h
    next fd hpc hfd => exact ⟨.sockFdRead w fd, h⟩
    next e hpc he => exact absurd he (sockFdRead_ne_failed result e)
    next status hpc hexit => exact ⟨.worker w .exit, h⟩
    next => cases h
  | other a => exact ⟨a, h⟩

theorem exists_runFrom_of_outcomes {outcomes : List Outcome}
    (hrun : runFrom stepOutcome s outcomes = some s') :
    ∃ acts, runFrom step s acts = some s' := by
  induction outcomes generalizing s with
  | nil => exact ⟨[], hrun⟩
  | cons o outcomes ih =>
    obtain ⟨t, ht, hrest⟩ := runFrom_cons_eq_some_iff.1 hrun
    obtain ⟨a, ha⟩ := exists_step_of_stepOutcome ht
    obtain ⟨acts, hacts⟩ := ih hrest
    exact ⟨a :: acts, runFrom_cons_eq_some_iff.2 ⟨t, ha, hacts⟩⟩

/-! ### Who is alive -/

/-- The master and the workers are all alive. -/
def Alive (s : System) : Prop := s.master.pc ≠ .exited ∧ ∀ w, (s.workers w).pc ≠ .exited

/-- The dead stay dead: a step has no way back from `exit`. -/
theorem Alive.of_step {a : Act} (hs : s'.Alive) (h : s.step a = some s') : s.Alive := by
  cases a with
  | master a =>
    refine ⟨fun hpc ↦ ?_, ?_⟩
    · unfold step stepMaster at h
      rw [hpc] at h
      cases a <;> cases h
    · cases masterStep_of_stepMaster h with
      | _ => exact hs.2
  | sockFdRead w fd =>
    obtain ⟨c, queue, hpc, -, rfl⟩ := stepRead_cases h
    refine ⟨hs.1, fun v hv ↦ ?_⟩
    by_cases hw : v = w
    · rw [hw, hpc] at hv
      cases hv
    · exact hs.2 v ((congrArg Worker.pc (workers_of_stepRead h hw)).trans hv)
  | worker w a =>
    obtain ⟨k, -, rfl⟩ := stepWorker_cases h
    refine ⟨hs.1, fun v hv ↦ ?_⟩
    by_cases hw : v = w
    · have hnone := Worker.step_of_exited (hw ▸ hv) (a := a)
      rw [step_of_stepWorker h] at hnone
      cases hnone
    · exact hs.2 v ((congrArg Worker.pc (workers_of_stepWorker h hw)).trans hv)

/-- A process that has ended does not come back. -/
theorem Alive.of_runFrom {acts : List Act} (hs : s'.Alive)
    (hrun : runFrom step s acts = some s') : s.Alive := by
  by_contra hdead
  exact invariant_of_runFrom (fun t ↦ ¬ t.Alive) (fun hdead h hs ↦ hdead (hs.of_step h)) hrun
    hdead hs

/-- **A failed `accept` ends the master**, whatever the failure. -/
theorem not_alive_of_accept {e : Errno} (h : s.stepOutcome (.accept (.error e)) = some s') :
    ¬ s'.Alive := by
  simp only [stepOutcome, PreforkHttpd.accept] at h
  split at h
  next hexit => cases hexit
  next hpc hexit =>
    simp only [stepMaster, hpc, Option.some.injEq] at h
    exact fun hs ↦ hs.1 (h ▸ rfl)
  next => cases h

/-- **A failed `recvmsg` ends the worker**, whatever the failure. -/
theorem not_alive_of_recvmsg {w : Fin nprocMaxNum} {e : Errno}
    (h : s.stepOutcome (.recvmsg w (.error e)) = some s') : ¬ s'.Alive := by
  simp only [stepOutcome, PreforkHttpd.sockFdRead] at h
  split at h
  next hexit => cases hexit
  next hexit => cases hexit
  next hpc hexit => exact fun hs ↦ hs.2 w (Worker.pc_of_sockFdRead hpc (step_of_stepWorker h))
  next => cases h

theorem not_alive_of_failed {o : Outcome} (hfailed : o.failed = true)
    (h : s.stepOutcome o = some s') : ¬ s'.Alive := by
  match o, hfailed with
  | .accept (.error _), _ => exact not_alive_of_accept h
  | .recvmsg _ (.error _), _ => exact not_alive_of_recvmsg h

/-- A worker's action that succeeds does not end it. -/
theorem pc_ne_exited_of_succeeds {w : Fin nprocMaxNum} {k k' : Worker} {a : WorkerAct}
    (ha : (Act.worker w a).Succeeds) (h : k.step a = some k') : k'.pc ≠ .exited := by
  cases a with
  | exit => exact ha.elim
  | write ok =>
    obtain rfl : ok = true := ha
    unfold Worker.step at h
    split at h <;> grind
  | _ =>
    unfold Worker.step at h
    split at h <;> grind

/-- The master's moves that are not failures leave it alive. -/
theorem Alive.of_masterStep {a : MasterAct} (hs : s.Alive)
    (ha : (Act.master a).Succeeds ∨ ∃ fd, a = .accept (some fd)) (h : MasterStep s a s') :
    s'.Alive := by
  cases h with
  | ready => exact ⟨nofun, hs.2⟩
  | accept => exact ⟨nofun, hs.2⟩
  | setnoblock => exact ⟨nofun, hs.2⟩
  | condSent => exact ⟨nofun, hs.2⟩
  | condFailed => exact ⟨nofun, hs.2⟩
  | bodySent => exact ⟨nofun, hs.2⟩
  | bodyFailed => exact ⟨nofun, hs.2⟩
  | notReady => exact absurd ha (by simp [Act.Succeeds])
  | acceptFailed => exact absurd ha (by simp [Act.Succeeds])
  | setnoblockFailed => exact absurd ha (by simp [Act.Succeeds])
  | exit => exact absurd ha (by simp [Act.Succeeds])

/-- A receive leaves everybody alive. -/
theorem Alive.of_stepRead {w : Fin nprocMaxNum} {fd : Option Fd} (hs : s.Alive)
    (h : s.stepRead w fd = some s') : s'.Alive := by
  refine ⟨?_, fun v ↦ ?_⟩
  · obtain ⟨c, queue, -, -, rfl⟩ := stepRead_cases h
    exact hs.1
  · by_cases hv : v = w
    · rw [hv, pc_of_stepRead h]
      nofun
    · rw [workers_of_stepRead h hv]
      exact hs.2 v

/-- **Without a failure everybody stays alive.** -/
theorem Alive.stepOutcome {o : Outcome} (hs : s.Alive) (hfailed : o.failed = false)
    (htransient : o.Transient) (h : s.stepOutcome o = some s') : s'.Alive := by
  match o, hfailed, htransient with
  | .accept (.ok fd), _, _ =>
    simp only [System.stepOutcome, PreforkHttpd.accept] at h
    split at h
    next fd' hpc hfd => exact hs.of_masterStep (Or.inr ⟨fd', rfl⟩) (masterStep_of_stepMaster h)
    next hexit => cases hexit
    next => cases h
  | .recvmsg w (.ok fd), _, _ =>
    simp only [System.stepOutcome, PreforkHttpd.sockFdRead] at h
    split at h
    next => exact hs.of_stepRead h
    next herror => cases herror
    next hexit => cases hexit
    next => cases h
  | .other (.master a), _, ha => exact hs.of_masterStep (Or.inl ha) (masterStep_of_stepMaster h)
  | .other (.sockFdRead w fd), _, ha => exact ha.elim
  | .other (.worker w a), _, ha =>
    refine ⟨?_, fun v ↦ ?_⟩
    · obtain ⟨k, -, rfl⟩ := stepWorker_cases h
      exact hs.1
    · by_cases hv : v = w
      · exact hv ▸ pc_ne_exited_of_succeeds ha (step_of_stepWorker h)
      · rw [workers_of_stepWorker h hv]
        exact hs.2 v

theorem alive_initial : initial.Alive := ⟨nofun, fun _ ↦ nofun⟩

/-- The master is busy with the client it accepted last, and has passed on the others. -/
theorem clients_of_busy {n : ℕ} (hn : s.accepted = n + 1) (hhanded : s.handed = List.range n)
    (hpc : s.master.pc ≠ .accept) :
    ∀ c < s.accepted, c ∈ s.handed ∨ s.master.pc ≠ .accept ∧ c + 1 = s.accepted := by
  intro c hc
  rcases Nat.lt_or_ge c n with hlt | hge
  · exact Or.inl (hhanded ▸ List.mem_range.2 hlt)
  · exact Or.inr ⟨hpc, by omega⟩

/-- As long as the master is alive, every client accepted is passed on, but for the one it is busy
with. -/
theorem MasterInv.clients (hs : s.MasterInv) (hpc : s.master.pc ≠ .exited) :
    ∀ c < s.accepted, c ∈ s.handed ∨ s.master.pc ≠ .accept ∧ c + 1 = s.accepted := by
  unfold MasterInv at hs
  split at hs
  next => exact fun c hc ↦ Or.inl (hs.2 ▸ List.mem_range.2 hc)
  next => exact fun c hc ↦ Or.inl (hs.2 ▸ List.mem_range.2 hc)
  next fd hbusy =>
    obtain ⟨n, rest, hn, -, -, hhanded⟩ := hs
    exact clients_of_busy hn hhanded (hbusy ▸ nofun)
  next fd hbusy =>
    obtain ⟨n, rest, hn, -, -, hhanded⟩ := hs
    exact clients_of_busy hn hhanded (hbusy ▸ nofun)
  next fd hbusy =>
    obtain ⟨n, rest, hn, -, -, hhanded⟩ := hs
    exact clients_of_busy hn hhanded (hbusy ▸ nofun)
  next hexited => exact absurd hexited hpc

/-! ### Survival -/

/-- A run in which no call failed leaves everybody alive. -/
theorem alive_of_outcomes {outcomes : List Outcome} (hs : s.Alive)
    (hrun : runFrom stepOutcome s outcomes = some s') (htransient : ∀ o ∈ outcomes, o.Transient)
    (hok : ∀ o ∈ outcomes, o.failed = false) : s'.Alive := by
  have hall : ∀ o ∈ outcomes, o.failed = false ∧ o.Transient := fun o ho ↦
    ⟨hok o ho, htransient o ho⟩
  exact invariant_of_along (fun hs ho h ↦ hs.stepOutcome ho.1 ho.2 h) hrun
    ((along_iff_forall hrun).2 hall) hs

/-- A run with a failed call leaves somebody dead. -/
theorem not_failed_of_alive {outcomes : List Outcome}
    (hrun : runFrom stepOutcome s outcomes = some s') (hs' : s'.Alive) :
    ∀ o ∈ outcomes, o.failed = false := by
  intro o ho
  obtain ⟨before, rest, rfl⟩ := List.append_of_mem ho
  obtain ⟨m, -, hrest⟩ := runFrom_append_eq_some_iff.1 hrun
  obtain ⟨m', hm', hrest⟩ := runFrom_cons_eq_some_iff.1 hrest
  obtain ⟨acts, hacts⟩ := exists_runFrom_of_outcomes hrest
  by_contra hfailed
  exact not_alive_of_failed (Bool.not_eq_false _ ▸ hfailed) hm' (hs'.of_runFrom hacts)

/-- **When transient failures are survived.** A run of the server whose only failures are transient
failures of `accept` and `recvmsg` is survived if and only if there is none of them. -/
theorem survived_iff {outcomes : List Outcome}
    (hrun : runFrom stepOutcome initial outcomes = some s)
    (htransient : ∀ o ∈ outcomes, o.Transient) :
    Survived outcomes s ↔ ∀ o ∈ outcomes, o.failed = false := by
  refine ⟨fun h ↦ not_failed_of_alive hrun ⟨h.master_alive, h.worker_alive⟩, fun hok ↦ ?_⟩
  obtain ⟨hmaster, hworker⟩ := alive_of_outcomes alive_initial hrun htransient hok
  obtain ⟨acts, hacts⟩ := exists_runFrom_of_outcomes hrun
  refine ⟨hmaster, hworker, ?_, ?_, fun c hc ↦ ?_⟩
  · rwa [List.filter_eq_self.2 fun o ho ↦ by rw [hok o ho]; rfl]
  · exact (invariant_of_runFrom MasterInv MasterInv.step hacts masterInv_initial).clients hmaster
  · rw [sent_eq_received_append_queue hacts] at hc
    obtain hc | hc := List.mem_append.1 hc
    · obtain ⟨⟨w, fd, c⟩, hmem, rfl⟩ := List.mem_map.1 hc
      exact Or.inr ⟨w, fd, hmem⟩
    · exact Or.inl hc

/-- The master accepts a client and passes it on, and the last worker receives it. -/
def firstClient : List Outcome :=
  [.other (.master (.epollWait true)), .accept (.ok 5), .other (.master (.setnoblock true)),
    .other (.master (.sockFdWrite 2)), .recvmsg (Fin.last 9) (.ok (some 5))]

/-- Nothing fails, and the first client is handled. -/
theorem survived_iff_firstClient :
    ∃ s, runFrom stepOutcome initial firstClient = some s ∧ Survived firstClient s := by
  have hrun : runFrom stepOutcome initial firstClient = some _ := rfl
  refine ⟨_, hrun, (survived_iff hrun fun o ho ↦ ?_).2 (by decide)⟩
  simp only [firstClient, List.mem_cons, List.not_mem_nil, or_false] at ho
  obtain rfl | rfl | rfl | rfl | rfl := ho <;> simp [Outcome.Transient, Act.Succeeds]

/-- A signal during `accept`, or during the `recvmsg` of a worker, ends that process. -/
theorem not_survived_of_eintr :
    (∃ s, runFrom stepOutcome initial
        [.other (.master (.epollWait true)), .accept (.error .eintr)] = some s ∧
      s.master.pc = .exited ∧
      ¬ Survived [.other (.master (.epollWait true)), .accept (.error .eintr)] s) ∧
    ∃ s, runFrom stepOutcome initial [.recvmsg 0 (.error .eintr)] = some s ∧
      (s.workers 0).pc = .exited ∧ ¬ Survived [.recvmsg 0 (.error .eintr)] s :=
  ⟨⟨_, rfl, rfl, fun h ↦ h.master_alive rfl⟩, ⟨_, rfl, rfl, fun h ↦ h.worker_alive 0 rfl⟩⟩

end System

end PreforkHttpd
