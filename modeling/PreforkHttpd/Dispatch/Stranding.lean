import Mathlib.Data.Fintype.Card
import PreforkHttpd.Dispatch.HandOff

/-!
# When a waiting client can still be received

A worker takes clients off the socketpair in the loop of `jump_task_pool_obj`: receive a descriptor,
hand it to `Open_epoll`, receive the next. But `Open_epoll` is `do_epoll`, whose loop has no exit,
so the first client a worker receives is also its last.

`pc_of_step` is the whole reason: **no step leads to `Sock_fd_read`**, neither a step of the worker
itself nor one of any other process. A worker that can come back there is one that never left
(`canReturn_iff_pc`), and the workers that left are those that received something
(`ReceiveInv`), each exactly one client. So the pool as a whole receives `NPROC_MAX_NUM` clients and
no more:

* `exists_canReturn_iff` — while a client is waiting and every worker is alive, some worker can
  still receive it if and only if fewer than `NPROC_MAX_NUM` receives have happened;
* `queue_prefix_of_full` — after that many, whatever waits on the socketpair waits there in every
  later state.
-/

open LabelledRun

namespace PreforkHttpd

/-- The actions a worker takes by itself, the receive among them. -/
def Act.OwnOf (w : Fin nprocMaxNum) : Act → Prop
  | .master _ => False
  | .sockFdRead v _ => v = w
  | .worker v _ => v = w

/-- The action receives a message. -/
def Act.isSockFdRead : Act → Bool
  | .sockFdRead _ _ => true
  | _ => false

namespace Worker

variable {k k' : Worker} {a : WorkerAct}

/-- A worker at `Sock_fd_read` can do nothing on its own but end. -/
theorem pc_of_sockFdRead (hpc : k.pc = .sockFdRead) (h : k.step a = some k') :
    k'.pc = .exited := by
  unfold step at h
  rw [hpc] at h
  cases a with
  | exit => exact Option.some.inj h ▸ rfl
  | _ => cases h

theorem step_of_exited (hpc : k.pc = .exited) : k.step a = none := by
  unfold step
  rw [hpc]
  cases a <;> rfl

/-- **The loop of `do_epoll` has no exit**: no step of a worker leads back to `Sock_fd_read`. -/
theorem pc_ne_sockFdRead_of_step (h : k.step a = some k') : k'.pc ≠ .sockFdRead := by
  unfold step at h
  split at h
  all_goals grind [exit]

end Worker

namespace System

variable {s s' t : System} {w : Fin nprocMaxNum}

/-! ### Coming back to the receive loop -/

/-- Worker `w` is at `Sock_fd_read`, or can get there by actions of its own. -/
def CanReturn (s : System) (w : Fin nprocMaxNum) : Prop :=
  ∃ acts t, (∀ a ∈ acts, Act.OwnOf w a) ∧ runFrom step s acts = some t ∧
    (t.workers w).pc = .sockFdRead

/-- **Nothing leads to `Sock_fd_read`**: a worker found there was there before the step. -/
theorem pc_of_step {a : Act} (h : s.step a = some s') (hpc : (s'.workers w).pc = .sockFdRead) :
    (s.workers w).pc = .sockFdRead := by
  cases a with
  | master a =>
    cases masterStep_of_stepMaster h with
    | _ => exact hpc
  | sockFdRead v fd =>
    by_cases hw : w = v
    · obtain ⟨c, queue, hv, -, -⟩ := stepRead_cases h
      exact hw ▸ hv
    · rwa [workers_of_stepRead h hw] at hpc
  | worker v a =>
    by_cases hw : w = v
    · subst hw
      exact absurd hpc (Worker.pc_ne_sockFdRead_of_step (step_of_stepWorker h))
    · rwa [workers_of_stepWorker h hw] at hpc

/-- A worker that has left `Sock_fd_read` never comes back, whoever acts. -/
theorem pc_ne_of_runFrom {acts : List Act} (hrun : runFrom step s acts = some t)
    (hpc : (s.workers w).pc ≠ .sockFdRead) : (t.workers w).pc ≠ .sockFdRead :=
  invariant_of_runFrom (fun s ↦ (s.workers w).pc ≠ .sockFdRead)
    (fun hs h hpc ↦ hs (pc_of_step h hpc)) hrun hpc

/-- **Only a worker that never left can come back.** -/
theorem canReturn_iff_pc : s.CanReturn w ↔ (s.workers w).pc = .sockFdRead := by
  refine ⟨fun ⟨acts, t, _, hrun, hpc⟩ ↦ ?_, fun hpc ↦ ⟨[], s, nofun, rfl, hpc⟩⟩
  by_contra hne
  exact pc_ne_of_runFrom hrun hne hpc

/-! ### Who has received -/

/-- No worker has received twice; one that has received is elsewhere, and one that has not is still
at its receive loop, or gone. -/
structure ReceiveInv (s : System) : Prop where
  nodup : (s.received.map Prod.fst).Nodup
  pc_of_mem : ∀ w ∈ s.received.map Prod.fst, (s.workers w).pc ≠ .sockFdRead
  pc_of_notMem : ∀ w ∉ s.received.map Prod.fst,
    (s.workers w).pc = .sockFdRead ∨ (s.workers w).pc = .exited

theorem receiveInv_initial : initial.ReceiveInv :=
  ⟨List.nodup_nil, nofun, fun _ _ ↦ Or.inl rfl⟩

theorem ReceiveInv.of_stepRead {fd : Option Fd} (hs : s.ReceiveInv)
    (h : s.stepRead w fd = some s') : s'.ReceiveInv := by
  have hstep : ∀ v, (s'.workers v).pc = .sockFdRead → (s.workers v).pc = .sockFdRead :=
    fun v ↦ pc_of_step (a := .sockFdRead w fd) h
  obtain ⟨c, hpc, hmap⟩ : ∃ c : Conn, (s.workers w).pc = .sockFdRead ∧
      s'.received.map Prod.fst = s.received.map Prod.fst ++ [w] := by
    obtain ⟨c, queue, hpc, -, rfl⟩ := stepRead_cases h
    exact ⟨c, hpc, List.map_append⟩
  have hw : w ∉ s.received.map Prod.fst := fun hw ↦ hs.pc_of_mem w hw hpc
  constructor
  · rw [hmap]
    exact List.nodup_append_comm.1 (List.nodup_cons.2 ⟨hw, hs.nodup⟩)
  · intro v hv
    rw [hmap, List.mem_append, List.mem_singleton] at hv
    rcases hv with hv | rfl
    · exact fun hpc' ↦ hs.pc_of_mem v hv (hstep v hpc')
    · exact pc_of_stepRead h ▸ nofun
  · intro v hv
    rw [hmap, List.mem_append, List.mem_singleton, not_or] at hv
    rw [workers_of_stepRead h hv.2]
    exact hs.pc_of_notMem v hv.1

theorem ReceiveInv.of_stepWorker {a : WorkerAct} (hs : s.ReceiveInv)
    (h : s.stepWorker w a = some s') : s'.ReceiveInv := by
  have hstep : ∀ v, (s'.workers v).pc = .sockFdRead → (s.workers v).pc = .sockFdRead :=
    fun v ↦ pc_of_step (a := .worker w a) h
  have hreceived : s'.received = s.received := by
    obtain ⟨k, -, rfl⟩ := stepWorker_cases h
    rfl
  refine ⟨hreceived ▸ hs.nodup,
    fun v hv hpc ↦ hs.pc_of_mem v (hreceived ▸ hv) (hstep v hpc), fun v hv ↦ ?_⟩
  rw [hreceived] at hv
  by_cases hne : v = w
  · -- the worker has not received: it was at its receive loop, and all it can do is end
    subst hne
    have hk := step_of_stepWorker h
    rcases hs.pc_of_notMem v hv with hpc | hpc
    · exact Or.inr (Worker.pc_of_sockFdRead hpc hk)
    · exact absurd hk (Worker.step_of_exited hpc ▸ nofun)
  · rw [workers_of_stepWorker h hne]
    exact hs.pc_of_notMem v hv

theorem ReceiveInv.step {a : Act} (hs : s.ReceiveInv) (h : s.step a = some s') :
    s'.ReceiveInv := by
  cases a with
  | master a =>
    cases masterStep_of_stepMaster h with
    | _ => exact ⟨hs.nodup, hs.pc_of_mem, hs.pc_of_notMem⟩
  | sockFdRead w fd => exact hs.of_stepRead h
  | worker w a => exact hs.of_stepWorker h

/-- The record of receives counts them. -/
theorem length_received {acts : List Act} (hrun : runFrom step s acts = some t) :
    t.received.length = s.received.length + acts.countP Act.isSockFdRead := by
  refine count_of_runFrom (c := fun s : System ↦ s.received.length) (fun {s a s'} h ↦ ?_) hrun
  cases a with
  | master a =>
    cases masterStep_of_stepMaster h with
    | _ => rfl
  | sockFdRead w fd =>
    obtain ⟨c, queue, -, -, rfl⟩ := stepRead_cases h
    exact List.length_append
  | worker w a =>
    obtain ⟨k, -, rfl⟩ := stepWorker_cases h
    rfl

/-! ### Stranded clients -/

/-- While fewer than `NPROC_MAX_NUM` receives have happened, some worker has received nothing. -/
theorem exists_notMem_received (hlt : s.received.length < nprocMaxNum) :
    ∃ w, w ∉ s.received.map Prod.fst := by
  by_contra! hall
  have hle := Finset.card_le_card fun w (_ : w ∈ Finset.univ) ↦ List.mem_toFinset.2 (hall w)
  rw [Finset.card_univ, Fintype.card_fin] at hle
  have hlength := (List.toFinset_card_le (s.received.map Prod.fst)).trans_eq (List.length_map _)
  omega

/-- A worker still at its receive loop is one of `NPROC_MAX_NUM` and not among those that
received. -/
theorem ReceiveInv.length_lt_of_pc (hs : s.ReceiveInv) (hpc : (s.workers w).pc = .sockFdRead) :
    s.received.length < nprocMaxNum := by
  have hw : w ∉ s.received.map Prod.fst := fun hw ↦ hs.pc_of_mem w hw hpc
  have hle := (List.nodup_cons.2 ⟨hw, hs.nodup⟩).length_le_card
  rwa [List.length_cons, List.length_map, Fintype.card_fin] at hle

theorem receiveInv_of_runFrom {acts : List Act} (hrun : runFrom step initial acts = some s) :
    s.ReceiveInv ∧ s.received.length = acts.countP Act.isSockFdRead :=
  ⟨invariant_of_runFrom ReceiveInv ReceiveInv.step hrun receiveInv_initial,
    (length_received hrun).trans (Nat.zero_add _)⟩

/-- **When a waiting client can be received.** In a state of a run in which no worker has ended,
whatever is waiting on the socketpair, some worker is at `Sock_fd_read`, or can get back there, if
and only if fewer than `NPROC_MAX_NUM` receives have happened in the run. -/
theorem exists_canReturn_iff {acts : List Act} (hrun : runFrom step initial acts = some s)
    (halive : ∀ w, (s.workers w).pc ≠ .exited) :
    (∃ w, s.CanReturn w) ↔ acts.countP Act.isSockFdRead < nprocMaxNum := by
  obtain ⟨hinv, hlength⟩ := receiveInv_of_runFrom hrun
  simp only [canReturn_iff_pc]
  rw [← hlength]
  constructor
  · rintro ⟨w, hpc⟩
    exact hinv.length_lt_of_pc hpc
  · intro hlt
    obtain ⟨w, hw⟩ := exists_notMem_received hlt
    exact ⟨w, (hinv.pc_of_notMem w hw).resolve_right (halive w)⟩

/-- The master takes in the client whose descriptor gets number `fd`, and sends it. -/
def takeIn (fd : Fd) : List Act :=
  [.master (.accept (some fd)), .master (.setnoblock true), .master (.sockFdWrite 2)]

/-- One client waits, and every worker is still at its receive loop. -/
theorem exists_canReturn_iff_takeIn :
    ∃ s, runFrom step initial (.master (.epollWait true) :: takeIn 5) = some s ∧
      ((∃ w, s.CanReturn w) ↔
        (.master (.epollWait true) :: takeIn 5).countP Act.isSockFdRead < nprocMaxNum) :=
  ⟨_, rfl, exists_canReturn_iff rfl (by decide)⟩

/-- Each worker receives a client, and then one more client is sent. -/
def overload : List Act :=
  .master (.epollWait true) ::
    (List.finRange nprocMaxNum).flatMap (fun w ↦ takeIn w.val ++ [.sockFdRead w (some 3)]) ++
    takeIn nprocMaxNum

/-- The eleventh client waits, every worker is alive, and none can come back for it. -/
theorem not_canReturn_of_overload :
    ∃ s, runFrom step initial overload = some s ∧ s.queue = [10] ∧
      (∀ w, (s.workers w).pc ≠ .exited) ∧ ¬ ∃ w, s.CanReturn w := by
  refine ⟨_, rfl, rfl, by decide, ?_⟩
  simp only [canReturn_iff_pc]
  decide

/-- **Stranded for good.** Once `NPROC_MAX_NUM` receives have happened, nothing that waits on the
socketpair is received in any continuation of the run. -/
theorem queue_prefix_of_full {acts more : List Act} (hrun : runFrom step initial acts = some s)
    (hfull : nprocMaxNum ≤ acts.countP Act.isSockFdRead) (hmore : runFrom step s more = some t) :
    t.received = s.received ∧ s.queue <+: t.queue := by
  obtain ⟨hinv, hlength⟩ := receiveInv_of_runFrom hrun
  have hnone : ∀ w, (s.workers w).pc ≠ .sockFdRead := fun w hpc ↦
    absurd (hinv.length_lt_of_pc hpc) (by omega)
  refine (invariant_of_runFrom (fun t ↦ (∀ w, (t.workers w).pc ≠ .sockFdRead) ∧
    t.received = s.received ∧ s.queue <+: t.queue) (fun {t a t'} ht h ↦ ?_) hmore
    ⟨hnone, rfl, List.prefix_rfl⟩).2
  refine ⟨fun w hpc ↦ ht.1 w (pc_of_step h hpc), ?_⟩
  cases a with
  | master a =>
    cases masterStep_of_stepMaster h with
    | condSent => exact ⟨ht.2.1, ht.2.2.trans (List.prefix_append _ _)⟩
    | bodySent => exact ⟨ht.2.1, ht.2.2.trans (List.prefix_append _ _)⟩
    | _ => exact ht.2
  | sockFdRead w fd =>
    obtain ⟨c, queue, hpc, -, -⟩ := stepRead_cases h
    exact absurd hpc (ht.1 w)
  | worker w a =>
    obtain ⟨k, -, rfl⟩ := stepWorker_cases h
    exact ht.2

end System

end PreforkHttpd
