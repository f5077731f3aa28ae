import Mathlib.Algebra.GroupWithZero.Nat
import PreforkHttpd.Transition.Forking
import PreforkHttpd.Pool.ProcPool

/-!
# When a child runs the manager's code

`init_manager_proc` and `handler_dead_processor` fork in the middle of the manager's code, and a
child is a copy of the manager at that point. What keeps it away from the manager's code is that it
calls `jump_task_pool_obj`, and that this call does not come back: `Sock_fd_read` exits when
`recvmsg` fails, and the first descriptor it delivers leads into `Open_epoll`, a loop without an
exit. But when `Sock_fd_read` returns `0`, at the end of the stream, `jump_task_pool_obj` breaks out
of its loop and **returns**, and neither caller has an `exit` behind the call. The child goes on as
a manager with `pid == 0`: it registers a worker `0` in its copy of the pool, forks the workers that
were still to come, and returns into `start()`.

A process is its place in this code with its own copy of the pool. The model follows every process
that is ever forked, in any order of steps; `childrenConfined_iff` is exact. No call of
`Sock_fd_read` returning `0` is what keeps the children where they belong, and with it the number of
forks of `init_manager_proc` at `NPROC_MAX_NUM`.
-/

open LabelledRun

namespace PreforkHttpd

/-- The two calls of `jump_task_pool_obj`. -/
inductive TaskSite
  /-- In the turn `i` of the loop of `init_manager_proc`. -/
  | initManagerProc (i : ℕ)
  | handlerDeadProcessor
deriving DecidableEq

/-- Where a process is. -/
inductive ForkPc
  /-- The top of the loop of `init_manager_proc`: the test of `i`, and `fork` after it. -/
  | initManagerProc (i : ℕ)
  /-- `insert_pool_obj(pid)` at the end of turn `i`. -/
  | insertPoolObj (i : ℕ) (pid : ℤ)
  /-- In `start()`, behind `init_manager_proc`. -/
  | start
  /-- `fork` in `handler_dead_processor`, behind `delete_pool_obj`. -/
  | handlerDeadProcessor
  /-- `insert_pool(pid)` at the end of `handler_dead_processor`. -/
  | insertPool (pid : ℤ)
  /-- `Sock_fd_read` in the loop of `jump_task_pool_obj`. -/
  | sockFdRead (site : TaskSite)
  /-- In `do_epoll`. -/
  | doEpoll
  | exited
deriving DecidableEq

/-- The code that only the manager is meant to run. -/
def ForkPc.Manager : ForkPc → Prop
  | .sockFdRead _ | .doEpoll | .exited => False
  | _ => True

instance : DecidablePred ForkPc.Manager
  | .sockFdRead _ | .doEpoll | .exited => inferInstanceAs (Decidable False)
  | .initManagerProc _ | .insertPoolObj _ _ | .start | .handlerDeadProcessor | .insertPool _ =>
    inferInstanceAs (Decidable True)

/-- What stands behind the call of `jump_task_pool_obj`: the `pid` of the child's copy is `0`. -/
def TaskSite.next : TaskSite → ForkPc
  | .initManagerProc i => .insertPoolObj i 0
  | .handlerDeadProcessor => .insertPool 0

theorem TaskSite.manager_next (site : TaskSite) : site.next.Manager := by
  cases site <;> trivial

/-- A process. The last two fields are history and read by no process. -/
structure ForkProcess where
  pc : ForkPc
  /-- Its copy of `proc_pool`. -/
  pool : ProcPool
  /-- It was forked by `init_manager_proc` or `handler_dead_processor`. -/
  forked : Bool
  /-- How many processes it has forked in `init_manager_proc`. -/
  initForks : ℕ
deriving DecidableEq

/-- What a process does. -/
inductive ForkAct
  /-- `fork` returned `pid` in the caller: the child's pid, or a negative number. -/
  | fork (pid : ℤ)
  /-- The loop of `init_manager_proc` ends, and the function returns. -/
  | endLoop
  /-- The registering call at the end of a turn, or of `handler_dead_processor`. -/
  | register
  /-- `start()` calls `handler_dead_processor(pid)`. -/
  | handlerDeadProcessor (pid : ℤ)
  /-- `Sock_fd_read` returned `size`; for a negative result of `recvmsg` it does not return. -/
  | sockFdRead (size : ℤ)
  /-- The process is ended by a signal. -/
  | exit
deriving DecidableEq

namespace ForkProcess

/-- The process is gone. -/
def exit (p : ForkProcess) : ForkProcess := { p with pc := .exited }

/-- The copy of `p` that `fork` makes at `site`: it gets `0` and calls `jump_task_pool_obj`. -/
def child (p : ForkProcess) (site : TaskSite) : ForkProcess :=
  { p with pc := .sockFdRead site, forked := true, initForks := 0 }

/-- One action of a process: what becomes of it, and the processes it forks. A failed `fork` exits
through `unix_error`. -/
def step (p : ForkProcess) (a : ForkAct) : Option (ForkProcess × List ForkProcess) :=
  match p.pc, a with
  | .initManagerProc i, .fork pid =>
    if nprocMaxNum ≤ i ∨ pid = 0 then none
    else if pid < 0 then some (p.exit, [])
    else some ({ p with pc := .insertPoolObj i pid, initForks := p.initForks + 1 },
      [p.child (.initManagerProc i)])
  | .initManagerProc i, .endLoop =>
    if nprocMaxNum ≤ i then some ({ p with pc := .start }, []) else none
  | .insertPoolObj i pid, .register =>
    (ProcPool.insertPoolObj pid p.pool).map fun pool ↦
      ({ p with pc := .initManagerProc (i + 1), pool := pool }, [])
  | .start, .handlerDeadProcessor pid =>
    (ProcPool.deletePoolObj pid p.pool).map fun pool ↦
      ({ p with pc := .handlerDeadProcessor, pool := pool }, [])
  | .handlerDeadProcessor, .fork pid =>
    if pid = 0 then none
    else if pid < 0 then some (p.exit, [])
    else some ({ p with pc := .insertPool pid }, [p.child .handlerDeadProcessor])
  | .insertPool pid, .register =>
    some ({ p with pc := .start, pool := ProcPool.insertPool pid p.pool }, [])
  | .sockFdRead site, .sockFdRead size =>
    if size < 0 then some (p.exit, [])
    -- the end of the stream leaves the loop, and `jump_task_pool_obj` returns
    else if size = 0 then some ({ p with pc := site.next }, [])
    else some ({ p with pc := .doEpoll }, [])
  | .exited, .exit => none
  | _, .exit => some (p.exit, [])
  | _, _ => none

/-- The manager at the top of `init_manager_proc`, behind `create_proc_pool`. -/
def manager : ForkProcess where
  pc := .initManagerProc 0
  pool := ProcPool.initial
  forked := false
  initForks := 0

end ForkProcess

open ForkProcess

/-- How many processes were forked in `init_manager_proc`, by whomever. -/
def initForks (procs : List ForkProcess) : ℕ := (procs.map ForkProcess.initForks).sum

/-- **The children are confined**: no forked process is in the manager's code, at most
`NPROC_MAX_NUM` processes were forked in `init_manager_proc`, and exactly so many once a process has
returned from it. -/
structure ChildrenConfined (procs : List ForkProcess) : Prop where
  children : ∀ p ∈ procs, p.forked = true → ¬ p.pc.Manager
  initForks_le : initForks procs ≤ nprocMaxNum
  initForks_eq : ∀ p ∈ procs, p.pc = .start → initForks procs = nprocMaxNum

/-! ### The manager and its children -/

/-- What the manager's place in the code says about its forks. -/
def ForkPc.Counts (n : ℕ) : ForkPc → Prop
  | .initManagerProc i => n = i ∧ i ≤ nprocMaxNum
  | .insertPoolObj i _ => n = i + 1 ∧ i < nprocMaxNum
  | .start | .handlerDeadProcessor | .insertPool _ => n = nprocMaxNum
  | .exited => n ≤ nprocMaxNum
  | .sockFdRead _ | .doEpoll => False

theorem ForkPc.Counts.le {n : ℕ} {pc : ForkPc} (h : pc.Counts n) : n ≤ nprocMaxNum := by
  cases pc with
  | initManagerProc i => exact h.1.trans_le h.2
  | insertPoolObj i pid => exact h.1.trans_le h.2
  | start => exact le_of_eq h
  | handlerDeadProcessor => exact le_of_eq h
  | insertPool pid => exact le_of_eq h
  | sockFdRead site => exact h.elim
  | doEpoll => exact h.elim
  | exited => exact h

namespace ForkProcess

/-- The one process that nobody forked. -/
structure IsManager (p : ForkProcess) : Prop where
  forked_eq : p.forked = false
  counts : p.pc.Counts p.initForks

/-- A forked process that has kept to its task. -/
structure IsChild (p : ForkProcess) : Prop where
  forked_eq : p.forked = true
  task : ¬ p.pc.Manager
  initForks_eq : p.initForks = 0

variable {p p' : ForkProcess} {a : ForkAct} {new : List ForkProcess}

theorem isChild_child (p : ForkProcess) (site : TaskSite) : (p.child site).IsChild where
  forked_eq := rfl
  task := id
  initForks_eq := rfl

/-- Ending the manager is always possible and harmless. -/
theorem IsManager.exit (hp : p.IsManager) : p.exit.IsManager where
  forked_eq := hp.forked_eq
  counts := hp.counts.le

/-- **The manager stays the manager**, keeps count of its forks, and what it forks is a child. -/
theorem IsManager.step (hp : p.IsManager) (h : p.step a = some (p', new)) :
    p'.IsManager ∧ ∀ q ∈ new, q.IsChild := by
  have hexit := hp.exit
  obtain ⟨hforked, hcounts⟩ := hp
  unfold ForkProcess.step at h
  split at h
  next i pid hpc =>
    rw [hpc] at hcounts
    obtain ⟨hn, -⟩ := hcounts
    split at h
    · cases h
    next hlt =>
    split at h <;> obtain ⟨rfl, rfl⟩ := Prod.mk.inj (Option.some.inj h)
    · exact ⟨hexit, List.forall_mem_nil _⟩
    · refine ⟨⟨hforked, ?_⟩, fun q hq ↦ List.mem_singleton.1 hq ▸ isChild_child p _⟩
      show p.initForks + 1 = i + 1 ∧ i < nprocMaxNum
      omega
  next i hpc =>
    rw [hpc] at hcounts
    obtain ⟨hn, hle⟩ := hcounts
    split at h
    next hge =>
      obtain ⟨rfl, rfl⟩ := Prod.mk.inj (Option.some.inj h)
      refine ⟨⟨hforked, ?_⟩, List.forall_mem_nil _⟩
      show p.initForks = nprocMaxNum
      omega
    · cases h
  next i pid hpc =>
    rw [hpc] at hcounts
    obtain ⟨pool, -, h⟩ := Option.map_eq_some_iff.1 h
    obtain ⟨rfl, rfl⟩ := Prod.mk.inj h
    refine ⟨⟨hforked, ?_⟩, List.forall_mem_nil _⟩
    show p.initForks = i + 1 ∧ i + 1 ≤ nprocMaxNum
    exact hcounts
  next pid hpc =>
    rw [hpc] at hcounts
    obtain ⟨pool, -, h⟩ := Option.map_eq_some_iff.1 h
    obtain ⟨rfl, rfl⟩ := Prod.mk.inj h
    exact ⟨⟨hforked, hcounts⟩, List.forall_mem_nil _⟩
  next pid hpc =>
    rw [hpc] at hcounts
    split at h
    · cases h
    split at h <;> obtain ⟨rfl, rfl⟩ := Prod.mk.inj (Option.some.inj h)
    · exact ⟨hexit, List.forall_mem_nil _⟩
    · exact ⟨⟨hforked, hcounts⟩, fun q hq ↦ List.mem_singleton.1 hq ▸ isChild_child p _⟩
  next pid hpc =>
    rw [hpc] at hcounts
    obtain ⟨rfl, rfl⟩ := Prod.mk.inj (Option.some.inj h)
    exact ⟨⟨hforked, hcounts⟩, List.forall_mem_nil _⟩
  next site size hpc =>
    rw [hpc] at hcounts
    exact hcounts.elim
  · cases h
  · obtain ⟨rfl, rfl⟩ := Prod.mk.inj (Option.some.inj h)
    exact ⟨hexit, List.forall_mem_nil _⟩
  · cases h

/-- **The end of the stream** leads out of `jump_task_pool_obj`. -/
theorem step_endOfStream (h : p.step (.sockFdRead 0) = some (p', new)) :
    ∃ site, p.pc = .sockFdRead site ∧ p' = { p with pc := site.next } := by
  obtain ⟨pc, pool, forked, n⟩ := p
  cases pc with
  | sockFdRead site =>
    obtain ⟨rfl, -⟩ := Prod.mk.inj (Option.some.inj h)
    exact ⟨site, rfl, rfl⟩
  | _ => cases h

/-- **A child that does not come to the end of the stream keeps to its task**, and forks nothing: it
exits, or its first descriptor takes it into `do_epoll`. -/
theorem IsChild.step (hp : p.IsChild) (ha : a ≠ .sockFdRead 0) (h : p.step a = some (p', new)) :
    p'.IsChild ∧ ∀ q ∈ new, q.IsChild := by
  obtain ⟨hforked, htask, hn⟩ := hp
  unfold ForkProcess.step at h
  split at h
  case h_7 site size hpc =>
    split at h
    · obtain ⟨rfl, rfl⟩ := Prod.mk.inj (Option.some.inj h)
      exact ⟨⟨hforked, id, hn⟩, List.forall_mem_nil _⟩
    split at h
    next hzero => exact absurd (congrArg ForkAct.sockFdRead hzero) ha
    · obtain ⟨rfl, rfl⟩ := Prod.mk.inj (Option.some.inj h)
      exact ⟨⟨hforked, id, hn⟩, List.forall_mem_nil _⟩
  case h_8 => cases h
  case h_9 =>
    obtain ⟨rfl, rfl⟩ := Prod.mk.inj (Option.some.inj h)
    exact ⟨⟨hforked, id, hn⟩, List.forall_mem_nil _⟩
  case h_10 => cases h
  -- everywhere else the child would be in the manager's code
  all_goals
    next hpc => exact absurd (show p.pc.Manager by rw [hpc]; trivial) htask

end ForkProcess

open ForkProcess

/-! ### The tree of processes -/

/-- The manager and its children, as long as no child leaves its task. -/
abbrev Settled (procs : List ForkProcess) : Prop := Rooted IsManager IsChild procs

theorem settled_manager : Settled [manager] :=
  ⟨⟨rfl, rfl, Nat.zero_le _⟩, List.forall_mem_nil _⟩

/-- The children have forked nothing. -/
theorem initForks_of_children {rest : List ForkProcess} (h : ∀ q ∈ rest, q.IsChild) :
    initForks rest = 0 := by
  rw [initForks, List.sum_eq_zero_iff_forall_eq_nat]
  intro n hn
  obtain ⟨q, hq, rfl⟩ := List.mem_map.1 hn
  exact (h q hq).initForks_eq

theorem Settled.childrenConfined {procs : List ForkProcess} (h : Settled procs) :
    ChildrenConfined procs := by
  rcases procs with - | ⟨root, rest⟩
  · exact h.elim
  obtain ⟨hroot, hrest⟩ := h
  have hsum : initForks (root :: rest) = root.initForks := by
    rw [initForks, List.map_cons, List.sum_cons]
    exact Nat.add_eq_left.2 (initForks_of_children hrest)
  refine ⟨fun p hp hforked ↦ ?_, ?_, fun p hp hstart ↦ ?_⟩
  · obtain rfl | hp := List.mem_cons.1 hp
    · exact absurd (hforked.symm.trans hroot.forked_eq) (by decide)
    · exact (hrest p hp).task
  · rw [hsum]
    exact hroot.counts.le
  · rw [hsum]
    obtain rfl | hp := List.mem_cons.1 hp
    · have hcounts := hroot.counts
      rwa [hstart] at hcounts
    · exact absurd (hstart ▸ trivial : p.pc.Manager) (hrest p hp).task

/-- The end of the stream puts a child in the manager's code. -/
theorem Settled.not_childrenConfined {procs procs' : List ForkProcess} {act : ℕ × ForkAct}
    (h : Settled procs) (hact : act.2 = .sockFdRead 0)
    (hstep : stepAt ForkProcess.step procs act = some procs') : ¬ ChildrenConfined procs' := by
  obtain ⟨k, a⟩ := act
  obtain rfl : a = .sockFdRead 0 := hact
  obtain ⟨p, ⟨p', new⟩, hp, hr, rfl⟩ := stepAt_eq_some_iff.1 hstep
  obtain ⟨site, hpc, rfl⟩ := step_endOfStream hr
  rcases procs with - | ⟨root, rest⟩
  · exact h.elim
  obtain ⟨hroot, hrest⟩ := h
  intro hconfined
  cases k with
  | zero =>
    -- the manager is nowhere near a receive loop
    obtain rfl := Option.some.inj hp
    have hcounts := hroot.counts
    rw [hpc] at hcounts
    exact hcounts
  | succ k =>
    have hforked : p.forked = true := (hrest p (List.mem_of_getElem? hp)).forked_eq
    have hlt : k + 1 < (root :: rest).length := (List.getElem?_eq_some_iff.1 hp).1
    have hmem := List.mem_append_left new (List.mem_set hlt { p with pc := site.next })
    exact hconfined.children _ hmem hforked site.manager_next

/-- **When the children are confined.** In every state of a run, no forked process is in the
manager's code and `init_manager_proc` forks `NPROC_MAX_NUM` processes, if and only if no call of
`Sock_fd_read` in the run returned `0`. -/
theorem childrenConfined_iff {acts : List (ℕ × ForkAct)} {procs : List ForkProcess}
    (hrun : runFrom (stepAt ForkProcess.step) [manager] acts = some procs) :
    Throughout (stepAt ForkProcess.step) ChildrenConfined [manager] acts ↔
      ∀ act ∈ acts, act.2 ≠ .sockFdRead 0 := by
  rw [← along_iff_forall hrun]
  exact throughout_iff_along
    (fun hs hact ↦ rooted_of_stepAt (fun hp _ hr ↦ hp.step hr) IsChild.step hs fun _ _ ↦ hact)
    Settled.childrenConfined (fun hs hact ↦ Settled.not_childrenConfined hs (not_not.1 hact)) hrun
    settled_manager

/-- The manager's part of `init_manager_proc`, with children `1` to `10`. -/
def managerForks : List (ℕ × ForkAct) :=
  ((List.range nprocMaxNum).flatMap fun i : ℕ ↦ [(0, .fork (i + 1)), (0, .register)]) ++
    [(0, .endLoop)]

/-- The manager's forks, and a descriptor for each of the children. -/
def firstClients : List (ℕ × ForkAct) :=
  managerForks ++ (List.range nprocMaxNum).map fun i : ℕ ↦ (i + 1, .sockFdRead 2)

/-- Everybody stays where they belong. -/
theorem childrenConfined_iff_firstClients :
    Throughout (stepAt ForkProcess.step) ChildrenConfined [manager] firstClients := by
  have hrun : runFrom (stepAt ForkProcess.step) [manager] firstClients = some _ := rfl
  exact (childrenConfined_iff hrun).2 (by decide)

/-- The first child comes to the end of the stream: it registers a worker `0` and forks the second
worker over again, an eleventh process forked in `init_manager_proc`. -/
theorem not_childrenConfined_of_endOfStream :
    ∃ procs, runFrom (stepAt ForkProcess.step) [manager]
        (managerForks ++ [(1, .sockFdRead 0), (1, .register), (1, .fork 11)]) = some procs ∧
      initForks procs = 11 ∧ ¬ ChildrenConfined procs :=
  ⟨_, rfl, rfl, fun h ↦ absurd h.initForks_le (by decide)⟩

end PreforkHttpd
