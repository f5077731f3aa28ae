import PreforkHttpd.Pool.ForkTree

/-!
# Why no worker sees the end of the stream

A child that reads the end of the stream on the socketpair leaves `jump_task_pool_obj` and runs the
manager's code. The socketpair makes that impossible. It is created before `init_manager_proc`, and
the children inherit both ends: the one they read from, and the one the master writes to. The
stream ends when no process has the writing end any more, and every process that waits in
`Sock_fd_read` has it itself. A child can lose it only in `do_epoll`, where the responder closes a
number that it never set, and no child comes back from there.

So the processes keep to their tasks in every run (`childrenConfined_of_runFrom`). The other side of
it is that nothing tells the children that the master is gone: the stream does not end for them
either, and those that have received nothing wait for ever (`waits_of_runFrom`).
-/

open LabelledRun

namespace PreforkHttpd

/-! ### The processes with the socketpair -/

/-- A process, and whether it has the writing end of the socketpair. -/
structure Heir where
  process : ForkProcess
  writing : Bool
deriving DecidableEq

/-- What a process does. -/
inductive HeirAct
  | call (a : ForkAct)
  /-- `Sock_fd_write` in the accept loop of `start()`, when it succeeds. -/
  | sockFdWrite
  /-- The responder closes the number of the writing end. -/
  | closeFile
deriving DecidableEq

namespace Heir

/-- One action of a process of its own. What it forks inherits its descriptors, and they are closed
when it exits. -/
def step (h : Heir) : HeirAct → Option (Heir × List Heir)
  | .call a => (h.process.step a).map fun r ↦
    (⟨r.1, h.writing && decide (r.1.pc ≠ .exited)⟩, r.2.map (⟨·, h.writing⟩))
  | .sockFdWrite => if h.process.pc = .start ∧ h.writing then some (h, []) else none
  | .closeFile => if h.process.pc = .doEpoll then some ({ h with writing := false }, []) else none

end Heir

/-- The processes, in order of creation, and how many messages wait on the socketpair. -/
structure SharedPair where
  heirs : List Heir
  waiting : ℕ
deriving DecidableEq

namespace SharedPair

/-- `recvmsg` on the reading end gives a result of this size: a message when there is one, and the
end of the stream when there is none and no process has the writing end. Otherwise it waits, unless
it fails. -/
def Gives (s : SharedPair) (size : ℤ) : Prop :=
  (0 < size → 0 < s.waiting) ∧ (size = 0 → s.waiting = 0 ∧ ∀ h ∈ s.heirs, h.writing = false)

instance (s : SharedPair) (size : ℤ) : Decidable (s.Gives size) :=
  inferInstanceAs (Decidable (_ ∧ _))

/-- The socketpair has the means for the action. -/
def Admits (s : SharedPair) : HeirAct → Prop
  | .call (.sockFdRead size) => s.Gives size
  | _ => True

instance (s : SharedPair) : (a : HeirAct) → Decidable (s.Admits a)
  | .call (.sockFdRead size) => inferInstanceAs (Decidable (s.Gives size))
  | .call (.fork _) | .call .endLoop | .call .register | .call (.handlerDeadProcessor _)
  | .call .exit | .sockFdWrite | .closeFile => instDecidableTrue

/-- The messages that wait after the action. -/
def waitingAfter (s : SharedPair) : HeirAct → ℕ
  | .call (.sockFdRead size) => if 0 < size then s.waiting - 1 else s.waiting
  | .sockFdWrite => s.waiting + 1
  | _ => s.waiting

/-- One action of one process. -/
def step (s : SharedPair) (act : ℕ × HeirAct) : Option SharedPair :=
  if s.Admits act.2 then
    (stepAt Heir.step s.heirs act).map fun heirs ↦ ⟨heirs, s.waitingAfter act.2⟩
  else none

/-- The manager, with both ends of the socketpair. -/
def initial : SharedPair := ⟨[⟨ForkProcess.manager, true⟩], 0⟩

theorem step_eq_some_iff {s s' : SharedPair} {act : ℕ × HeirAct} :
    s.step act = some s' ↔ s.Admits act.2 ∧
      ∃ heirs, stepAt Heir.step s.heirs act = some heirs ∧ s' = ⟨heirs, s.waitingAfter act.2⟩ := by
  rw [step, Option.ite_none_right_eq_some, Option.map_eq_some_iff]
  simp only [eq_comm (a := s')]

/-- The processes by themselves. -/
abbrev processes (s : SharedPair) : List ForkProcess := s.heirs.map Heir.process

end SharedPair

/-! ### The writing end -/

namespace Heir

variable {h h' : Heir} {a : HeirAct} {r : Heir × List Heir}

/-- The process has the writing end, unless it is gone or in `do_epoll`. -/
def Keeps (h : Heir) : Prop :=
  h.writing = true ∨ h.process.pc = .doEpoll ∨ h.process.pc = .exited

/-- From `do_epoll` there is only one way out. -/
theorem step_of_doEpoll {p : ForkProcess} {a : ForkAct} {r : ForkProcess × List ForkProcess}
    (hpc : p.pc = .doEpoll ∨ p.pc = .exited) (h : p.step a = some r) : r = (p.exit, []) := by
  unfold ForkProcess.step at h
  rcases hpc with hpc | hpc <;> rw [hpc] at h
  · cases a with
    | exit => exact (Option.some.inj h).symm
    | _ => cases h
  · cases a <;> cases h

/-- **The writing end is kept**, and passed on. -/
theorem Keeps.step (hh : h.Keeps) (hr : h.step a = some r) :
    r.1.Keeps ∧ ∀ q ∈ r.2, q.Keeps := by
  cases a with
  | call a =>
    obtain ⟨⟨p, new⟩, hp, rfl⟩ := Option.map_eq_some_iff.1 hr
    rcases hh with hw | hpc
    · refine ⟨?_, fun q hq ↦ ?_⟩
      · by_cases hexit : p.pc = .exited
        · exact Or.inr (Or.inr hexit)
        · exact Or.inl (by simp [hw, hexit])
      · obtain ⟨p', -, rfl⟩ := List.mem_map.1 hq
        exact Or.inl hw
    · obtain ⟨rfl, rfl⟩ := Prod.mk.inj (step_of_doEpoll hpc hp)
      exact ⟨Or.inr (Or.inr rfl), List.forall_mem_nil _⟩
  | sockFdWrite =>
    obtain ⟨-, h⟩ := Option.ite_none_right_eq_some.1 hr
    obtain rfl := Option.some.inj h
    exact ⟨hh, List.forall_mem_nil _⟩
  | closeFile =>
    obtain ⟨hpc, h⟩ := Option.ite_none_right_eq_some.1 hr
    obtain rfl := Option.some.inj h
    exact ⟨Or.inr (Or.inl hpc), List.forall_mem_nil _⟩

end Heir

namespace SharedPair

variable {s s' t : SharedPair} {acts more : List (ℕ × HeirAct)}

/-- **A call shows** as the call of the process. -/
theorem processes_of_call {k : ℕ} {a : ForkAct} {heirs : List Heir}
    (h : stepAt Heir.step s.heirs (k, .call a) = some heirs) :
    stepAt ForkProcess.step s.processes (k, a) = some (heirs.map Heir.process) := by
  refine stepAt_map Heir.process (fun {p r} hr ↦ ?_) h
  obtain ⟨⟨p', new⟩, hp, rfl⟩ := Option.map_eq_some_iff.1 hr
  rw [hp, List.map_map]
  exact congrArg (fun l ↦ some (p', l)) (List.map_id' new).symm

/-- Everything else does not show. -/
theorem processes_of_ne_call {act : ℕ × HeirAct} {heirs : List Heir}
    (hact : ∀ a, act.2 ≠ .call a) (h : stepAt Heir.step s.heirs act = some heirs) :
    heirs.map Heir.process = s.processes := by
  refine map_of_stepAt Heir.process (fun {p r} hr ↦ ?_) h
  obtain ⟨k, a⟩ := act
  cases a with
  | call a => exact absurd rfl (hact a)
  | sockFdWrite => exact Option.some.inj (Option.ite_none_right_eq_some.1 hr).2 ▸ ⟨rfl, rfl⟩
  | closeFile => exact Option.some.inj (Option.ite_none_right_eq_some.1 hr).2 ▸ ⟨rfl, rfl⟩

/-- The processes keep to their tasks, and to the writing end. -/
structure Orderly (s : SharedPair) : Prop where
  settled : Settled s.processes
  keeps : ∀ h ∈ s.heirs, h.Keeps

theorem orderly_initial : initial.Orderly where
  settled := settled_manager
  keeps := List.forall_mem_singleton.2 (Or.inl rfl)

/-- **The stream does not end**: the process that would read its end has the writing end itself. -/
theorem Orderly.not_endOfStream {k : ℕ} (hs : s.Orderly) :
    s.step (k, .call (.sockFdRead 0)) ≠ some s' := by
  intro h
  obtain ⟨hadmits, heirs, hstep, -⟩ := step_eq_some_iff.1 h
  obtain ⟨p, r, hp, hr, -⟩ := stepAt_eq_some_iff.1 hstep
  obtain ⟨⟨p', new⟩, hpstep, -⟩ := Option.map_eq_some_iff.1 hr
  obtain ⟨site, hpc, -⟩ := ForkProcess.step_endOfStream hpstep
  have hmem := List.mem_of_getElem? hp
  have hnone : p.writing = false := (hadmits.2 rfl).2 p hmem
  rcases hs.keeps p hmem with hw | hw | hw
  · simp [hw] at hnone
  · simp [hpc] at hw
  · simp [hpc] at hw

theorem Orderly.step {act : ℕ × HeirAct} (hs : s.Orderly) (h : s.step act = some s') :
    s'.Orderly := by
  obtain ⟨k, a⟩ := act
  have hne : a ≠ .call (.sockFdRead 0) := fun ha ↦ hs.not_endOfStream (ha ▸ h)
  obtain ⟨-, heirs, hstep, rfl⟩ := step_eq_some_iff.1 h
  refine ⟨?_, forall_mem_of_stepAt Heir.Keeps.step hs.keeps hstep⟩
  cases a with
  | call a =>
    have hne' : a ≠ .sockFdRead 0 := fun ha ↦ hne (congrArg HeirAct.call ha)
    exact rooted_of_stepAt (P := fun _ a ↦ a ≠ .sockFdRead 0) (fun hp _ hr ↦ hp.step hr)
      ForkProcess.IsChild.step hs.settled (fun _ _ ↦ hne') (processes_of_call hstep)
  | sockFdWrite =>
    show Settled (heirs.map Heir.process)
    rw [processes_of_ne_call (fun a ha ↦ by cases ha) hstep]
    exact hs.settled
  | closeFile =>
    show Settled (heirs.map Heir.process)
    rw [processes_of_ne_call (fun a ha ↦ by cases ha) hstep]
    exact hs.settled

theorem orderly_of_runFrom (hrun : runFrom step initial acts = some s) : s.Orderly :=
  invariant_of_runFrom Orderly Orderly.step hrun orderly_initial

/-! ### When the master is gone -/

/-- Nobody is in the manager's code, and no message waits. -/
structure Orphaned (s : SharedPair) : Prop extends Orderly s where
  task : ∀ p ∈ s.processes, ¬ p.pc.Manager
  waiting_eq : s.waiting = 0

/-- The manager is gone, and the children are where they belong. -/
theorem Orderly.orphaned (hs : s.Orderly) (hmanager : s.processes.head?.map ForkProcess.pc =
    some .exited) (hwaiting : s.waiting = 0) : s.Orphaned := by
  refine ⟨hs, ?_, hwaiting⟩
  have hsettled := hs.settled
  generalize s.processes = procs at hsettled hmanager
  rcases procs with - | ⟨root, rest⟩
  · cases hmanager
  · have hroot : root.pc = .exited := Option.some.inj hmanager
    exact List.forall_mem_cons.2 ⟨hroot ▸ id, fun q hq ↦ (hsettled.2 q hq).task⟩

/-- **What is left to do** for a process when no message is to come: it ends, or goes on in
`do_epoll`. -/
theorem Orphaned.step_heir {h : Heir} {a : HeirAct} {r : Heir × List Heir} (hs : s.Orphaned)
    (hh : h ∈ s.heirs) (hadmits : s.Admits a) (hne : a ≠ .call (.sockFdRead 0))
    (hr : h.step a = some r) : r.2 = [] ∧
      (r.1.process.pc = .exited ∨ h.process.pc = .doEpoll ∧ r.1.process.pc = .doEpoll) := by
  have htask : ¬ h.process.pc.Manager := hs.task _ (List.mem_map_of_mem hh)
  cases a with
  | call a =>
    obtain ⟨⟨p, new⟩, hp, rfl⟩ := Option.map_eq_some_iff.1 hr
    cases hpc : h.process.pc with
    | sockFdRead site =>
      unfold ForkProcess.step at hp
      rw [hpc] at hp
      cases a with
      | sockFdRead size =>
        -- a message would have to wait, and the stream does not end
        have hnonpos : ¬ 0 < size := fun hpos ↦ by
          have := hadmits.1 hpos
          rw [hs.waiting_eq] at this
          exact Nat.lt_irrefl 0 this
        have hzero : size ≠ 0 := fun heq ↦ hne (heq ▸ rfl)
        have hneg : size < 0 := by omega
        obtain ⟨rfl, rfl⟩ := Prod.mk.inj (Option.some.inj ((if_pos hneg).symm.trans hp))
        exact ⟨rfl, Or.inl rfl⟩
      | exit =>
        obtain ⟨rfl, rfl⟩ := Prod.mk.inj (Option.some.inj hp)
        exact ⟨rfl, Or.inl rfl⟩
      | _ => cases hp
    | doEpoll =>
      obtain ⟨rfl, rfl⟩ := Prod.mk.inj (Heir.step_of_doEpoll (Or.inl hpc) hp)
      exact ⟨rfl, Or.inl rfl⟩
    | exited =>
      obtain ⟨rfl, rfl⟩ := Prod.mk.inj (Heir.step_of_doEpoll (Or.inr hpc) hp)
      exact ⟨rfl, Or.inl rfl⟩
    | _ => exact absurd (hpc ▸ trivial) htask
  | sockFdWrite =>
    obtain ⟨⟨hpc, -⟩, -⟩ := Option.ite_none_right_eq_some.1 hr
    exact absurd (hpc ▸ trivial) htask
  | closeFile =>
    obtain ⟨hpc, h⟩ := Option.ite_none_right_eq_some.1 hr
    obtain rfl := Option.some.inj h
    exact ⟨rfl, Or.inr ⟨hpc, hpc⟩⟩

theorem Orphaned.step {act : ℕ × HeirAct} (hs : s.Orphaned) (h : s.step act = some s') :
    s'.Orphaned := by
  have horderly := hs.toOrderly.step h
  obtain ⟨k, a⟩ := act
  have hne : a ≠ .call (.sockFdRead 0) := fun ha ↦ hs.not_endOfStream (ha ▸ h)
  obtain ⟨hadmits, heirs, hstep, rfl⟩ := step_eq_some_iff.1 h
  obtain ⟨p, r, hp, hr, rfl⟩ := stepAt_eq_some_iff.1 hstep
  obtain ⟨hnew, hpc⟩ := hs.step_heir (List.mem_of_getElem? hp) hadmits hne hr
  refine ⟨horderly, fun q hq ↦ ?_, ?_⟩
  · obtain ⟨h', hh', rfl⟩ := List.mem_map.1 hq
    rw [hnew, List.append_nil] at hh'
    rcases List.mem_or_eq_of_mem_set hh' with hh' | rfl
    · exact hs.task _ (List.mem_map_of_mem hh')
    · rcases hpc with hpc | ⟨-, hpc⟩ <;> exact hpc ▸ id
  · cases a with
    | call a =>
      cases a with
      | sockFdRead size =>
        show (if 0 < size then s.waiting - 1 else s.waiting) = 0
        rw [hs.waiting_eq]
        exact ite_self 0
      | _ => exact hs.waiting_eq
    | sockFdWrite =>
      obtain ⟨⟨hstart, -⟩, -⟩ := Option.ite_none_right_eq_some.1 hr
      exact absurd (hstart ▸ trivial) (hs.task _ (List.mem_map_of_mem (List.mem_of_getElem? hp)))
    | closeFile => exact hs.waiting_eq

/-- Process `k` is `h`, or is gone. -/
def StillOrGone (k : ℕ) (h : Heir) (s : SharedPair) : Prop :=
  ∃ h', s.heirs[k]? = some h' ∧ (h' = h ∨ h'.process.pc = .exited)

theorem Orphaned.stillOrGone {act : ℕ × HeirAct} {k : ℕ} {h : Heir} {site : TaskSite}
    (hs : s.Orphaned) (hpc : h.process.pc = .sockFdRead site) (hk : s.StillOrGone k h)
    (hstep : s.step act = some s') : s'.StillOrGone k h := by
  obtain ⟨j, a⟩ := act
  have hne : a ≠ .call (.sockFdRead 0) := fun ha ↦ hs.not_endOfStream (ha ▸ hstep)
  obtain ⟨hadmits, heirs, hact, rfl⟩ := step_eq_some_iff.1 hstep
  obtain ⟨p, r, hp, hr, rfl⟩ := stepAt_eq_some_iff.1 hact
  obtain ⟨hnew, hr'⟩ := hs.step_heir (List.mem_of_getElem? hp) hadmits hne hr
  obtain ⟨h', hh', hstill⟩ := hk
  rw [StillOrGone, hnew, List.append_nil]
  by_cases hjk : j = k
  · subst hjk
    obtain rfl := Option.some.inj (hp.symm.trans hh')
    refine ⟨r.1, List.getElem?_set_self (List.getElem?_eq_some_iff.1 hp).1, Or.inr ?_⟩
    rcases hr' with hr' | ⟨hepoll, -⟩
    · exact hr'
    · rcases hstill with rfl | hgone
      · simp [hpc] at hepoll
      · simp [hgone] at hepoll
  · exact ⟨h', (List.getElem?_set_ne hjk).trans hh', hstill⟩

/-- **The stream never ends.** In every run of the manager and the processes it forks, with both
ends of the socketpair inherited, no call of `Sock_fd_read` returns `0`, and the children are
confined. When the manager is gone and no message waits, the children that wait in `Sock_fd_read`
wait there in every continuation of the run, until a signal or a failure ends them. -/
theorem not_endOfStream_of_runFrom (hrun : runFrom step initial acts = some s) :
    (∀ k, (k, .call (.sockFdRead 0)) ∉ acts) ∧ ChildrenConfined s.processes ∧
      (s.processes.head?.map ForkProcess.pc = some .exited → s.waiting = 0 →
        ∀ more t, runFrom step s more = some t → ∀ k h site, s.heirs[k]? = some h →
          h.process.pc = .sockFdRead site → t.StillOrGone k h) := by
  have hs := orderly_of_runFrom hrun
  refine ⟨fun k hk ↦ ?_, hs.settled.childrenConfined,
    fun hmanager hwaiting more t hmore k h site hh hpc ↦ ?_⟩
  · obtain ⟨before, after, rfl⟩ := List.append_of_mem hk
    obtain ⟨m, hm, hrest⟩ := runFrom_append_eq_some_iff.1 hrun
    obtain ⟨m', hstep, -⟩ := runFrom_cons_eq_some_iff.1 hrest
    exact (orderly_of_runFrom hm).not_endOfStream hstep
  · have horphaned := hs.orphaned hmanager hwaiting
    exact (invariant_of_runFrom (fun t ↦ t.Orphaned ∧ t.StillOrGone k h)
      (fun ht hstep ↦ ⟨ht.1.step hstep, ht.1.stillOrGone hpc ht.2 hstep⟩) hmore
      ⟨horphaned, h, hh, Or.inl rfl⟩).2

/-- The manager forks its children, passes a client on to the first of them, and is killed. -/
def orphaning : List (ℕ × HeirAct) :=
  managerForks.map (fun act ↦ (act.1, .call act.2)) ++
    [(0, .sockFdWrite), (1, .call (.sockFdRead 2)), (0, .call .exit)]

/-- The second child waits, and goes on waiting. -/
theorem not_endOfStream_of_orphaning :
    ∃ s, runFrom step initial orphaning = some s ∧ ChildrenConfined s.processes ∧
      ∃ h ∈ s.heirs[2]?, h.process.pc = .sockFdRead (.initManagerProc 1) ∧
        ∀ more t, runFrom step s more = some t → t.StillOrGone 2 h := by
  have hrun : runFrom step initial orphaning = some _ := rfl
  obtain ⟨-, hconfined, hwait⟩ := not_endOfStream_of_runFrom hrun
  exact ⟨_, hrun, hconfined, _, rfl, rfl,
    fun more t hmore ↦ hwait rfl rfl more t hmore 2 _ _ rfl rfl⟩

end SharedPair

end PreforkHttpd
