import PreforkHttpd.Pool.Counter

/-!
# When the two ways of registering a worker agree

`insert_pool_obj` and `insert_pool` are both calls for "a new worker, please", and a caller should
not have to care which one it makes. They are kept within the capacity by different things:
`insert_pool_obj` by the list, which must have an unfilled node, and `insert_pool` by the counter,
which must be below `NPROC_MAX_NUM`. And only the first of them counts.

Below the capacity they cannot agree (`SameEffect.le_nProc`). If there is an unfilled node, the one
counts the worker and the other does not; if there is none, the other registers it and the one does
nothing. At the capacity neither does anything, for the counter never counts more than the nodes
that were handed out (`CounterBound`), so that a full count leaves no node unfilled.
-/

open LabelledRun

namespace PreforkHttpd

namespace ProcPool

/-- Both calls return, and leave the same counter and the same set of registered pids. -/
def SameEffect (pid : ℤ) (p : ProcPool) : Prop :=
  ∃ q, insertPoolObj pid p = some q ∧ q.nProc = (insertPool pid p).nProc ∧
    ∀ a ≠ -1, a ∈ q.pids ↔ a ∈ (insertPool pid p).pids

/-- The worker has been registered: it is in exactly one node, and has been counted. -/
def RegisteredOnce (pid : ℤ) (p q : ProcPool) : Prop :=
  q.pids.count pid = 1 ∧ q.nProc = p.nProc + 1

/-- **The two ways agree**: they have the same effect, below the capacity each registers the worker,
and at the capacity neither does anything. -/
structure RegistersAlike (pid : ℤ) (p : ProcPool) : Prop where
  same : SameEffect pid p
  below : p.nProc < nprocMaxNum →
    (∃ q, insertPoolObj pid p = some q ∧ RegisteredOnce pid p q) ∧
      RegisteredOnce pid p (insertPool pid p)
  full : p.nProc = nprocMaxNum → insertPoolObj pid p = some p ∧ insertPool pid p = p

variable {p : ProcPool} {pid : ℤ}

/-- Where the calls have the same effect on a new worker, the counter is not below the capacity. -/
theorem SameEffect.le_nProc (h : SameEffect pid p) (hpid : pid ≠ -1) (hnew : pid ∉ p.pids) :
    nprocMaxNum ≤ p.nProc := by
  by_contra hlt
  obtain ⟨q, hq, hcount, hpids⟩ := h
  obtain ⟨hpushed, hkept⟩ := insertPool_of_lt pid (not_le.1 hlt)
  obtain ⟨-, rfl⟩ | ⟨xs, ys, -, -, hn⟩ := insertPoolObj_cases hq
  · -- without an unfilled node only `insert_pool` registers the worker
    refine hnew ((hpids pid hpid).2 ?_)
    rw [hpushed]
    exact List.mem_cons_self
  · -- with one, only `insert_pool_obj` counts it
    omega

/-- At the capacity no node is unfilled, and neither call does anything. -/
theorem CounterBound.insert_eq (hp : p.CounterBound) (hfull : p.nProc = nprocMaxNum) (pid : ℤ) :
    insertPoolObj pid p = some p ∧ insertPool pid p = p := by
  have hup := hp.upper
  have hunfilled : p.pids.countP (· = -1) = 0 := by
    show p.unfilled = 0
    omega
  have hmem : -1 ∉ p.pids := fun hmem ↦ by
    simpa using List.countP_eq_zero.1 hunfilled (-1) hmem
  refine ⟨?_, insertPool_of_le pid hfull.ge⟩
  rw [insertPoolObj, fillSlot_eq_none_iff.2 hmem]

/-- **When the two ways of registering agree.** For a pool that a run from `create_proc_pool` leads
to, and a worker that is not in it: exactly when the counter is at the capacity. -/
theorem registersAlike_iff {ops : List PoolOp} (hrun : runFrom step initial ops = some p)
    (pid : Pid) (hnew : ↑pid ∉ p.pids) : RegistersAlike pid p ↔ p.nProc = nprocMaxNum := by
  have hp : p.CounterBound :=
    invariant_of_runFrom CounterBound CounterBound.step hrun counterBound_initial
  refine ⟨fun h ↦ ?_, fun hfull ↦ ?_⟩
  · have hle := h.same.le_nProc pid.ne_neg_one hnew
    have hup := hp.upper
    omega
  · obtain ⟨hobj, hpool⟩ := hp.insert_eq hfull pid
    refine ⟨⟨p, hobj, by rw [hpool], fun a _ ↦ by rw [hpool]⟩, fun hlt ↦ ?_, fun _ ↦ ⟨hobj, hpool⟩⟩
    exact absurd hfull hlt.ne

/-- An eleventh worker, after start-up: the counter is at the capacity. -/
theorem registersAlike_iff_startUp :
    ∃ p, runFrom step initial startUp = some p ∧ RegistersAlike 11 p := by
  have hrun : runFrom step initial startUp = some _ := rfl
  exact ⟨_, hrun, (registersAlike_iff hrun (nthPid 10) (by decide)).2 rfl⟩

/-- In the pool as it is created, `insert_pool_obj` registers worker `1` and counts it, and
`insert_pool` leaves the counter at zero. -/
theorem not_registersAlike_initial :
    (∃ q, insertPoolObj 1 initial = some q ∧ q.nProc = 1) ∧ (insertPool 1 initial).nProc = 0 ∧
      ¬ RegistersAlike 1 initial := by
  refine ⟨⟨_, rfl, rfl⟩, rfl, fun h ↦ ?_⟩
  exact absurd (h.same.le_nProc (by decide) (by decide)) (by decide)

end ProcPool

end PreforkHttpd
