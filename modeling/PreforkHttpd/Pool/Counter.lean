import PreforkHttpd.Pool.ProcPool

/-!
# When the process counter is exact

`n_proc` is meant to count the registered workers, and `insert_pool` trusts it to. It is kept by
hand in three operations, and it drifts: `insert_pool` registers without counting, and
`delete_pool_obj` counts down even when it removes nothing.

The **surplus** `registered - n_proc` measures the drift. No operation ever lowers it
(`surplus_drifts`): a missed count is never made up for. So the counter is exact at the end of a run
precisely when every step of the run was one of the steps that keep it (`Counted`), which is
`nProc_eq_registered_iff`.

`handler_dead_processor` is never such a step. Its deletion leaves the counter below
`NPROC_MAX_NUM` (`CounterBound`), so the guard of `insert_pool` lets the new worker in, uncounted.
-/

open LabelledRun

namespace PreforkHttpd

theorem Pid.ne_neg_one (pid : Pid) : (pid : ℤ) ≠ -1 := by
  have := pid.2
  omega

namespace ProcPool

/-! ### How a change of the pids changes the counts -/

variable {p p' : ProcPool} {pid : ℤ}

theorem counts_of_fill {xs ys : List ℤ} (hpid : pid ≠ -1) (hold : p.pids = xs ++ -1 :: ys)
    (hnew : p'.pids = xs ++ pid :: ys) :
    p'.registered = p.registered + 1 ∧ p'.unfilled + 1 = p.unfilled := by
  simp only [registered, unfilled, hold, hnew, List.countP_append, List.countP_cons]
  simp [hpid]
  omega

theorem counts_of_push {l : List ℤ} (hpid : pid ≠ -1) (hnew : p'.pids = pid :: l) :
    p'.registered = l.countP (· ≠ -1) + 1 ∧ p'.unfilled = l.countP (· = -1) := by
  simp [registered, unfilled, hnew, hpid]

theorem counts_of_erase (hpid : pid ≠ -1) (hmem : pid ∈ p.pids) :
    (p.pids.erase pid).countP (· ≠ -1) + 1 = p.registered ∧
      (p.pids.erase pid).countP (· = -1) = p.unfilled := by
  have hperm := List.perm_cons_erase hmem
  rw [registered, unfilled, hperm.countP_eq, hperm.countP_eq]
  simp [hpid]

/-! ### The bound on the counter -/

/-- The counter is an `int`, and never counts more than the slots that were handed out. -/
structure CounterBound (p : ProcPool) : Prop where
  lower : -2147483648 ≤ p.nProc
  upper : p.nProc + p.unfilled ≤ nprocMaxNum

theorem counterBound_initial : initial.CounterBound where
  lower := by decide
  upper := by decide

theorem unfilled_erase (pid : Pid) (p : ProcPool) :
    (p.pids.erase ↑pid).countP (· = -1) = p.unfilled := by
  by_cases hmem : ↑pid ∈ p.pids
  · exact (counts_of_erase pid.ne_neg_one hmem).2
  · rw [List.erase_of_not_mem hmem, unfilled]

theorem CounterBound.step {op : PoolOp} (hp : p.CounterBound) (h : p.step op = some p') :
    p'.CounterBound := by
  obtain ⟨hlo, hup⟩ := hp
  cases op with
  | insertPoolObj pid =>
    obtain ⟨-, rfl⟩ | ⟨xs, ys, hold, hnew, hn⟩ := insertPoolObj_cases h
    · exact ⟨hlo, hup⟩
    · have := (counts_of_fill pid.ne_neg_one hold hnew).2
      constructor <;> omega
  | insertPool pid =>
    obtain rfl := Option.some.inj h
    rcases lt_or_ge p.nProc nprocMaxNum with hlt | hge
    · obtain ⟨hpids, hn⟩ := insertPool_of_lt pid hlt
      have hunfilled := (counts_of_push pid.ne_neg_one hpids).2
      exact ⟨hn ▸ hlo, by rw [hn, hunfilled]; exact hup⟩
    · rw [insertPool_of_le _ hge]
      exact ⟨hlo, hup⟩
  | deletePoolObj pid =>
    obtain ⟨hpids, hn, hlo'⟩ := deletePoolObj_view h
    refine ⟨hlo', ?_⟩
    rw [unfilled, hpids, unfilled_erase, hn]
    omega
  | noticeChild =>
    obtain ⟨⟨c, q⟩, hq, rfl⟩ := Option.map_eq_some_iff.1 h
    obtain ⟨hpids, hn⟩ := noticeChild_view hq
    exact ⟨hn ▸ hlo, by rwa [unfilled, hpids, hn]⟩
  | setStatusOk pid =>
    obtain rfl := Option.some.inj h
    obtain ⟨hpids, hn⟩ := setStatusOk_view pid p
    exact ⟨hlo, by rwa [unfilled, hpids, hn]⟩
  | handlerDeadProcessor pid child =>
    obtain ⟨hn, hlo', hcases⟩ := handlerDeadProcessor_cases h
    refine ⟨hlo', ?_⟩
    obtain ⟨-, hpids⟩ | ⟨-, hpids⟩ := hcases
    · have := (counts_of_push child.ne_neg_one hpids).2
      rw [this, unfilled_erase, hn]
      omega
    · rw [unfilled, hpids, unfilled_erase, hn]
      omega

/-! ### The surplus -/

/-- The steps that keep the counter exact: `insert_pool` only when the counter makes it do nothing,
`delete_pool_obj` only for a pid that is in the pool, and no `handler_dead_processor`. -/
def Counted (p : ProcPool) : PoolOp → Prop
  | .insertPool _ => nprocMaxNum ≤ p.nProc
  | .deletePoolObj pid => ↑pid ∈ p.pids
  | .handlerDeadProcessor _ _ => False
  | _ => True

instance (p : ProcPool) (op : PoolOp) : Decidable (p.Counted op) := by
  cases op <;> unfold Counted <;> infer_instance

/-- How many registered workers the counter misses. -/
def surplus (p : ProcPool) : ℤ := p.registered - p.nProc

/-- **A missed count is never made up for.** -/
theorem surplus_drifts : Drifts step CounterBound Counted surplus := by
  intro p op p' hp h
  unfold surplus
  cases op with
  | insertPoolObj pid =>
    refine ⟨fun _ ↦ ?_, fun hc ↦ absurd trivial hc⟩
    obtain ⟨-, rfl⟩ | ⟨xs, ys, hold, hnew, hn⟩ := insertPoolObj_cases h
    · rfl
    · have := (counts_of_fill pid.ne_neg_one hold hnew).1
      omega
  | insertPool pid =>
    obtain rfl := Option.some.inj h
    refine ⟨fun hc ↦ by rw [insertPool_of_le _ hc], fun hc ↦ ?_⟩
    obtain ⟨hpids, hn⟩ := insertPool_of_lt pid (not_le.1 hc)
    have : (insertPool ↑pid p).registered = p.registered + 1 :=
      (counts_of_push pid.ne_neg_one hpids).1
    omega
  | deletePoolObj pid =>
    obtain ⟨hpids, hn, -⟩ := deletePoolObj_view h
    refine ⟨fun hmem ↦ ?_, fun hmem ↦ ?_⟩
    · have : p'.registered + 1 = p.registered := by
        rw [← (counts_of_erase pid.ne_neg_one hmem).1, registered, hpids]
      omega
    · have : p'.registered = p.registered := by
        rw [registered, hpids, List.erase_of_not_mem hmem, registered]
      omega
  | noticeChild =>
    refine ⟨fun _ ↦ ?_, fun hc ↦ absurd trivial hc⟩
    obtain ⟨⟨c, q⟩, hq, rfl⟩ := Option.map_eq_some_iff.1 h
    obtain ⟨hpids, hn⟩ := noticeChild_view hq
    simp only [registered, hpids, hn]
  | setStatusOk pid =>
    refine ⟨fun _ ↦ ?_, fun hc ↦ absurd trivial hc⟩
    obtain rfl := Option.some.inj h
    obtain ⟨hpids, hn⟩ := setStatusOk_view pid p
    simp only [registered, hpids, hn]
  | handlerDeadProcessor pid child =>
    refine ⟨False.elim, fun _ ↦ ?_⟩
    obtain ⟨hn, -, hcases⟩ := handlerDeadProcessor_cases h
    have hup := hp.upper
    obtain ⟨-, hpids⟩ | ⟨hge, -⟩ := hcases
    · -- at most one worker goes, one comes, and the counter only goes down
      have hnew := (counts_of_push child.ne_neg_one hpids).1
      have hold : p.registered ≤ (p.pids.erase ↑pid).countP (· ≠ -1) + 1 := by
        by_cases hmem : ↑pid ∈ p.pids
        · exact (counts_of_erase pid.ne_neg_one hmem).1.ge
        · rw [List.erase_of_not_mem hmem, registered]
          exact Nat.le_succ _
      omega
    · omega

/-- **When the counter is exact.** After a run from the freshly created pool, `n_proc` is the number
of registered workers if and only if every step of the run was a counted one. -/
theorem nProc_eq_registered_iff {ops : List PoolOp} {p : ProcPool}
    (hrun : runFrom step initial ops = some p) :
    p.nProc = p.registered ↔ Along step Counted initial ops := by
  rw [← drift_eq_iff_along surplus_drifts CounterBound.step hrun counterBound_initial]
  have hinit : surplus initial = 0 := rfl
  rw [hinit, surplus]
  omega

/-- The pids from `1` on. -/
def nthPid (i : ℕ) : Pid := ⟨(i : ℤ) + 1, by omega⟩

/-- The calls by which `init_manager_proc` registers its workers, with pids `1` to `10`. -/
def startUp : List PoolOp :=
  (List.range nprocMaxNum).map fun i : ℕ ↦ .insertPoolObj (nthPid i)

/-- Start-up, and then one worker found dead and replaced. -/
def restart : List PoolOp :=
  startUp ++ [.handlerDeadProcessor ⟨3, by decide⟩ ⟨11, by decide⟩]

/-- After start-up the counter is exact, and only counted steps were taken. -/
theorem nProc_eq_registered_iff_startUp :
    ∃ p, runFrom step initial startUp = some p ∧
      (p.nProc = p.registered ↔ Along step Counted initial startUp) :=
  ⟨_, rfl, nProc_eq_registered_iff rfl⟩

/-- Replacing one dead worker after start-up leaves ten workers registered and nine counted. -/
theorem nProc_ne_registered_of_restart :
    ∃ p, runFrom step initial restart = some p ∧ p.nProc ≠ p.registered :=
  ⟨_, rfl, by decide⟩

end ProcPool

end PreforkHttpd
