import PreforkHttpd.Pool.Counter

/-!
# When the pool stays within its capacity

A pool is created with `NPROC_MAX_NUM` nodes, and no more than that many workers are meant to be
registered. `insert_pool_obj` respects this by construction: it only fills nodes that exist.
`insert_pool` adds a node, and its guard reads the counter, which does not count the nodes it adds
(`PreforkHttpd.Pool.Counter`), so the guard lets it through however long the list is.

What bounds the registered workers is the **length of the list**. `Pushed p op` says that a step
which gets past the guard finds the list shorter than `NPROC_MAX_NUM`: a node is pushed only in the
place of one that was removed. On the runs that keep to it the list never outgrows its capacity
(`length_le_of_along`).

A step that breaks the condition leaves an eleventh node in the list. That alone need not be one
worker too many, but a node is as good as a worker: calls of `insert_pool_obj` fill whatever is
unfilled (`exists_fill`), so the run up to that step extends to one that registers more than
`NPROC_MAX_NUM` (`registered_le_capacity`).
-/

open LabelledRun

namespace PreforkHttpd

namespace ProcPool

variable {p p' : ProcPool}

/-- A step that pushes a node finds the list shorter than the capacity: for `insert_pool`, when the
counter lets it through; for `handler_dead_processor`, after its deletion. -/
def Pushed (p : ProcPool) : PoolOp → Prop
  | .insertPool _ => p.nProc < nprocMaxNum → p.pids.length < nprocMaxNum
  | .handlerDeadProcessor pid _ =>
    p.nProc - 1 < nprocMaxNum → (p.pids.erase ↑pid).length < nprocMaxNum
  | _ => True

instance (p : ProcPool) : DecidablePred p.Pushed
  | .insertPool _ => inferInstanceAs (Decidable (p.nProc < nprocMaxNum → _))
  | .handlerDeadProcessor _ _ => inferInstanceAs (Decidable (p.nProc - 1 < nprocMaxNum → _))
  | .insertPoolObj _ | .deletePoolObj _ | .noticeChild | .setStatusOk _ =>
    inferInstanceAs (Decidable True)

/-- The list has not outgrown the capacity. -/
def LengthBound (p : ProcPool) : Prop := p.pids.length ≤ nprocMaxNum

theorem length_erase_le_of_lengthBound {pid : ℤ} (hp : p.LengthBound) :
    (p.pids.erase pid).length ≤ nprocMaxNum :=
  List.length_erase_le.trans hp

/-- **Pushing only into room keeps the bound.** -/
theorem LengthBound.step {op : PoolOp} (hp : p.LengthBound) (hroom : p.Pushed op)
    (h : p.step op = some p') : p'.LengthBound := by
  cases op with
  | insertPoolObj pid =>
    obtain ⟨-, rfl⟩ | ⟨xs, ys, hold, hnew, -⟩ := insertPoolObj_cases h
    · exact hp
    · unfold LengthBound at hp ⊢
      rw [hold] at hp
      rw [hnew]
      simpa using hp
  | insertPool pid =>
    obtain rfl := Option.some.inj h
    rcases lt_or_ge p.nProc nprocMaxNum with hlt | hge
    · rw [LengthBound, (insertPool_of_lt _ hlt).1, List.length_cons]
      exact hroom hlt
    · rwa [insertPool_of_le _ hge]
  | deletePoolObj pid =>
    rw [LengthBound, (deletePoolObj_view h).1]
    exact length_erase_le_of_lengthBound hp
  | noticeChild =>
    obtain ⟨⟨c, q⟩, hq, rfl⟩ := Option.map_eq_some_iff.1 h
    rwa [LengthBound, (noticeChild_view hq).1]
  | setStatusOk pid =>
    obtain rfl := Option.some.inj h
    rwa [LengthBound, (setStatusOk_view pid p).1]
  | handlerDeadProcessor pid child =>
    obtain ⟨-, -, ⟨hlt, hpids⟩ | ⟨-, hpids⟩⟩ := handlerDeadProcessor_cases h
    · rw [LengthBound, hpids, List.length_cons]
      exact hroom hlt
    · rw [LengthBound, hpids]
      exact length_erase_le_of_lengthBound hp

/-- A step that breaks the condition leaves the list longer than the capacity. -/
theorem length_gt_of_not_pushed {op : PoolOp} (hroom : ¬ p.Pushed op) (h : p.step op = some p') :
    nprocMaxNum < p'.pids.length := by
  cases op with
  | insertPool pid =>
    obtain rfl := Option.some.inj h
    obtain ⟨hlt, hfull⟩ := Classical.not_imp.1 hroom
    rw [(insertPool_of_lt _ hlt).1, List.length_cons]
    omega
  | handlerDeadProcessor pid child =>
    obtain ⟨hlt, hfull⟩ := Classical.not_imp.1 hroom
    obtain ⟨-, -, ⟨-, hpids⟩ | ⟨hge, -⟩⟩ := handlerDeadProcessor_cases h
    · rw [hpids, List.length_cons]
      omega
    · omega
  | _ => exact absurd trivial hroom

/-- On a run that only pushes into room, the list stays within the capacity. -/
theorem length_le_of_along {ops : List PoolOp} (hrun : runFrom step initial ops = some p)
    (halong : Along step Pushed initial ops) : p.pids.length ≤ nprocMaxNum :=
  invariant_of_along LengthBound.step hrun halong (le_refl nprocMaxNum)

/-! ### Every node can be filled -/

/-- As long as a node is unfilled, `insert_pool_obj` fills one. -/
theorem insertPoolObj_of_unfilled {pid : ℤ} (hpid : pid ≠ -1) (hp : p.CounterBound)
    (h : 0 < p.unfilled) :
    ∃ q, insertPoolObj pid p = some q ∧ q.unfilled + 1 = p.unfilled ∧
      q.pids.length = p.pids.length := by
  obtain ⟨hlo, hup⟩ := hp
  have hmem : -1 ∈ p.pids := by
    obtain ⟨a, ha, ha'⟩ := List.countP_pos_iff.1 h
    exact of_decide_eq_true ha' ▸ ha
  rcases hslot : fillSlot pid p.nodes with - | nodes
  · exact absurd hmem (fillSlot_eq_none_iff.1 hslot)
  · obtain ⟨xs, ys, hold, hnew⟩ := map_pid_of_fillSlot hslot
    let q : ProcPool := { nProc := p.nProc + 1, nodes := nodes }
    have hmax : (nprocMaxNum : ℤ) = 10 := rfl
    have hn : int32 (p.nProc + 1) = some (p.nProc + 1) :=
      int32_eq_some_iff.2 ⟨rfl, by omega, by omega⟩
    have hnew' : q.pids = xs ++ pid :: ys := hnew
    refine ⟨q, ?_, (counts_of_fill hpid hold hnew').2, ?_⟩
    · simp only [insertPoolObj, hslot, hn, Option.map_some, q]
    · rw [pids, pids, hold, hnew, List.length_append, List.length_append]
      rfl

/-- **A node is as good as a worker**: filling what is unfilled registers every node of the list. -/
theorem exists_fill (hp : p.CounterBound) :
    ∃ (pids : List Pid) (q : ProcPool), runFrom step p (pids.map .insertPoolObj) = some q ∧
      q.registered = p.pids.length := by
  induction hu : p.unfilled generalizing p with
  | zero =>
    refine ⟨[], p, rfl, ?_⟩
    rw [← registered_add_unfilled, hu, Nat.add_zero]
  | succ n ih =>
    let pid : Pid := ⟨1, by decide⟩
    obtain ⟨q, hq, hqu, hlen⟩ := insertPoolObj_of_unfilled pid.ne_neg_one hp (by omega)
    have hstep : p.step (.insertPoolObj pid) = some q := hq
    obtain ⟨pids, r, hrun, hreg⟩ := ih (hp.step hstep) (by omega)
    exact ⟨pid :: pids, r, runFrom_cons_eq_some_iff.2 ⟨q, hstep, hrun⟩, hreg.trans hlen⟩

/-! ### The capacity -/

/-- A run that only pushes into room ends with no more workers registered than there is room for. -/
theorem registered_le_of_along {ops : List PoolOp} (hrun : runFrom step initial ops = some p)
    (halong : Along step Pushed initial ops) : p.registered ≤ nprocMaxNum := by
  have hlen := length_le_of_along hrun halong
  have := registered_add_unfilled p
  omega

/-- **A break of the condition extends** to too many workers: a run that once pushes without room
has a beginning which calls of `insert_pool_obj` extend to such a pool. -/
theorem exists_overfull_of_not_along {ops : List PoolOp} (hrun : runFrom step initial ops = some p)
    (halong : ¬ Along step Pushed initial ops) :
    ∃ before, before <+: ops ∧ ∃ (pids : List Pid) (q : ProcPool),
      runFrom step initial (before ++ pids.map .insertPoolObj) = some q ∧
        nprocMaxNum < q.registered := by
  obtain ⟨before, op, rest, m, rfl, hm, hbreak⟩ := exists_break_of_not_along hrun halong
  obtain ⟨m', hm', hrest⟩ := runFrom_append_eq_some_iff.1 hrun
  obtain rfl := Option.some.inj (hm.symm.trans hm')
  obtain ⟨s, hs, -⟩ := runFrom_cons_eq_some_iff.1 hrest
  -- the push without room leaves an eleventh node, which is then filled
  have hpush : runFrom step initial (before ++ [op]) = some s :=
    runFrom_append_eq_some_iff.2 ⟨m, hm, runFrom_cons_eq_some_iff.2 ⟨s, hs, rfl⟩⟩
  obtain ⟨pids, q, hfill, hreg⟩ :=
    exists_fill (invariant_of_runFrom CounterBound CounterBound.step hpush counterBound_initial)
  refine ⟨before ++ [op], ⟨rest, by simp⟩, pids, q, ?_, ?_⟩
  · exact runFrom_append_eq_some_iff.2 ⟨s, hpush, hfill⟩
  · exact hreg ▸ length_gt_of_not_pushed hbreak hs

/-- **When the pool stays within its capacity.** If every push of a run finds room in the list, at
most `NPROC_MAX_NUM` workers are registered at its end; and if one does not, the run up to it
extends, by calls of `insert_pool_obj` alone, to one that registers more. -/
theorem registered_le_capacity {ops : List PoolOp} (hrun : runFrom step initial ops = some p) :
    (Along step Pushed initial ops → p.registered ≤ nprocMaxNum) ∧
      (¬ Along step Pushed initial ops →
        ∃ before, before <+: ops ∧ ∃ (pids : List Pid) (q : ProcPool),
          runFrom step initial (before ++ pids.map .insertPoolObj) = some q ∧
            nprocMaxNum < q.registered) :=
  ⟨registered_le_of_along hrun, exists_overfull_of_not_along hrun⟩

/-- The capacity after start-up and one replaced worker. -/
theorem registered_le_capacity_restart :
    ∃ p, runFrom step initial restart = some p ∧ p.registered ≤ nprocMaxNum := by
  have hrun : runFrom step initial restart = some _ := rfl
  exact ⟨_, hrun, (registered_le_capacity hrun).1 (by decide)⟩

/-- Eleven calls of `insert_pool` register eleven workers: the counter stays at zero. -/
theorem registered_gt_capacity_of_insertPool :
    ∃ p, runFrom step initial ((List.range 11).map fun i : ℕ ↦ .insertPool (nthPid i)) = some p ∧
      nprocMaxNum < p.registered :=
  ⟨_, rfl, by decide⟩

end ProcPool

end PreforkHttpd
