import PreforkHttpd.Pool.Counter
import Mathlib.Data.Finset.Insert
import Mathlib.Data.Finset.Erase

/-!
# Who is signalled at the end

`tell_chld_exit` sends `SIGINT` to the pid of every node of the pool. It reads nothing but the pid
fields, so whom it signals depends on everything that has ever been written there, and two things
besides a worker's pid have:

* `proc_alloc` marks a node that has no worker with `-1`, and `kill(-1, SIGINT)` goes to every
  process the user may signal;
* the query `cross_ok` compares with `=` where `==` was meant. The expression
  `item->pid=pid&&item->status==1` **assigns** the truth value of `pid && item->status == 1` to the
  pid field of every node that it passes, and `kill(0, SIGINT)` goes to the whole process group.

The pool is followed together with its history, the set of pids that were registered in it and not
deleted since. A step is `Tracked` when it registers no pid twice and its `cross_ok` has nothing to
overwrite; on the runs of such steps the pool is a faithful record of the history (`Recorded`), and
`tell_chld_exit` signals the workers and nobody else exactly when no node is left unfilled. Right
after the first step that is not `Tracked` it signals the wrong processes for certain.
-/

open LabelledRun

namespace PreforkHttpd

/-- The loop of `cross_ok` from a node on: its result, and the nodes with what it has assigned to
their pids. It stops at the first node whose status is `1`, if the pid asked for is not `0`. -/
def crossScan (pid : ℤ) : List Processor → ℤ × List Processor
  | [] => (-1, [])
  | item :: items =>
    if pid ≠ 0 ∧ item.status = 1 then (0, { item with pid := 1 } :: items)
    else ((crossScan pid items).1, { item with pid := 0 } :: (crossScan pid items).2)

namespace ProcPool

/-- `cross_ok`. -/
def crossOk (pid : ℤ) (p : ProcPool) : ℤ × ProcPool :=
  ((crossScan pid p.nodes).1, { p with nodes := (crossScan pid p.nodes).2 })

/-- `tell_chld_exit`: the first arguments of its calls of `kill`, in order. -/
def tellChldExit (p : ProcPool) : List ℤ := p.nodes.map Processor.pid

theorem tellChldExit_eq (p : ProcPool) : tellChldExit p = p.pids := rfl

/-- `cross_ok` leaves a first node that is ready with pid `1`, and any other first node with
pid `0`. -/
theorem pids_crossOk_cons {pid : ℤ} (hpid : pid ≠ 0) (n : ℤ) (item : Processor)
    (items : List Processor) :
    (crossOk pid { nProc := n, nodes := item :: items }).2.pids =
      if item.status = 1 then 1 :: items.map Processor.pid
      else 0 :: (crossScan pid items).2.map Processor.pid := by
  rw [crossOk, pids]
  show (crossScan pid (item :: items)).2.map Processor.pid = _
  rw [crossScan]
  simp only [hpid, ne_eq, not_false_eq_true, true_and]
  split <;> rfl

theorem pids_createProcPool (p : ProcPool) :
    (createProcPool p).pids = List.replicate nprocMaxNum (-1) ++ p.pids := rfl

end ProcPool

open ProcPool

/-! ### The pool and its history -/

/-- The pool, with the pids registered in it and not deleted since. -/
structure Roster where
  pool : ProcPool
  live : Finset ℤ

/-- What can be done with the pool, with any pid of a process. -/
inductive RosterOp
  | createProcPool
  | insertPoolObj (pid : Pid)
  | insertPool (pid : Pid)
  | deletePoolObj (pid : Pid)
  | noticeChild
  | setStatusOk (pid : Pid)
  | crossOk (pid : Pid)
deriving DecidableEq

namespace Roster

/-- One operation. A pid is registered when `insert_pool_obj` finds an unfilled node for it, and
when the counter lets `insert_pool` push a node for it. -/
def step (s : Roster) : RosterOp → Option Roster
  | .createProcPool => some { s with pool := createProcPool s.pool }
  | .insertPoolObj pid => (insertPoolObj pid s.pool).map fun p ↦
      { pool := p, live := if -1 ∈ s.pool.pids then insert ↑pid s.live else s.live }
  | .insertPool pid => some
      { pool := insertPool pid s.pool
        live := if s.pool.nProc < nprocMaxNum then insert ↑pid s.live else s.live }
  | .deletePoolObj pid => (deletePoolObj pid s.pool).map fun p ↦
      { pool := p, live := s.live.erase pid }
  | .noticeChild => (noticeChild s.pool).map fun r ↦ { s with pool := r.2 }
  | .setStatusOk pid => some { s with pool := setStatusOk pid s.pool }
  | .crossOk pid => some { s with pool := (crossOk pid s.pool).2 }

/-- `proc_pool` as `SLIST_HEAD_INITIALIZER` leaves it, and no worker. -/
def start : Roster where
  pool := { nProc := 0, nodes := [] }
  live := ∅

/-- **Only workers are signalled**: `tell_chld_exit` calls `kill` once for each worker registered
and not deleted, and for nothing else. -/
def OnlyWorkers (s : Roster) : Prop :=
  ∀ pid, (tellChldExit s.pool).count pid = if pid ∈ s.live then 1 else 0

/-- The steps that leave the pool a record of its workers: a pid is registered only when it is not
in the pool, and `cross_ok` is called only when it would assign nothing new, on an empty list or
with a first node that is ready and has pid `1`. -/
def Tracked (s : Roster) : RosterOp → Prop
  | .insertPoolObj pid => -1 ∈ s.pool.pids → ↑pid ∉ s.pool.pids
  | .insertPool pid => s.pool.nProc < nprocMaxNum → ↑pid ∉ s.pool.pids
  | .crossOk _ => ∀ item ∈ s.pool.nodes.head?, item.status = 1 ∧ item.pid = 1
  | _ => True

instance (s : Roster) : DecidablePred s.Tracked
  | .insertPoolObj pid => inferInstanceAs (Decidable (-1 ∈ s.pool.pids → ↑pid ∉ s.pool.pids))
  | .insertPool pid => inferInstanceAs (Decidable (s.pool.nProc < nprocMaxNum → ↑pid ∉ s.pool.pids))
  | .crossOk _ => inferInstanceAs (Decidable (∀ item ∈ s.pool.nodes.head?, _ ∧ _))
  | .createProcPool | .deletePoolObj _ | .noticeChild | .setStatusOk _ =>
    inferInstanceAs (Decidable True)

/-! ### The record -/

variable {s s' : Roster}

/-- What is kept along tracked steps: apart from the mark of an unfilled node, the pids of the pool
are the live workers, once each. -/
structure Recorded (s : Roster) : Prop where
  count_eq : ∀ a ≠ -1, s.pool.pids.count a = if a ∈ s.live then 1 else 0
  pos : ∀ a ∈ s.live, 0 < a

theorem recorded_start : start.Recorded where
  count_eq _ _ := rfl
  pos a ha := absurd ha (Finset.notMem_empty a)

/-- On a faithful record, **only the mark of an unfilled node** can be signalled by mistake. -/
theorem Recorded.onlyWorkers_iff_notMem (hs : s.Recorded) : s.OnlyWorkers ↔ -1 ∉ s.pool.pids := by
  have hlive : -1 ∉ s.live := fun h ↦ by
    have := hs.pos _ h
    omega
  refine ⟨fun h ↦ ?_, fun h a ↦ ?_⟩
  · rw [← List.count_eq_zero]
    exact (h (-1)).trans (if_neg hlive)
  · by_cases ha : a = -1
    · rw [ha, if_neg hlive]
      exact List.count_eq_zero.2 h
    · exact hs.count_eq a ha

/-- A change that leaves the pids and the live workers as they are. -/
theorem Recorded.of_pids_eq (hs : s.Recorded) (hpids : s'.pool.pids = s.pool.pids)
    (hlive : s'.live = s.live) : s'.Recorded := by
  obtain ⟨hcount, hpos⟩ := hs
  exact ⟨hpids ▸ hlive ▸ hcount, hlive ▸ hpos⟩

/-- The worker `pid` has been registered: the pool has one more node with this pid. -/
structure Registers (pid : ℤ) (s s' : Roster) : Prop where
  count_eq : ∀ a ≠ -1, s'.pool.pids.count a = s.pool.pids.count a + if pid = a then 1 else 0
  live_eq : s'.live = insert pid s.live

/-- A call of `insert_pool_obj` registers its pid or changes nothing. -/
theorem insertPoolObj_registers {pid : Pid} (h : s.step (.insertPoolObj pid) = some s') :
    (-1 ∉ s.pool.pids ∧ s' = s) ∨ (-1 ∈ s.pool.pids ∧ Registers pid s s') := by
  obtain ⟨p, hp, rfl⟩ := Option.map_eq_some_iff.1 h
  obtain ⟨hmem, rfl⟩ | ⟨xs, ys, hold, hnew, -⟩ := insertPoolObj_cases hp
  · exact Or.inl ⟨hmem, by rw [if_neg hmem]⟩
  · have hmem : -1 ∈ s.pool.pids := by
      rw [hold]
      exact List.mem_append_right _ List.mem_cons_self
    refine Or.inr ⟨hmem, fun a ha ↦ ?_, if_pos hmem⟩
    show p.pids.count a = _
    rw [hnew, hold, List.count_append, List.count_append, List.count_cons_of_ne (Ne.symm ha),
      List.count_cons, Nat.add_assoc]
    simp only [beq_iff_eq]

/-- A call of `insert_pool` registers its pid or changes nothing. -/
theorem insertPool_registers {pid : Pid} (h : s.step (.insertPool pid) = some s') :
    (nprocMaxNum ≤ s.pool.nProc ∧ s' = s) ∨
      (s.pool.nProc < nprocMaxNum ∧ Registers pid s s') := by
  obtain rfl := Option.some.inj h
  rcases lt_or_ge s.pool.nProc nprocMaxNum with hlt | hge
  · refine Or.inr ⟨hlt, fun a _ ↦ ?_, if_pos hlt⟩
    show (insertPool pid s.pool).pids.count a = _
    rw [(insertPool_of_lt pid hlt).1, List.count_cons]
    simp only [beq_iff_eq]
  · exact Or.inl ⟨hge, by rw [insertPool_of_le _ hge, if_neg (not_lt.2 hge)]⟩

/-- Registering a worker that is not in the pool keeps the record. -/
theorem Recorded.registers {pid : Pid} (hs : s.Recorded) (hnew : ↑pid ∉ s.pool.pids)
    (h : Registers pid s s') : s'.Recorded := by
  obtain ⟨hcount, hlive⟩ := h
  refine ⟨fun a ha ↦ ?_, fun a ha ↦ ?_⟩
  · rw [hcount a ha, hlive, hs.count_eq a ha]
    by_cases hpid : ↑pid = a
    · -- the pid was in no node, so it was not live
      subst hpid
      have hold := hs.count_eq _ ha
      rw [List.count_eq_zero.2 hnew] at hold
      rw [← hold, if_pos rfl, if_pos (Finset.mem_insert_self _ _)]
    · simp only [Finset.mem_insert, Ne.symm hpid, false_or, if_neg hpid, Nat.add_zero]
  · rw [hlive] at ha
    obtain rfl | ha := Finset.mem_insert.1 ha
    · exact pid.2
    · exact hs.pos a ha

/-- No process is signalled twice. -/
theorem OnlyWorkers.count_le_one (h : s.OnlyWorkers) (a : ℤ) : s.pool.pids.count a ≤ 1 := by
  rw [← tellChldExit_eq, h a]
  split <;> decide

/-- Every process signalled is a live worker. -/
theorem OnlyWorkers.mem_live (h : s.OnlyWorkers) {a : ℤ} (ha : a ∈ s.pool.pids) : a ∈ s.live := by
  by_contra hlive
  have hcount : s.pool.pids.count a = 0 := (h a).trans (if_neg hlive)
  exact List.count_eq_zero.1 hcount ha

/-- Registering a worker that is in the pool has it signalled twice. -/
theorem not_onlyWorkers_of_registers {pid : Pid} (hmem : ↑pid ∈ s.pool.pids)
    (h : Registers pid s s') : ¬ s'.OnlyWorkers := by
  intro honly
  have hle := honly.count_le_one pid
  rw [h.count_eq _ pid.ne_neg_one, if_pos rfl] at hle
  have := List.count_pos_iff.2 hmem
  omega

/-- **A call of `cross_ok` that overwrites a pid** has the wrong processes signalled: the whole
process group through the pid `0`, or pid `1` when it should not be or for the second time. -/
theorem Recorded.not_onlyWorkers_of_crossOk {pid : Pid} (hs : s.Recorded)
    (hbreak : ¬ s.Tracked (.crossOk pid)) (h : s.step (.crossOk pid) = some s') :
    ¬ s'.OnlyWorkers := by
  obtain rfl := Option.some.inj h
  intro honly
  obtain ⟨⟨n, nodes⟩, live⟩ := s
  rcases nodes with - | ⟨item, items⟩
  · exact hbreak fun item hitem ↦ nomatch hitem
  · have hpids := pids_crossOk_cons (ne_of_gt pid.2) n item items
    by_cases hstatus : item.status = 1
    · rw [if_pos hstatus] at hpids
      have hpid : item.pid ≠ 1 := fun hpid ↦
        hbreak fun first hfirst ↦ Option.some.inj hfirst ▸ ⟨hstatus, hpid⟩
      have hlive : 1 ∈ live := honly.mem_live (hpids ▸ List.mem_cons_self)
      -- worker `1` has a node of its own further on
      have hold : (item.pid :: items.map Processor.pid).count 1 = 1 :=
        (hs.count_eq 1 (by decide)).trans (if_pos hlive)
      have hnew := honly.count_le_one 1
      rw [hpids, List.count_cons_self] at hnew
      rw [List.count_cons_of_ne hpid] at hold
      omega
    · rw [if_neg hstatus] at hpids
      have hlive : 0 ∈ live := honly.mem_live (hpids ▸ List.mem_cons_self)
      exact lt_irrefl _ (hs.pos 0 hlive)

/-- **Tracked steps keep the record.** -/
theorem Recorded.step {op : RosterOp} (hs : s.Recorded) (htracked : s.Tracked op)
    (h : s.step op = some s') : s'.Recorded := by
  cases op with
  | createProcPool =>
    obtain rfl := Option.some.inj h
    refine ⟨fun a ha ↦ ?_, hs.pos⟩
    -- the new nodes are unfilled
    rw [pids_createProcPool, List.count_append, List.count_replicate, beq_false_of_ne (Ne.symm ha),
      if_neg (by decide), Nat.zero_add]
    exact hs.count_eq a ha
  | insertPoolObj pid =>
    obtain ⟨-, rfl⟩ | ⟨hmem, hreg⟩ := insertPoolObj_registers h
    · exact hs
    · exact hs.registers (htracked hmem) hreg
  | insertPool pid =>
    obtain ⟨-, rfl⟩ | ⟨hlt, hreg⟩ := insertPool_registers h
    · exact hs
    · exact hs.registers (htracked hlt) hreg
  | deletePoolObj pid =>
    obtain ⟨p, hp, rfl⟩ := Option.map_eq_some_iff.1 h
    refine ⟨fun a ha ↦ ?_, fun a ha ↦ hs.pos a (Finset.mem_of_mem_erase ha)⟩
    show p.pids.count a = _
    rw [(deletePoolObj_view hp).1, List.count_erase, hs.count_eq a ha]
    by_cases hpid : ↑pid = a
    · subst hpid
      rw [if_neg (Finset.notMem_erase _ _)]
      simp only [beq_self_eq_true, if_true]
      split <;> rfl
    · simp only [Finset.mem_erase, Ne.symm hpid, ne_eq, not_false_eq_true, true_and, beq_iff_eq,
        hpid, if_false, Nat.sub_zero]
  | noticeChild =>
    obtain ⟨⟨c, q⟩, hq, rfl⟩ := Option.map_eq_some_iff.1 h
    exact hs.of_pids_eq (noticeChild_view hq).1 rfl
  | setStatusOk pid =>
    obtain rfl := Option.some.inj h
    exact hs.of_pids_eq (setStatusOk_view pid s.pool).1 rfl
  | crossOk pid =>
    obtain rfl := Option.some.inj h
    refine hs.of_pids_eq ?_ rfl
    obtain ⟨⟨n, nodes⟩, live⟩ := s
    rcases nodes with - | ⟨item, items⟩
    · rfl
    · obtain ⟨hstatus, hpid⟩ := htracked item rfl
      show (crossOk pid { nProc := n, nodes := item :: items }).2.pids = _
      rw [pids_crossOk_cons (ne_of_gt pid.2), if_pos hstatus, ← hpid]
      rfl

/-- A step that is not tracked has the wrong processes signalled. -/
theorem Recorded.not_onlyWorkers {op : RosterOp} (hs : s.Recorded) (hbreak : ¬ s.Tracked op)
    (h : s.step op = some s') : ¬ s'.OnlyWorkers := by
  cases op with
  | insertPoolObj pid =>
    obtain ⟨hfree, hmem⟩ := Classical.not_imp.1 hbreak
    obtain ⟨hfull, -⟩ | ⟨-, hreg⟩ := insertPoolObj_registers h
    · exact absurd hfree hfull
    · exact not_onlyWorkers_of_registers (not_not.1 hmem) hreg
  | insertPool pid =>
    obtain ⟨hlt, hmem⟩ := Classical.not_imp.1 hbreak
    obtain ⟨hge, -⟩ | ⟨-, hreg⟩ := insertPool_registers h
    · exact absurd hlt (not_lt.2 hge)
    · exact not_onlyWorkers_of_registers (not_not.1 hmem) hreg
  | crossOk pid => exact hs.not_onlyWorkers_of_crossOk hbreak h
  | _ => exact absurd trivial hbreak

/-- **When only workers are signalled.** After a run of tracked steps, `tell_chld_exit` signals each
live worker once and nothing else if and only if no node is unfilled. A run with a step that is not
tracked passes through a pool for which it signals something else. -/
theorem onlyWorkers_iff {ops : List RosterOp} (hrun : runFrom step start ops = some s) :
    (Along step Tracked start ops → (s.OnlyWorkers ↔ -1 ∉ s.pool.pids)) ∧
      (¬ Along step Tracked start ops →
        ∃ before t, before <+: ops ∧ runFrom step start before = some t ∧ ¬ t.OnlyWorkers) := by
  refine ⟨fun halong ↦ ?_, fun hnot ↦ ?_⟩
  · exact (invariant_of_along Recorded.step hrun halong recorded_start).onlyWorkers_iff_notMem
  · obtain ⟨before, op, rest, m, t, rfl, hm, halong, ht, hbreak⟩ :=
      exists_first_break_of_not_along hrun hnot
    have hrec : m.Recorded := invariant_of_along Recorded.step hm halong recorded_start
    refine ⟨before ++ [op], t, ⟨rest, by simp⟩, ?_, hrec.not_onlyWorkers hbreak ht⟩
    exact runFrom_append_eq_some_iff.2 ⟨m, hm, runFrom_cons_eq_some_iff.2 ⟨t, ht, rfl⟩⟩

/-- Ten workers registered in the freshly created pool. -/
def tenWorkers : List RosterOp :=
  .createProcPool :: (List.range nprocMaxNum).map fun i : ℕ ↦ .insertPoolObj (nthPid i)

/-- The ten workers, and they alone, are signalled. -/
theorem onlyWorkers_iff_tenWorkers :
    ∃ s, runFrom step start tenWorkers = some s ∧ s.OnlyWorkers := by
  have hrun : runFrom step start tenWorkers = some _ := rfl
  exact ⟨_, hrun, ((onlyWorkers_iff hrun).1 (by decide)).2 (by decide)⟩

/-- A query about worker `1`, before it has reported ready, makes `tell_chld_exit` call `kill` with
pid `0`, ten times and for nobody else. -/
theorem not_onlyWorkers_of_query :
    ∃ s, runFrom step start (tenWorkers ++ [.crossOk (nthPid 0)]) = some s ∧
      tellChldExit s.pool = List.replicate nprocMaxNum 0 ∧ ¬ s.OnlyWorkers := by
  refine ⟨_, rfl, rfl, fun h ↦ ?_⟩
  exact absurd (h 0) (by decide)

end Roster

end PreforkHttpd
