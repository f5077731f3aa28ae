import PreforkHttpd.Transition.PartialRun

/-!
# The processor pool

The pool of worker records of `inc/http_task.h`: a singly linked list of `processor_t` nodes under a
head that also carries the counter `n_proc` (the local change to `SLIST_HEAD` in `inc/list.h`).
`create_proc_pool` fills it with `NPROC_MAX_NUM` nodes whose pid is `-1`, and the operations below
register, forget, choose and mark workers.

The two registering operations differ, and the difference is kept:

* `insertPoolObj` fills the first node whose pid is `-1` and counts it;
* `insertPool` pushes a fresh node when the counter is below `NPROC_MAX_NUM` and does **not**
  count it.

`deletePoolObj` unlinks the first node with the given pid and decrements the counter **whether or
not** it found one.

An operation is a partial function on pools: `none` stands for a step after which the code has no
defined state — a signed overflow of an `int`, a null dereference, or `exit`. Allocation is taken to
succeed (`proc_alloc` exits otherwise). Every operation is characterized by what it does to the
**view** of a pool, the list of pids together with the counter, which is all that the laws about
registration read.
-/

open LabelledRun

namespace PreforkHttpd

/-- `NPROC_MAX_NUM`. -/
abbrev nprocMaxNum : ℕ := 10

/-- `MAX_FD_NUM`. -/
abbrev maxFdNum : ℤ := 200

/-- The value of an `int` expression, undefined when it leaves the 32-bit range. -/
def int32 (n : ℤ) : Option ℤ :=
  if -2147483648 ≤ n ∧ n ≤ 2147483647 then some n else none

/-- A defined value is the mathematical one, and is in range. -/
theorem int32_eq_some_iff {n m : ℤ} :
    int32 n = some m ↔ m = n ∧ -2147483648 ≤ n ∧ n ≤ 2147483647 := by
  unfold int32
  split
  next h => rw [Option.some.injEq, and_iff_left h, eq_comm]
  next h => exact iff_of_false nofun fun hm ↦ h hm.2

/-- `processor_t`. -/
structure Processor where
  /-- The worker's pid, `-1` in a node that has not been filled. -/
  pid : ℤ
  /-- How many more clients the worker may be given. -/
  nleft : ℤ
  /-- `1` once the worker has reported ready. -/
  status : ℤ
deriving DecidableEq, Repr

/-- `struct s_pool_t`: the counter and the nodes, in list order. -/
structure ProcPool where
  /-- `n_proc`. -/
  nProc : ℤ
  /-- The nodes from `slh_first` on. -/
  nodes : List Processor
deriving DecidableEq, Repr

/-- `proc_alloc`: a node not yet given to a worker. -/
def procAlloc : Processor where
  pid := -1
  nleft := maxFdNum
  status := 0

namespace ProcPool

/-- `SLIST_INSERT_HEAD(&proc_pool, item, entry)`. -/
def insertHead (item : Processor) (p : ProcPool) : ProcPool :=
  { p with nodes := item :: p.nodes }

/-- `create_proc_pool`. -/
def createProcPool (p : ProcPool) : ProcPool :=
  (insertHead procAlloc)^[nprocMaxNum] p

/-- The loop of `insert_pool_obj`: the list with its first unfilled node given to `pid`, if there is
an unfilled node. -/
def fillSlot (pid : ℤ) : List Processor → Option (List Processor)
  | [] => none
  | item :: items =>
    if item.pid = -1 then some ({ item with pid := pid } :: items)
    else (fillSlot pid items).map (item :: ·)

/-- `insert_pool_obj`. -/
def insertPoolObj (pid : ℤ) (p : ProcPool) : Option ProcPool :=
  match fillSlot pid p.nodes with
  | none => some p
  | some nodes => (int32 (p.nProc + 1)).map fun n ↦ { nProc := n, nodes := nodes }

/-- `delete_pool_obj`: the first node with this pid is unlinked (whether it is the first node of the
list or follows `pre`), and the counter is decremented in either case. -/
def deletePoolObj (pid : ℤ) (p : ProcPool) : Option ProcPool :=
  (int32 (p.nProc - 1)).map fun n ↦
    { nProc := n, nodes := p.nodes.eraseP fun item ↦ item.pid = pid }

/-- `insert_pool`. -/
def insertPool (pid : ℤ) (p : ProcPool) : ProcPool :=
  -- unlike `insert_pool_obj`, it leaves `n_proc` as it is
  if p.nProc < nprocMaxNum then insertHead { procAlloc with pid := pid } p else p

/-- `handler_dead_processor`, where `fork` returned `child`. A negative result exits the process.
For `0` this is the child's own copy, should its `jump_task_pool_obj` ever return. -/
def handlerDeadProcessor (pid child : ℤ) (p : ProcPool) : Option ProcPool :=
  (deletePoolObj pid p).bind fun p ↦ if child < 0 then none else some (insertPool child p)

/-- The loop of `notice_child`: the index of `pre`, the last node whose `nleft` reaches the maximum
met so far. -/
def noticeScan (max : ℤ) (pre i : ℕ) : List Processor → ℕ
  | [] => pre
  | item :: items =>
    if max ≤ item.nleft then noticeScan item.nleft i (i + 1) items
    else noticeScan max pre (i + 1) items

/-- `notice_child`: the chosen worker's pid, and the pool with its `nleft` decremented. The empty
list is dereferenced through a null pointer. -/
def noticeChild (p : ProcPool) : Option (ℤ × ProcPool) :=
  match p.nodes with
  | [] => none
  | first :: _ =>
    let pre := noticeScan first.nleft 0 0 p.nodes
    (p.nodes[pre]?).bind fun item ↦ (int32 (item.nleft - 1)).map fun n ↦
      (item.pid, { p with nodes := p.nodes.set pre { item with nleft := n } })

/-- `set_status_ok`. -/
def setStatusOk (pid : ℤ) (p : ProcPool) : ProcPool :=
  { p with
    nodes := p.nodes.map fun item ↦ if item.pid = pid then { item with status := 1 } else item }

end ProcPool

/-! ### Runs of the pool -/

/-- The pid of a process that exists. -/
abbrev Pid := { pid : ℤ // 0 < pid }

/-- What the parent process does with the pool. -/
inductive PoolOp
  | insertPoolObj (pid : Pid)
  | insertPool (pid : Pid)
  | deletePoolObj (pid : Pid)
  | noticeChild
  | setStatusOk (pid : Pid)
  /-- The call for the dead worker `pid`, in the parent, with `fork` returning `child`. -/
  | handlerDeadProcessor (pid child : Pid)
deriving DecidableEq

namespace ProcPool

/-- One operation in the parent. -/
def step (p : ProcPool) : PoolOp → Option ProcPool
  | .insertPoolObj pid => insertPoolObj pid p
  | .insertPool pid => some (insertPool pid p)
  | .deletePoolObj pid => deletePoolObj pid p
  | .noticeChild => (noticeChild p).map Prod.snd
  | .setStatusOk pid => some (setStatusOk pid p)
  | .handlerDeadProcessor pid child => handlerDeadProcessor pid child p

/-- The pool after `SLIST_HEAD_INITIALIZER` and `create_proc_pool`. -/
def initial : ProcPool := createProcPool { nProc := 0, nodes := [] }

/-! ### The view of a pool -/

/-- The pids of the nodes, in list order. -/
def pids (p : ProcPool) : List ℤ := p.nodes.map Processor.pid

/-- How many nodes carry a registered pid. -/
def registered (p : ProcPool) : ℕ := p.pids.countP (· ≠ -1)

/-- How many nodes are still unfilled. -/
def unfilled (p : ProcPool) : ℕ := p.pids.countP (· = -1)

theorem registered_add_unfilled (p : ProcPool) : p.registered + p.unfilled = p.pids.length := by
  rw [List.length_eq_countP_add_countP (· ≠ -1), registered, unfilled]
  simp

/-! ### What each operation does to the view -/

theorem fillSlot_eq_none_iff {pid : ℤ} {items : List Processor} :
    fillSlot pid items = none ↔ -1 ∉ items.map Processor.pid := by
  induction items with
  | nil => simp [fillSlot]
  | cons item items ih =>
    by_cases h : item.pid = -1
    · simp [fillSlot, h]
    · rw [fillSlot, if_neg h, Option.map_eq_none_iff, ih, List.map_cons, List.mem_cons,
        not_or, and_iff_right (Ne.symm h)]

theorem map_pid_of_fillSlot {pid : ℤ} {items items' : List Processor}
    (h : fillSlot pid items = some items') :
    ∃ xs ys, items.map Processor.pid = xs ++ -1 :: ys ∧
      items'.map Processor.pid = xs ++ pid :: ys := by
  induction items generalizing items' with
  | nil => cases h
  | cons item items ih =>
    by_cases hitem : item.pid = -1
    · rw [fillSlot, if_pos hitem, Option.some.injEq] at h
      subst h
      exact ⟨[], items.map Processor.pid, by simp [hitem], by simp⟩
    · rw [fillSlot, if_neg hitem, Option.map_eq_some_iff] at h
      obtain ⟨tail, htail, rfl⟩ := h
      obtain ⟨xs, ys, hold, hnew⟩ := ih htail
      exact ⟨item.pid :: xs, ys, by simp [hold], by simp [hnew]⟩

/-- `insert_pool_obj` does nothing on a pool without an unfilled node, and otherwise fills one and
counts it. -/
theorem insertPoolObj_cases {pid : ℤ} {p p' : ProcPool} (h : insertPoolObj pid p = some p') :
    (-1 ∉ p.pids ∧ p' = p) ∨
      ∃ xs ys, p.pids = xs ++ -1 :: ys ∧ p'.pids = xs ++ pid :: ys ∧ p'.nProc = p.nProc + 1 := by
  unfold insertPoolObj at h
  rcases hslot : fillSlot pid p.nodes with - | nodes
  · rw [hslot] at h
    exact Or.inl ⟨fillSlot_eq_none_iff.1 hslot, (Option.some.inj h).symm⟩
  · rw [hslot, Option.map_eq_some_iff] at h
    obtain ⟨n, hn, rfl⟩ := h
    obtain ⟨xs, ys, hold, hnew⟩ := map_pid_of_fillSlot hslot
    exact Or.inr ⟨xs, ys, hold, hnew, (int32_eq_some_iff.1 hn).1⟩

theorem deletePoolObj_view {pid : ℤ} {p p' : ProcPool} (h : deletePoolObj pid p = some p') :
    p'.pids = p.pids.erase pid ∧ p'.nProc = p.nProc - 1 ∧ -2147483648 ≤ p'.nProc := by
  obtain ⟨n, hn, rfl⟩ := Option.map_eq_some_iff.1 h
  obtain ⟨rfl, hlo, -⟩ := int32_eq_some_iff.1 hn
  refine ⟨?_, rfl, hlo⟩
  rw [pids, pids, List.erase_eq_eraseP', List.eraseP_map]
  congr 2

theorem insertPool_of_lt (pid : ℤ) {p : ProcPool} (h : p.nProc < nprocMaxNum) :
    (insertPool pid p).pids = pid :: p.pids ∧ (insertPool pid p).nProc = p.nProc := by
  rw [insertPool, if_pos h]
  exact ⟨rfl, rfl⟩

theorem insertPool_of_le (pid : ℤ) {p : ProcPool} (h : nprocMaxNum ≤ p.nProc) :
    insertPool pid p = p := by
  rw [insertPool, if_neg (not_lt.2 h)]

/-- Replacing a node by one with the same pid leaves the pids as they are. -/
theorem map_pid_set {items : List Processor} {i : ℕ} {item item' : Processor}
    (h : items[i]? = some item) (hpid : item'.pid = item.pid) :
    (items.set i item').map Processor.pid = items.map Processor.pid := by
  obtain ⟨hlt, rfl⟩ := List.getElem?_eq_some_iff.1 h
  have hlt' : i < (items.map Processor.pid).length := by rwa [List.length_map]
  have hold : items[i].pid = (items.map Processor.pid)[i] := (List.getElem_map _).symm
  rw [List.map_set, hpid, hold, List.set_getElem_self]

theorem noticeChild_view {pid : ℤ} {p p' : ProcPool} (h : noticeChild p = some (pid, p')) :
    p'.pids = p.pids ∧ p'.nProc = p.nProc := by
  unfold noticeChild at h
  split at h
  · cases h
  · obtain ⟨item, hitem, h⟩ := Option.bind_eq_some_iff.1 h
    obtain ⟨n, -, h⟩ := Option.map_eq_some_iff.1 h
    obtain ⟨-, rfl⟩ := Prod.mk.inj h
    refine ⟨?_, rfl⟩
    -- the chosen node is put back with its pid unchanged
    exact map_pid_set hitem rfl

theorem setStatusOk_view (pid : ℤ) (p : ProcPool) :
    (setStatusOk pid p).pids = p.pids ∧ (setStatusOk pid p).nProc = p.nProc := by
  refine ⟨?_, rfl⟩
  rw [pids, setStatusOk, List.map_map]
  refine List.map_congr_left fun item _ ↦ ?_
  show Processor.pid (if item.pid = pid then _ else item) = item.pid
  split <;> rfl

/-- A call for a dead worker decrements the counter, and then pushes the new worker unless the
decremented counter still forbids it. -/
theorem handlerDeadProcessor_cases {pid child : Pid} {p p' : ProcPool}
    (h : handlerDeadProcessor pid child p = some p') :
    p'.nProc = p.nProc - 1 ∧ -2147483648 ≤ p'.nProc ∧
      ((p.nProc - 1 < nprocMaxNum ∧ p'.pids = ↑child :: p.pids.erase ↑pid) ∨
        (nprocMaxNum ≤ p.nProc - 1 ∧ p'.pids = p.pids.erase ↑pid)) := by
  obtain ⟨q, hq, h⟩ := Option.bind_eq_some_iff.1 h
  obtain ⟨hpids, hn, hlo⟩ := deletePoolObj_view hq
  rw [if_neg (not_lt.2 child.2.le), Option.some.injEq] at h
  subst h
  rcases lt_or_ge q.nProc nprocMaxNum with hlt | hge
  · obtain ⟨hpids', hn'⟩ := insertPool_of_lt child hlt
    exact ⟨hn'.trans hn, hn' ▸ hlo, Or.inl ⟨hn ▸ hlt, by rw [hpids', hpids]⟩⟩
  · rw [insertPool_of_le _ hge]
    exact ⟨hn, hlo, Or.inr ⟨hn ▸ hge, hpids⟩⟩

end ProcPool

end PreforkHttpd
