import PreforkHttpd.Pool.Signals

/-!
# When the readiness query answers right

`cross_ok` asks whether a worker has reported ready. Its condition `item->pid=pid&&item->status==1`
is an assignment, so the query compares no pid at all: it answers `0` as soon as **any** node is
ready (`crossScan_fst_eq_zero_iff`), and it leaves behind it the truth value of the condition in the
pid of each node it has passed.

The pool comes out as it went in precisely when each of these nodes has that truth value as its pid
already (`Scanned`). `crossOk_iff` is exact about one query, on any list of nodes, and about all
sequences of `set_status_ok` and `cross_ok` from a pool in which nobody has reported yet, where the
right answer is a matter of history.
-/

open LabelledRun

namespace PreforkHttpd

/-- Each node that the walk of `cross_ok` comes to has the truth value of the condition as its pid:
`0` as long as the walk goes on, and `1` where it stops. -/
def Scanned (items : List Processor) : Prop :=
  ∀ before item after, items = before ++ item :: after → (∀ other ∈ before, other.status ≠ 1) →
    item.pid = if item.status = 1 then 1 else 0

namespace ProcPool

/-- **The query is right**: the answer is `0` exactly when a node has this pid and is ready, and
the pool is as it was. -/
structure Queried (pid : ℤ) (p : ProcPool) : Prop where
  answer_iff : (crossOk pid p).1 = 0 ↔ ∃ item ∈ p.nodes, item.pid = pid ∧ item.status = 1
  unchanged : (crossOk pid p).2 = p

/-- The walk has nothing to overwrite, and if any node is ready, one with this pid is. -/
structure Transparent (pid : ℤ) (p : ProcPool) : Prop where
  scanned : Scanned p.nodes
  asked : (∃ item ∈ p.nodes, item.status = 1) → ∃ item ∈ p.nodes, item.pid = pid ∧ item.status = 1

end ProcPool

open ProcPool

/-! ### One query -/

variable {pid : ℤ} {item : Processor} {items : List Processor}

/-- The query answers `0` when any node is ready. -/
theorem crossScan_fst_eq_zero_iff (hpid : pid ≠ 0) :
    (crossScan pid items).1 = 0 ↔ ∃ item ∈ items, item.status = 1 := by
  induction items with
  | nil => simp [crossScan]
  | cons item items ih =>
    rw [crossScan]
    simp only [hpid, ne_eq, not_false_eq_true, true_and, List.exists_mem_cons_iff]
    split
    next hready => exact iff_of_true rfl (Or.inl hready)
    next hready => rw [or_iff_right hready, ← ih]

theorem scanned_nil : Scanned [] := by
  intro before item after h
  simp at h

/-- What is asked of the first node, and of the rest if the walk goes on. -/
theorem scanned_cons_iff : Scanned (item :: items) ↔
    (item.pid = if item.status = 1 then 1 else 0) ∧ (item.status ≠ 1 → Scanned items) := by
  constructor
  · intro h
    refine ⟨h [] item items rfl (by simp), fun hstatus before next after hsplit hbefore ↦ ?_⟩
    refine h (item :: before) next after (by rw [hsplit, List.cons_append]) ?_
    exact List.forall_mem_cons.2 ⟨hstatus, hbefore⟩
  · rintro ⟨hfirst, hrest⟩ before next after hsplit hbefore
    rcases before with - | ⟨first, before⟩
    · obtain ⟨rfl, -⟩ := List.cons.inj hsplit
      exact hfirst
    · obtain ⟨rfl, htail⟩ := List.cons.inj hsplit
      obtain ⟨hstatus, hbefore⟩ := List.forall_mem_cons.1 hbefore
      exact hrest hstatus before next after htail hbefore

/-- **The nodes come out as they went in** exactly when there was nothing to overwrite. -/
theorem crossScan_snd_eq_iff (hpid : pid ≠ 0) :
    (crossScan pid items).2 = items ↔ Scanned items := by
  induction items with
  | nil => exact iff_of_true rfl scanned_nil
  | cons item items ih =>
    have hnode : ∀ n : ℤ, ({ item with pid := n } : Processor) = item ↔ item.pid = n := fun n ↦
      ⟨fun h ↦ (congrArg Processor.pid h).symm, fun h ↦ by rw [← h]⟩
    rw [crossScan, scanned_cons_iff]
    simp only [hpid, ne_eq, not_false_eq_true, true_and]
    split
    next hready =>
      rw [List.cons.injEq, hnode]
      simp [hready]
    next hready => rw [List.cons.injEq, hnode, ih, forall_prop_of_true hready]

namespace ProcPool

variable {p : ProcPool}

/-- **When one query is right.** -/
theorem queried_iff (hpid : pid ≠ 0) : Queried pid p ↔ Transparent pid p := by
  have hanswer : (crossOk pid p).1 = 0 ↔ ∃ item ∈ p.nodes, item.status = 1 :=
    crossScan_fst_eq_zero_iff hpid
  have hnodes : (crossOk pid p).2 = p ↔ Scanned p.nodes := by
    rw [← crossScan_snd_eq_iff hpid]
    exact ⟨congrArg ProcPool.nodes, fun h ↦ by rw [crossOk, h]⟩
  constructor
  · rintro ⟨hiff, hsame⟩
    exact ⟨hnodes.1 hsame, fun hready ↦ hiff.1 (hanswer.2 hready)⟩
  · rintro ⟨hscanned, hasked⟩
    refine ⟨?_, hnodes.2 hscanned⟩
    rw [hanswer]
    exact ⟨hasked, Exists.imp fun _ ↦ And.imp_right And.right⟩

end ProcPool

/-! ### Queries and reports -/

/-- A pool in which no worker has reported ready. -/
abbrev SilentPool := { p : ProcPool // ∀ item ∈ p.nodes, item.status = 0 }

/-- The pool, with the pids that have been reported ready. -/
structure Polling where
  pool : ProcPool
  reported : List ℤ

/-- What is done with the statuses. -/
inductive StatusCall
  | setStatusOk (pid : Pid)
  | crossOk (pid : Pid)
deriving DecidableEq

namespace Polling

/-- One call. -/
def step (s : Polling) : StatusCall → Option Polling
  | .setStatusOk pid => some { pool := setStatusOk pid s.pool, reported := ↑pid :: s.reported }
  | .crossOk pid => some { s with pool := (crossOk pid s.pool).2 }

def start (p : SilentPool) : Polling where
  pool := p
  reported := []

/-- **The law of the answers**: `0` for the workers of the pool that were reported ready, and for
nobody else; and a query leaves the pool as it was. -/
def AnswersRight (p : SilentPool) (s : Polling) : StatusCall → Prop
  | .setStatusOk _ => True
  | .crossOk pid =>
    ((crossOk pid s.pool).1 = 0 ↔ ↑pid ∈ p.1.pids ∧ ↑pid ∈ s.reported) ∧
      (crossOk pid s.pool).2 = s.pool

/-- A query finds nothing to overwrite, and nobody ready but, among others, the worker it asks
for. -/
def AsksRight (s : Polling) : StatusCall → Prop
  | .setStatusOk _ => True
  | .crossOk pid => Transparent pid s.pool

/-- The pool is the first one, with the reported workers ready. -/
def Marked (p : SilentPool) (s : Polling) : Prop :=
  s.pool = { p.1 with nodes := p.1.nodes.map fun item ↦
    { item with status := if item.pid ∈ s.reported then 1 else 0 } }

variable {p : SilentPool} {s s' : Polling}

theorem marked_start (p : SilentPool) : Marked p (start p) := by
  have hnodes : p.1.nodes.map (fun item ↦ { item with status := 0 }) = p.1.nodes := by
    refine (List.map_congr_left fun item hitem ↦ ?_).trans (List.map_id _)
    rw [← p.2 item hitem]
    rfl
  rw [Marked, start]
  simp only [List.not_mem_nil, if_false, hnodes]

/-- The ready nodes of a marked pool are those of the workers reported. -/
theorem Marked.exists_ready_iff (hs : Marked p s) {pid : ℤ} :
    (∃ item ∈ s.pool.nodes, item.pid = pid ∧ item.status = 1) ↔
      pid ∈ p.1.pids ∧ pid ∈ s.reported := by
  have hready : ∀ item : Processor,
      (if item.pid ∈ s.reported then (1 : ℤ) else 0) = 1 ↔ item.pid ∈ s.reported := fun item ↦ by
    simp
  rw [hs, pids]
  simp only [List.mem_map, exists_exists_and_eq_and, hready]
  constructor
  · rintro ⟨item, hitem, rfl, hreported⟩
    exact ⟨⟨item, hitem, rfl⟩, hreported⟩
  · rintro ⟨⟨item, hitem, rfl⟩, hreported⟩
    exact ⟨item, hitem, rfl, hreported⟩

/-- On a marked pool the law of the answers is the one about a single query. -/
theorem Marked.answersRight_iff {call : StatusCall} (hs : Marked p s) :
    AnswersRight p s call ↔ s.AsksRight call := by
  match call with
  | .setStatusOk _ => exact Iff.rfl
  | .crossOk pid =>
    show _ ↔ Transparent pid s.pool
    rw [← queried_iff (ne_of_gt pid.2), AnswersRight, ← hs.exists_ready_iff]
    exact ⟨fun ⟨hanswer, hsame⟩ ↦ ⟨hanswer, hsame⟩, fun ⟨hanswer, hsame⟩ ↦ ⟨hanswer, hsame⟩⟩

/-- **One call**: a report marks its nodes, and a query that asks right changes nothing. -/
theorem Marked.step {call : StatusCall} (hs : Marked p s) (hright : s.AsksRight call)
    (h : s.step call = some s') : Marked p s' := by
  match call with
  | .setStatusOk pid =>
    obtain rfl := Option.some.inj h
    rw [Marked]
    dsimp only
    rw [hs, setStatusOk]
    simp only [List.map_map, ProcPool.mk.injEq, true_and]
    refine List.map_congr_left fun item _ ↦ ?_
    by_cases hpid : item.pid = ↑pid <;> simp [hpid]
  | .crossOk pid =>
    obtain rfl := Option.some.inj h
    have hsame : (crossOk pid s.pool).2 = s.pool :=
      ((queried_iff (ne_of_gt pid.2)).2 hright).unchanged
    rw [Marked]
    exact hsame.trans hs

/-- **When the readiness query answers right.** For any pool and any worker: exactly when the walk
has nothing to overwrite, and, if any node is ready, one with this pid is. And for every sequence of
reports and queries from a pool where nobody has reported: all queries obey the law of the answers
exactly when each of them is such a query. -/
theorem crossOk_iff (p : ProcPool) (pid : Pid) (silent : SilentPool) (calls : List StatusCall) :
    (Queried pid p ↔ Transparent pid p) ∧
      (Along step (AnswersRight silent) (start silent) calls ↔
        Along step AsksRight (start silent) calls) :=
  ⟨queried_iff (ne_of_gt pid.2),
    along_congr (Marked silent) Marked.answersRight_iff Marked.step (marked_start silent)⟩

/-- Worker `7` is ready. The query about worker `8`, who is not in the pool, answers `0`, and
worker `7` is in the pool no more. -/
theorem not_queried_absent :
    crossOk 8 { nProc := 1, nodes := [⟨7, maxFdNum, 1⟩] } =
        (0, { nProc := 1, nodes := [⟨1, maxFdNum, 1⟩] }) ∧
      ¬ Queried 8 { nProc := 1, nodes := [⟨7, maxFdNum, 1⟩] } := by
  refine ⟨rfl, fun h ↦ ?_⟩
  exact absurd h.unchanged (by decide)

end Polling

end PreforkHttpd
