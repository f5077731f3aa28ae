import PreforkHttpd.Memory.LinkedList
import PreforkHttpd.Pool.ProcPool

/-!
# When a deletion is precise

`delete_pool_obj` walks the list with two pointers, `item` and the `pre` behind it, and relinks and
frees when it has found the pid, at the head of the list through `slh_first` and elsewhere through
the `next` of `pre`. Here it is followed in memory (`PreforkHttpd.Memory.LinkedList`): whatever the
position of the node, and if there is none, the memory holds afterwards the list without the first
node of that pid (`Holds.loop_spec`). So the operation on lists is refined
(`Represents.deletePoolObj`).

What is not precise is the counter, which is decremented behind the loop and not in it.
`deletesPrecisely_iff` says for which pids that is right.
-/

open LinkedList

namespace PreforkHttpd

/-- The pool in memory: `n_proc`, `slh_first`, and the nodes that are allocated. -/
structure PoolMemory where
  nProc : ℤ
  slhFirst : Option ℕ
  cells : Memory ℕ Processor

namespace PoolMemory

/-- The loop of `delete_pool_obj` from `item` on, for no more than so many rounds. A null pointer
and a pointer to a node that is not allocated have no value. -/
def deleteLoop (pid : ℤ) (m : PoolMemory) : ℕ → Option ℕ → Option ℕ → Option PoolMemory
  | _, _, none => some m
  | 0, _, some _ => none
  | rounds + 1, pre, some item =>
    (m.cells item).bind fun cell ↦
      if cell.data.pid = pid then
        if some item = m.slhFirst then
          some { m with slhFirst := cell.next, cells := Function.update m.cells item none }
        else
          pre.bind fun b ↦ (m.cells b).bind fun before ↦
            let linked := Function.update m.cells b (some { before with next := cell.next })
            some { m with cells := Function.update linked item none }
      else deleteLoop pid m rounds (some item) cell.next

/-- `delete_pool_obj`: the loop starts with both pointers at the first node. -/
def deletePoolObj (rounds : ℕ) (pid : ℤ) (m : PoolMemory) : Option PoolMemory :=
  (deleteLoop pid m rounds m.slhFirst m.slhFirst).bind fun m ↦
    (int32 (m.nProc - 1)).map fun n ↦ { m with nProc := n }

/-- The memory holds the list with these nodes, each at its address. -/
structure Holds (m : PoolMemory) (nodes : List (ℕ × Processor)) : Prop where
  first : m.slhFirst = start nodes none
  chain : Chain m.cells nodes none

/-- The memory holds the pool. -/
def Represents (m : PoolMemory) (p : ProcPool) : Prop :=
  ∃ nodes, m.Holds nodes ∧ p = { nProc := m.nProc, nodes := nodes.map Prod.snd }

/-- The list without its first node of this pid. -/
def without (pid : ℤ) (nodes : List (ℕ × Processor)) : List (ℕ × Processor) :=
  nodes.eraseP fun c ↦ c.2.pid = pid

/-- **A precise deletion**: the call returns, the list has lost its first node of this pid and
nothing else, and `n_proc` is one less if there was such a node, and otherwise what it was. -/
def DeletesPrecisely (pid : ℤ) (nodes : List (ℕ × Processor)) (m : PoolMemory) : Prop :=
  ∃ m', (∀ rounds, nodes.length ≤ rounds → deletePoolObj rounds pid m = some m') ∧
    m'.Holds (without pid nodes) ∧
    m'.nProc = if ∃ c ∈ nodes, c.2.pid = pid then m.nProc - 1 else m.nProc

/-! ### The loop -/

variable {m : PoolMemory} {nodes front rest : List (ℕ × Processor)} {pid : ℤ} {pre : Option ℕ}
  {c : ℕ × Processor}

theorem without_cons_of_eq (h : c.2.pid = pid) : without pid (c :: rest) = rest :=
  List.eraseP_cons_of_pos (decide_eq_true h)

theorem without_cons_of_ne (h : c.2.pid ≠ pid) : without pid (c :: rest) = c :: without pid rest :=
  List.eraseP_cons_of_neg (by simp [h])

theorem deleteLoop_end (rounds : ℕ) : deleteLoop pid m rounds pre none = some m := by
  rcases rounds with - | rounds <;> rfl

/-- Where the pointer `pre` is when the loop has passed the nodes of `front`: anywhere before the
first round, and at the last of them after it. -/
def Behind (front : List (ℕ × Processor)) (pre : Option ℕ) : Prop :=
  front = [] ∨ ∃ init b, front = init ++ [b] ∧ pre = some b.1

/-- The node that the loop has come to. -/
theorem Holds.cell (hm : m.Holds (front ++ c :: rest)) :
    m.cells c.1 = some ⟨c.2, start rest none⟩ :=
  (chain_append_iff.1 hm.chain).2.1

/-- A node behind others is not the first. -/
theorem Holds.ne_first {b : ℕ × Processor} (hm : m.Holds (front ++ b :: c :: rest)) :
    some c.1 ≠ m.slhFirst := by
  have hnodup := hm.chain.nodup
  rw [hm.first]
  intro heq
  rcases front with - | ⟨first, front⟩ <;> simp [start] at heq <;> simp [heq] at hnodup

/-- **The round that finds the pid**, at the head of the list or behind it. -/
theorem Holds.deleteLoop_of_eq (hm : m.Holds (front ++ c :: rest)) (hpre : Behind front pre)
    (hpid : c.2.pid = pid) : ∃ m', m'.nProc = m.nProc ∧ m'.Holds (front ++ rest) ∧
      ∀ rounds, deleteLoop pid m (rounds + 1) pre (some c.1) = some m' := by
  rcases hpre with rfl | ⟨init, b, rfl, rfl⟩
  · have hfirst : some c.1 = m.slhFirst := hm.first.symm
    refine ⟨{ m with slhFirst := start rest none, cells := Function.update m.cells c.1 none },
      rfl, ⟨rfl, hm.chain.unlink_first⟩, fun rounds ↦ ?_⟩
    rw [deleteLoop, hm.cell, Option.bind_some, if_pos hpid, if_pos hfirst]
  · rw [List.append_assoc, List.singleton_append] at hm ⊢
    have hc : m.cells c.1 = some ⟨c.2, start rest none⟩ := by
      rw [List.append_cons] at hm
      exact hm.cell
    let linked := Function.update m.cells b.1 (some ⟨b.2, start rest none⟩)
    refine ⟨{ m with cells := Function.update linked c.1 none }, rfl, ⟨?_, hm.chain.unlink⟩,
      fun rounds ↦ ?_⟩
    · show m.slhFirst = _
      rw [hm.first, start_append, start_append]
      rfl
    · rw [deleteLoop, hc, Option.bind_some, if_pos hpid, if_neg hm.ne_first, Option.bind_some,
        hm.cell, Option.bind_some]

/-- **The loop** from any node on. The induction is on the nodes to come. -/
theorem Holds.loop_spec (hm : m.Holds (front ++ rest)) (hpre : Behind front pre) :
    ∃ m', m'.nProc = m.nProc ∧ m'.Holds (front ++ without pid rest) ∧
      ∀ rounds, rest.length ≤ rounds →
        deleteLoop pid m rounds pre (start rest none) = some m' := by
  induction rest generalizing front pre with
  | nil => exact ⟨m, rfl, hm, fun rounds _ ↦ deleteLoop_end rounds⟩
  | cons c rest ih =>
    rcases eq_or_ne c.2.pid pid with hpid | hpid
    · obtain ⟨m', hn, hm', hloop⟩ := hm.deleteLoop_of_eq hpre hpid
      refine ⟨m', hn, (without_cons_of_eq hpid).symm ▸ hm', fun rounds hrounds ↦ ?_⟩
      obtain ⟨rounds, rfl⟩ := Nat.exists_eq_add_of_lt hrounds
      exact hloop _
    · have hcell := hm.cell
      rw [List.append_cons] at hm
      obtain ⟨m', hn, hm', hloop⟩ := ih hm (Or.inr ⟨front, c, rfl, rfl⟩)
      refine ⟨m', hn, ?_, fun rounds hrounds ↦ ?_⟩
      · rwa [without_cons_of_ne hpid, List.append_cons]
      · obtain ⟨rounds, rfl⟩ : ∃ k, rounds = k + 1 :=
          Nat.exists_eq_add_one.2 ((Nat.succ_pos _).trans_le hrounds)
        rw [start, deleteLoop, hcell, Option.bind_some, if_neg hpid]
        exact hloop rounds (by simpa using hrounds)

/-! ### The call -/

/-- **What a call does**: the list loses the node, and the counter is decremented. -/
theorem Holds.call_spec (hm : m.Holds nodes) (pid : ℤ) :
    ∃ m' : PoolMemory, m'.Holds (without pid nodes) ∧ ∀ rounds, nodes.length ≤ rounds →
      deletePoolObj rounds pid m = (int32 (m.nProc - 1)).map fun n ↦ { m' with nProc := n } := by
  have hfront : m.Holds ([] ++ nodes) := hm
  obtain ⟨m', hn, hm', hloop⟩ := hfront.loop_spec (Or.inl rfl)
  refine ⟨m', hm', fun rounds hrounds ↦ ?_⟩
  rw [deletePoolObj, hm.first, hloop rounds hrounds, Option.bind_some, hn]

/-- **The operation on lists is refined** by the one in memory. -/
theorem Represents.deletePoolObj {p : ProcPool} (h : m.Represents p) (pid : ℤ) :
    ∃ k, ∀ rounds, k ≤ rounds →
      Option.Rel Represents (deletePoolObj rounds pid m) (ProcPool.deletePoolObj pid p) := by
  obtain ⟨nodes, hm, rfl⟩ := h
  obtain ⟨m', hm', hcall⟩ := hm.call_spec pid
  refine ⟨nodes.length, fun rounds hrounds ↦ ?_⟩
  rw [hcall rounds hrounds, ProcPool.deletePoolObj]
  rcases int32 (m.nProc - 1) with - | n
  · exact .none
  · refine .some ⟨without pid nodes, ⟨hm'.first, hm'.chain⟩, ?_⟩
    rw [without, List.eraseP_map]
    rfl

/-- **When a deletion is precise.** For every list in memory, and every value that the `int` of the
counter may have: exactly when a node carries the pid, and the counter is not the least `int`. -/
theorem deletesPrecisely_iff (hm : m.Holds nodes) (hint : int32 m.nProc = some m.nProc) :
    DeletesPrecisely pid nodes m ↔ (∃ c ∈ nodes, c.2.pid = pid) ∧ -2147483648 < m.nProc := by
  obtain ⟨-, -, hhigh⟩ := int32_eq_some_iff.1 hint
  obtain ⟨q, hq, hcall⟩ := hm.call_spec pid
  refine ⟨fun ⟨m', hall, _, hn⟩ ↦ ?_, fun ⟨hmem, hlow⟩ ↦ ?_⟩
  · have hsome := (hcall _ le_rfl).symm.trans (hall _ le_rfl)
    obtain ⟨n, hint', rfl⟩ := Option.map_eq_some_iff.1 hsome
    obtain ⟨rfl, hlow, -⟩ := int32_eq_some_iff.1 hint'
    refine ⟨?_, by omega⟩
    -- without such a node the counter should have been left alone
    by_contra hnone
    rw [if_neg hnone] at hn
    dsimp only at hn
    omega
  · refine ⟨{ q with nProc := m.nProc - 1 }, fun rounds hrounds ↦ ?_, ⟨hq.first, hq.chain⟩,
      (if_pos hmem).symm⟩
    rw [hcall rounds hrounds, int32_eq_some_iff.2 ⟨rfl, by omega, by omega⟩, Option.map_some]

/-- Worker `7` at address `16`, and worker `8` at address `32` behind it. -/
def twoNodes : PoolMemory where
  nProc := 2
  slhFirst := some 16
  cells a :=
    if a = 16 then some ⟨⟨7, maxFdNum, 0⟩, some 32⟩
    else if a = 32 then some ⟨⟨8, maxFdNum, 0⟩, none⟩ else none

theorem holds_twoNodes :
    twoNodes.Holds [(16, ⟨7, maxFdNum, 0⟩), (32, ⟨8, maxFdNum, 0⟩)] :=
  ⟨rfl, rfl, rfl, trivial⟩

/-- The last of two nodes is deleted. -/
theorem deletesPrecisely_iff_last :
    DeletesPrecisely 8 [(16, ⟨7, maxFdNum, 0⟩), (32, ⟨8, maxFdNum, 0⟩)] twoNodes :=
  (deletesPrecisely_iff holds_twoNodes rfl).2
    ⟨⟨(32, ⟨8, maxFdNum, 0⟩), by simp, rfl⟩, by decide⟩

/-- A worker that is not in the pool is deleted: both nodes stay, and one is counted. -/
theorem not_deletesPrecisely_absent :
    (deletePoolObj 2 9 twoNodes).map nProc = some 1 ∧
      ¬ DeletesPrecisely 9 [(16, ⟨7, maxFdNum, 0⟩), (32, ⟨8, maxFdNum, 0⟩)] twoNodes := by
  refine ⟨rfl, fun h ↦ ?_⟩
  obtain ⟨⟨c, hc, hpid⟩, -⟩ := (deletesPrecisely_iff holds_twoNodes rfl).1 h
  simp only [List.mem_cons, List.not_mem_nil, or_false] at hc
  rcases hc with rfl | rfl <;> exact absurd hpid (by decide)

end PoolMemory

end PreforkHttpd
