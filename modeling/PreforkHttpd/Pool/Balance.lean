import PreforkHttpd.Pool.Leveling
import PreforkHttpd.Pool.ProcPool

/-!
# How `notice_child` spreads the load

`notice_child` gives the next client to the worker with the most room. Its loop keeps two cursors,
the pid and the node, and moves both to each node that reaches the maximum so far (`noticeLoop`). So
they stay on the same node, which is a fullest one (`noticeLoop_spec`), and the call is the one of
`PreforkHttpd.Pool.ProcPool`, which has the node alone (`noticeCursors_eq`).

Calls on a fresh pool therefore keep the workers level (`PreforkHttpd.Pool.Leveling`). Nothing stops
at zero: `nleft` goes on below it, and the spread stays as small, until the `int` of a fullest node
is at its least and the next decrement has no defined value. `loadBalanced_iff` is exact about how
long that takes.
-/

open LabelledRun Leveling

namespace PreforkHttpd

namespace ProcPool

/-- The loop of `notice_child` from the node with index `i` on: `pid` and `pre`, once they are
assigned. -/
def noticeLoop (max : ℤ) (cursors : Option (ℤ × ℕ)) (i : ℕ) :
    List Processor → Option (ℤ × ℕ)
  | [] => cursors
  | item :: items =>
    if max ≤ item.nleft then noticeLoop item.nleft (some (item.pid, i)) (i + 1) items
    else noticeLoop max cursors (i + 1) items

/-- `notice_child` with both cursors: `pre->nleft--; return pid;` -/
def noticeCursors (p : ProcPool) : Option (ℤ × ProcPool) :=
  p.nodes.head?.bind fun first ↦
    (noticeLoop first.nleft none 0 p.nodes).bind fun cursors ↦
      (p.nodes[cursors.2]?).bind fun item ↦ (int32 (item.nleft - 1)).map fun n ↦
        (cursors.1, { p with nodes := p.nodes.set cursors.2 { item with nleft := n } })

/-- What each node has left. -/
def loads (p : ProcPool) : List ℤ := p.nodes.map Processor.nleft

/-- The call has returned the pid of a node with the maximal `nleft`, and decremented the `nleft` of
that very node; nothing else has changed. -/
def Chosen (p : ProcPool) (pid : ℤ) (p' : ProcPool) : Prop :=
  ∃ i item, p.nodes[i]? = some item ∧ (∀ other ∈ p.nodes, other.nleft ≤ item.nleft) ∧
    pid = item.pid ∧
    p' = { p with nodes := p.nodes.set i { item with nleft := item.nleft - 1 } }

/-- The pool after `k` calls of `notice_child`. -/
def notices (p : ProcPool) (k : ℕ) : Option ProcPool :=
  runFrom step p (List.replicate k .noticeChild)

/-- What `k` calls are meant to come to: the nodes are level, `k` units are gone, and each of the
calls has chosen well. -/
def LoadBalanced (p : ProcPool) (k : ℕ) : Prop :=
  ∃ t, p.notices k = some t ∧ Level t.loads ∧ total t.loads = p.nodes.length * maxFdNum - k ∧
    ∀ j < k, ∃ m pid m', p.notices j = some m ∧ noticeCursors m = some (pid, m') ∧ m.Chosen pid m'

/-! ### One call -/

variable {p p' : ProcPool} {pid : ℤ}

/-- **The cursors** end on a node with the maximal `nleft`, if they are on one with the maximum of
the nodes before. The induction is on the nodes to come. -/
theorem noticeLoop_spec {l : List Processor} : ∀ {items seen : List Processor} {pre : ℕ}
    {item : Processor}, l = seen ++ items → l[pre]? = some item →
      (∀ other ∈ seen, other.nleft ≤ item.nleft) →
        ∃ best, l[noticeScan item.nleft pre seen.length items]? = some best ∧
          (∀ other ∈ l, other.nleft ≤ best.nleft) ∧
          noticeLoop item.nleft (some (item.pid, pre)) seen.length items =
            some (best.pid, noticeScan item.nleft pre seen.length items)
  | [], seen, pre, item, hl, hpre, hmax => by
    rw [List.append_nil] at hl
    exact ⟨item, hpre, hl ▸ hmax, rfl⟩
  | next :: items, seen, pre, item, hl, hpre, hmax => by
    have hl' : l = (seen ++ [next]) ++ items := by
      rw [hl, List.append_assoc, List.singleton_append]
    have hlength : (seen ++ [next]).length = seen.length + 1 := by
      rw [List.length_append, List.length_singleton]
    rw [noticeScan, noticeLoop]
    split
    next hle =>
      -- the cursors move on to `next`
      have hnext : l[seen.length]? = some next := by
        rw [hl, List.getElem?_append_right (Nat.le_refl _), Nat.sub_self]
        rfl
      rw [← hlength]
      refine noticeLoop_spec hl' hnext fun other hother ↦ ?_
      rcases List.mem_append.1 hother with hother | hother
      · exact (hmax other hother).trans hle
      · rw [List.mem_singleton.1 hother]
    next hlt =>
      rw [← hlength]
      refine noticeLoop_spec hl' hpre fun other hother ↦ ?_
      rcases List.mem_append.1 hother with hother | hother
      · exact hmax other hother
      · rw [List.mem_singleton.1 hother]
        exact (not_le.1 hlt).le

/-- **What a call does** on a pool with nodes, with both cursors or with the node alone. -/
theorem notice_spec (hne : p.nodes ≠ []) :
    ∃ (i : ℕ) (item : Processor), p.nodes[i]? = some item ∧
      (∀ other ∈ p.nodes, other.nleft ≤ item.nleft) ∧ noticeCursors p = noticeChild p ∧
      noticeChild p = (int32 (item.nleft - 1)).map fun n ↦
        (item.pid, { p with nodes := p.nodes.set i { item with nleft := n } }) := by
  obtain ⟨nProc, nodes⟩ := p
  match nodes, hne with
  | first :: items, _ =>
    -- the first round takes the cursors to the first node
    obtain ⟨best, hbest, hmax, hloop⟩ := @noticeLoop_spec (first :: items) items [first] 0 first rfl
      rfl (List.forall_mem_singleton.2 (Int.le_refl _))
    have hscan : noticeScan first.nleft 0 0 (first :: items) =
        noticeScan first.nleft 0 [first].length items := if_pos (Int.le_refl _)
    have hcursors : noticeLoop first.nleft none 0 (first :: items) = some _ :=
      (if_pos (Int.le_refl _)).trans hloop
    refine ⟨_, best, hbest, hmax, ?_, ?_⟩
    · rw [noticeCursors, List.head?_cons, Option.bind_some, hcursors, Option.bind_some, noticeChild]
      dsimp only
      rw [hscan, hbest, Option.bind_some, Option.bind_some]
    · rw [noticeChild]
      dsimp only
      rw [hscan, hbest, Option.bind_some]

/-- **The node alone is enough.** -/
theorem noticeCursors_eq (p : ProcPool) : noticeCursors p = noticeChild p := by
  rcases eq_or_ne p.nodes [] with hnil | hne
  · rw [noticeCursors, noticeChild, hnil]
    rfl
  · obtain ⟨-, -, -, -, heq, -⟩ := notice_spec hne
    exact heq

/-! ### Level pools -/

/-- A level pool of `n` nodes that has had `k` calls. -/
structure Levelled (n k : ℕ) (p : ProcPool) : Prop where
  length_nodes : p.nodes.length = n
  level : Level p.loads
  total_loads : total p.loads = n * maxFdNum - k

variable {n k : ℕ}

theorem levelled_zero (hfull : ∀ item ∈ p.nodes, item.nleft = maxFdNum) :
    p.Levelled p.nodes.length 0 := by
  have hloads : ∀ b ∈ p.loads, b = maxFdNum := fun b hb ↦ by
    obtain ⟨item, hitem, rfl⟩ := List.mem_map.1 hb
    exact hfull item hitem
  refine ⟨rfl, level_of_forall_eq hloads, ?_⟩
  rw [total_of_forall_eq hloads, loads, List.length_map, Int.natCast_zero, Int.sub_zero]

theorem getElem?_loads {i : ℕ} {item : Processor} (hi : p.nodes[i]? = some item) :
    p.loads[i]? = some item.nleft := by
  rw [loads, List.getElem?_map, hi]
  rfl

theorem fullest_loads {a : ℤ} (hmax : ∀ other ∈ p.nodes, other.nleft ≤ a) :
    Fullest p.loads a := fun b hb ↦ by
  obtain ⟨other, hother, rfl⟩ := List.mem_map.1 hb
  exact hmax other hother

/-- What a fullest node of a level pool holds: the average, rounded up. -/
theorem Levelled.bounds (hp : p.Levelled n k) {i : ℕ} {item : Processor}
    (hi : p.nodes[i]? = some item) (hmax : ∀ other ∈ p.nodes, other.nleft ≤ item.nleft) :
    n * (item.nleft - 1) < n * maxFdNum - k ∧ n * maxFdNum - k ≤ n * item.nleft := by
  have hlength : p.loads.length = n := by rw [loads, List.length_map, hp.length_nodes]
  have hlt := hp.level.lt_total (getElem?_loads hi)
  have hle := (fullest_loads hmax).total_le
  rw [hlength, hp.total_loads] at hlt hle
  exact ⟨hlt, hle⟩

/-- The chosen node is a unit lower, and the pool level again. -/
theorem Levelled.choose (hp : p.Levelled n k) (h : p.Chosen pid p') : p'.Levelled n (k + 1) := by
  obtain ⟨i, item, hi, hmax, -, rfl⟩ := h
  have hload := getElem?_loads hi
  have hset : ({ p with nodes := p.nodes.set i { item with nleft := item.nleft - 1 } } :
      ProcPool).loads = p.loads.set i (item.nleft - 1) := List.map_set
  refine ⟨List.length_set.trans hp.length_nodes, ?_, ?_⟩
  · rw [hset]
    exact hp.level.take hload (fullest_loads hmax)
  · rw [hset, total_set hload, hp.total_loads, Int.natCast_succ]
    omega

/-- **The next call** is made, and chooses well, as long as a fullest node has something left above
the least `int`. -/
theorem Levelled.notice (hp : p.Levelled n k) (hk : k < n * 2147483848) :
    ∃ pid p', noticeChild p = some (pid, p') ∧ p.Chosen pid p' := by
  have hpos : (0 : ℤ) ≤ n := Int.natCast_nonneg n
  have hne : p.nodes ≠ [] := by
    rintro hnil
    have hlength := hp.length_nodes
    rw [hnil, List.length_nil] at hlength
    omega
  obtain ⟨i, item, hi, hmax, -, hrun⟩ := notice_spec hne
  obtain ⟨hlt, hle⟩ := hp.bounds hi hmax
  have hfd : maxFdNum = 200 := rfl
  rw [hfd] at hlt hle
  have hlow : -2147483648 < item.nleft :=
    Int.lt_of_mul_lt_mul_left (a := n) (by omega) hpos
  have hhigh : item.nleft - 1 < 200 :=
    Int.lt_of_mul_lt_mul_left (a := n) (by omega) hpos
  have hint : int32 (item.nleft - 1) = some (item.nleft - 1) :=
    int32_eq_some_iff.2 ⟨rfl, by omega, by omega⟩
  rw [hint] at hrun
  exact ⟨_, _, hrun, i, item, hi, hmax, rfl, rfl⟩

/-- The call after the last one: every node is at the least `int`. -/
theorem Levelled.notice_eq_none (hp : p.Levelled n (n * 2147483848)) (hn : 0 < n) :
    noticeChild p = none := by
  have hne : p.nodes ≠ [] := List.ne_nil_of_length_pos (hp.length_nodes.symm ▸ hn)
  obtain ⟨i, item, hi, hmax, -, hrun⟩ := notice_spec hne
  obtain ⟨hlt, -⟩ := hp.bounds hi hmax
  have hfd : maxFdNum = 200 := rfl
  rw [hfd] at hlt
  have hlow : item.nleft - 1 < -2147483648 :=
    Int.lt_of_mul_lt_mul_left (a := n) (by omega) (Int.natCast_nonneg n)
  have hint : int32 (item.nleft - 1) = none := by
    rw [int32, if_neg]
    omega
  rw [hrun, hint, Option.map_none]

/-! ### Runs of calls -/

theorem notices_succ (p : ProcPool) (k : ℕ) :
    p.notices (k + 1) = (p.notices k).bind fun t ↦ (noticeChild t).map Prod.snd := by
  rw [notices, List.replicate_succ', runFrom_append]
  refine congrArg _ (funext fun t ↦ ?_)
  rw [runFrom_cons]
  show ((noticeChild t).map Prod.snd).bind some = _
  exact Option.bind_fun_some _

/-- **A run of calls** keeps the pool level. -/
theorem Levelled.exists_notices (hp : p.Levelled n 0) :
    ∀ {k : ℕ}, k ≤ n * 2147483848 → ∃ t, p.notices k = some t ∧ t.Levelled n k
  | 0, _ => ⟨p, rfl, hp⟩
  | k + 1, hk => by
    obtain ⟨t, ht, hlevelled⟩ := hp.exists_notices (Nat.le_of_succ_le hk)
    obtain ⟨pid, t', hcall, hchosen⟩ := hlevelled.notice hk
    refine ⟨t', ?_, hlevelled.choose hchosen⟩
    rw [notices_succ, ht, Option.bind_some, hcall]
    rfl

theorem notices_eq_none_of_le {m : ℕ} (h : p.notices k = none) (hk : k ≤ m) :
    p.notices m = none := by
  induction hk with
  | refl => exact h
  | step _ ih => rw [notices_succ, ih, Option.bind_none]

/-- Behind the last call no run goes on. -/
theorem Levelled.notices_eq_none (hp : p.Levelled n 0) (hn : 0 < n) (hk : n * 2147483848 < k) :
    p.notices k = none := by
  obtain ⟨t, ht, hlevelled⟩ := hp.exists_notices le_rfl
  refine notices_eq_none_of_le ?_ hk
  rw [notices_succ, ht, Option.bind_some, hlevelled.notice_eq_none hn, Option.map_none]

/-- **The load is balanced** for as many calls as the nodes of the pool can count: with `n` nodes,
`n * (MAX_FD_NUM + 2 ^ 31)`. -/
theorem loadBalanced_iff (hne : p.nodes ≠ []) (hfull : ∀ item ∈ p.nodes, item.nleft = maxFdNum)
    (k : ℕ) : p.LoadBalanced k ↔ k ≤ p.nodes.length * 2147483848 := by
  have hp := levelled_zero hfull
  refine ⟨fun h ↦ ?_, fun hk ↦ ?_⟩
  · by_contra hlt
    obtain ⟨t, ht, -⟩ := h
    rw [hp.notices_eq_none (List.length_pos_of_ne_nil hne) (not_le.1 hlt)] at ht
    cases ht
  · obtain ⟨t, ht, hlevelled⟩ := hp.exists_notices hk
    refine ⟨t, ht, hlevelled.level, hlevelled.total_loads, fun j hj ↦ ?_⟩
    obtain ⟨m, hm, hmlevelled⟩ := hp.exists_notices (hj.le.trans hk)
    obtain ⟨pid, m', hcall, hchosen⟩ := hmlevelled.notice (hj.trans_le hk)
    exact ⟨m, pid, m', hm, (noticeCursors_eq m).trans hcall, hchosen⟩

/-- Fifteen calls on the pool as it is created. -/
theorem loadBalanced_iff_initial : initial.LoadBalanced 15 :=
  (loadBalanced_iff (by decide) (by decide) 15).2 (by decide)

/-- The last of so many calls on a single node decrements the least `int`. -/
theorem not_loadBalanced_overflow :
    ¬ ({ nProc := 0, nodes := [procAlloc] } : ProcPool).LoadBalanced 2147483849 := by
  rintro ⟨t, ht, -⟩
  have hp := levelled_zero (p := { nProc := 0, nodes := [procAlloc] }) (by decide)
  rw [hp.notices_eq_none (by decide) (by decide)] at ht
  cases ht

end ProcPool

end PreforkHttpd
