import PreforkHttpd.Pool.Balance
import PreforkHttpd.Pool.Children
import PreforkHttpd.Pool.Counter

/-!
# When a call of `notice_child` is a valid assignment

`notice_child` looks at nothing but `nleft`. It reads the first node before it knows that there is
one, it does not skip the nodes that `proc_alloc` has marked with `-1`, and it decrements the
`nleft` it has found, whatever that is. The pools it can be called on include the empty one, pools
with nodes that no worker was registered in, and pools that have nothing left to give.

Its loop moves on to a later node also when that node has **as much** left as the best so far, so
the node it ends on is the last of the fullest (`LastFullest.noticeCursors_eq`). The call is a
valid assignment precisely when that node is there, is filled, and has something left
(`assigns_iff`), and the `nleft` of all nodes stay where `proc_alloc` and the name `MAX_FD_NUM` put
them precisely as long as every call finds some node with something left. `scheduling_iff` says both
of every run from the initializer.
-/

open LabelledRun

namespace PreforkHttpd

/-- The operations of the parent on the pool, from its initializer on. -/
inductive PoolCall
  | createProcPool
  | insertPoolObj (pid : Pid)
  | insertPool (pid : Pid)
  | deletePoolObj (pid : Pid)
  | noticeChild
deriving DecidableEq

namespace ProcPool

/-- One call. -/
def call (p : ProcPool) : PoolCall → Option ProcPool
  | .createProcPool => some (createProcPool p)
  | .insertPoolObj pid => insertPoolObj pid p
  | .insertPool pid => some (insertPool pid p)
  | .deletePoolObj pid => deletePoolObj pid p
  | .noticeChild => (noticeChild p).map Prod.snd

/-- **A valid assignment**: the call returns the pid of a filled node that has something left, and
takes one unit from that node. -/
def Assigns (p : ProcPool) : Prop :=
  ∃ i item, p.nodes[i]? = some item ∧ item.pid ≠ -1 ∧ 0 < item.nleft ∧
    noticeCursors p =
      some (item.pid, { p with nodes := p.nodes.set i { item with nleft := item.nleft - 1 } })

/-- No node has less than nothing left, or more than `proc_alloc` gave it. -/
def InRange (p : ProcPool) : Prop := ∀ item ∈ p.nodes, 0 ≤ item.nleft ∧ item.nleft ≤ maxFdNum

/-- `item` is the last of the nodes that have the most left. -/
structure LastFullest (nodes before : List Processor) (item : Processor) (after : List Processor) :
    Prop where
  split : nodes = before ++ item :: after
  before_le : ∀ other ∈ before, other.nleft ≤ item.nleft
  after_lt : ∀ other ∈ after, other.nleft < item.nleft

/-- The last of the fullest nodes is there, is filled, and has something left. -/
def Schedulable (p : ProcPool) : Prop :=
  ∃ before item after, LastFullest p.nodes before item after ∧ item.pid ≠ -1 ∧ 0 < item.nleft

/-- A call of `notice_child` finds a node with something left. -/
def Spares (p : ProcPool) : PoolCall → Prop
  | .noticeChild => ∃ item ∈ p.nodes, 0 < item.nleft
  | _ => True

instance (p : ProcPool) : DecidablePred p.Spares
  | .noticeChild => inferInstanceAs (Decidable (∃ item ∈ p.nodes, 0 < item.nleft))
  | .createProcPool | .insertPoolObj _ | .insertPool _ | .deletePoolObj _ =>
    inferInstanceAs (Decidable True)

/-! ### The node that is chosen -/

variable {p p' : ProcPool} {nodes before after : List Processor} {item : Processor}

/-- Nodes with less left do not move the cursors. -/
theorem noticeScan_of_lt {max : ℤ} {pre i : ℕ} (h : ∀ other ∈ after, other.nleft < max) :
    noticeScan max pre i after = pre := by
  induction after generalizing i with
  | nil => rfl
  | cons next after ih =>
    obtain ⟨hnext, hrest⟩ := List.forall_mem_cons.1 h
    rw [noticeScan, if_neg (not_le.2 hnext)]
    exact ih hrest

/-- A node with at least as much left as those before it takes the cursors. -/
theorem noticeScan_append {max : ℤ} {pre i : ℕ} (hmax : max ≤ item.nleft)
    (h : ∀ other ∈ before, other.nleft ≤ item.nleft) :
    noticeScan max pre i (before ++ item :: after) =
      noticeScan item.nleft (i + before.length) (i + before.length + 1) after := by
  induction before generalizing max pre i with
  | nil => exact if_pos hmax
  | cons next before ih =>
    obtain ⟨hnext, hrest⟩ := List.forall_mem_cons.1 h
    have hindex : i + (next :: before).length = i + 1 + before.length := by
      rw [List.length_cons]
      omega
    rw [List.cons_append, noticeScan, hindex]
    split
    · exact ih hnext hrest
    · exact ih hmax hrest

/-- A list of nodes has a last fullest one. -/
theorem exists_lastFullest (hne : nodes ≠ []) :
    ∃ before item after, LastFullest nodes before item after := by
  induction nodes with
  | nil => exact absurd rfl hne
  | cons first nodes ih =>
    rcases eq_or_ne nodes [] with rfl | hrest
    · exact ⟨[], first, [], rfl, by simp, by simp⟩
    · obtain ⟨before, item, after, hsplit, hbefore, hafter⟩ := ih hrest
      rcases le_or_gt first.nleft item.nleft with hle | hlt
      · refine ⟨first :: before, item, after, by simp [hsplit], ?_, hafter⟩
        exact List.forall_mem_cons.2 ⟨hle, hbefore⟩
      · -- all the others have less left than the first
        refine ⟨[], first, nodes, rfl, by simp, fun other hother ↦ ?_⟩
        rw [hsplit, List.mem_append, List.mem_cons] at hother
        rcases hother with hother | rfl | hother
        · exact (hbefore other hother).trans_lt hlt
        · exact hlt
        · exact (hafter other hother).trans hlt

theorem LastFullest.getElem? (h : LastFullest nodes before item after) :
    nodes[before.length]? = some item := by
  simp [h.split]

theorem LastFullest.ne_nil (h : LastFullest nodes before item after) : nodes ≠ [] := by
  simp [h.split]

theorem LastFullest.nleft_le (h : LastFullest nodes before item after) {other : Processor}
    (hother : other ∈ nodes) : other.nleft ≤ item.nleft := by
  rw [h.split, List.mem_append, List.mem_cons] at hother
  rcases hother with hother | rfl | hother
  · exact h.before_le other hother
  · exact le_rfl
  · exact (h.after_lt other hother).le

/-- The scan ends on it. -/
theorem LastFullest.noticeScan_eq (h : LastFullest nodes before item after) {max : ℤ}
    (hmax : max ≤ item.nleft) : noticeScan max 0 0 nodes = before.length := by
  rw [h.split, noticeScan_append hmax h.before_le, noticeScan_of_lt h.after_lt, Nat.zero_add]

/-- **The chosen node** is the last of the fullest. -/
theorem LastFullest.noticeChild_eq (h : LastFullest p.nodes before item after) :
    noticeChild p = (int32 (item.nleft - 1)).map fun n ↦
      (item.pid, { p with nodes := p.nodes.set before.length { item with nleft := n } }) := by
  unfold noticeChild
  split
  next hnil => exact absurd hnil h.ne_nil
  next first rest hnodes =>
    have hfirst : first.nleft ≤ item.nleft := h.nleft_le (hnodes ▸ List.mem_cons_self)
    dsimp only
    rw [h.noticeScan_eq hfirst, h.getElem?, Option.bind_some]

theorem LastFullest.noticeCursors_eq (h : LastFullest p.nodes before item after) :
    noticeCursors p = (int32 (item.nleft - 1)).map fun n ↦
      (item.pid, { p with nodes := p.nodes.set before.length { item with nleft := n } }) :=
  (ProcPool.noticeCursors_eq p).trans h.noticeChild_eq

/-! ### One call -/

/-- A valid assignment is to the last of the fullest nodes. -/
theorem Assigns.schedulable (h : p.Assigns) : p.Schedulable := by
  obtain ⟨i, chosen, hi, hpid, hleft, hcall⟩ := h
  have hne : p.nodes ≠ [] := by
    intro hnil
    simp [hnil] at hi
  obtain ⟨before, item, after, hlast⟩ := exists_lastFullest hne
  rw [hlast.noticeCursors_eq, Option.map_eq_some_iff] at hcall
  obtain ⟨n, hn, heq⟩ := hcall
  obtain ⟨rfl, -⟩ := int32_eq_some_iff.1 hn
  obtain ⟨-, hpool⟩ := Prod.mk.inj heq
  have hset : p.nodes.set before.length { item with nleft := item.nleft - 1 } =
      p.nodes.set i { chosen with nleft := chosen.nleft - 1 } := congrArg ProcPool.nodes hpool
  -- the node that has changed is the one with index `i`
  obtain rfl : before.length = i := by
    by_contra hindex
    have hat := congrArg (fun l : List Processor ↦ l[i]?) hset
    have hlt : i < p.nodes.length := (List.getElem?_eq_some_iff.1 hi).1
    simp only [List.getElem?_set_ne hindex, hi, List.getElem?_set_self hlt] at hat
    have := congrArg Processor.nleft (Option.some.inj hat)
    dsimp only at this
    omega
  obtain rfl : item = chosen := Option.some.inj (hlast.getElem?.symm.trans hi)
  exact ⟨before, item, after, hlast, hpid, hleft⟩

/-- **When a call is a valid assignment.** -/
theorem assigns_iff (hup : ∀ item ∈ p.nodes, item.nleft ≤ maxFdNum) :
    p.Assigns ↔ p.Schedulable := by
  refine ⟨Assigns.schedulable, fun ⟨before, item, after, hlast, hpid, hleft⟩ ↦ ?_⟩
  have hle : item.nleft ≤ 200 := hup item (List.mem_of_getElem? hlast.getElem?)
  refine ⟨before.length, item, hlast.getElem?, hpid, hleft, ?_⟩
  rw [hlast.noticeCursors_eq, int32_eq_some_iff.2 ⟨rfl, by omega, by omega⟩, Option.map_some]

/-! ### What has been left -/

/-- Filling a node leaves what the nodes have left as it is. -/
theorem map_nleft_of_fillSlot {pid : ℤ} {items items' : List Processor}
    (h : fillSlot pid items = some items') :
    items'.map Processor.nleft = items.map Processor.nleft := by
  induction items generalizing items' with
  | nil => simp [fillSlot] at h
  | cons item items ih =>
    rw [fillSlot] at h
    split at h
    · obtain rfl := Option.some.inj h
      rfl
    · obtain ⟨tail, htail, rfl⟩ := Option.map_eq_some_iff.1 h
      rw [List.map_cons, List.map_cons, ih htail]

/-- A call of `notice_child` takes a unit from a fullest node. -/
theorem exists_fullest_of_noticeChild {pid : ℤ} (h : noticeChild p = some (pid, p')) :
    ∃ i item, p.nodes[i]? = some item ∧ (∀ other ∈ p.nodes, other.nleft ≤ item.nleft) ∧
      p' = { p with nodes := p.nodes.set i { item with nleft := item.nleft - 1 } } := by
  have hne : p.nodes ≠ [] := by
    intro hnil
    simp [noticeChild, hnil] at h
  obtain ⟨before, item, after, hlast⟩ := exists_lastFullest hne
  rw [hlast.noticeChild_eq, Option.map_eq_some_iff] at h
  obtain ⟨n, hn, heq⟩ := h
  obtain ⟨rfl, -⟩ := int32_eq_some_iff.1 hn
  exact ⟨before.length, item, hlast.getElem?, fun _ ↦ hlast.nleft_le, (Prod.mk.inj heq).2.symm⟩

/-- **What a call leaves**: each node has what `proc_alloc` gives, or what a node had before, or it
is the fullest node that `notice_child` has taken a unit from. -/
theorem nleft_of_call {op : PoolCall} (h : p.call op = some p') {item' : Processor}
    (hmem : item' ∈ p'.nodes) :
    item'.nleft = maxFdNum ∨ (∃ item ∈ p.nodes, item'.nleft = item.nleft) ∨
      (op = .noticeChild ∧ ∃ item ∈ p.nodes, (∀ other ∈ p.nodes, other.nleft ≤ item.nleft) ∧
        item'.nleft = item.nleft - 1) := by
  match op with
  | .createProcPool =>
    obtain rfl := Option.some.inj h
    have hmem' : item' ∈ List.replicate nprocMaxNum procAlloc ++ p.nodes := hmem
    rcases List.mem_append.1 hmem' with hnew | hold
    · rw [List.eq_of_mem_replicate hnew]
      exact Or.inl rfl
    · exact Or.inr (Or.inl ⟨item', hold, rfl⟩)
  | .insertPoolObj pid =>
    have hloads : p'.loads = p.loads := by
      have hcall : insertPoolObj pid p = some p' := h
      unfold insertPoolObj at hcall
      split at hcall
      · rw [Option.some.inj hcall]
      next nodes hslot =>
        obtain ⟨n, -, rfl⟩ := Option.map_eq_some_iff.1 hcall
        exact map_nleft_of_fillSlot hslot
    have hload : item'.nleft ∈ p.loads := hloads ▸ List.mem_map_of_mem hmem
    obtain ⟨item, hitem, hleft⟩ := List.mem_map.1 hload
    exact Or.inr (Or.inl ⟨item, hitem, hleft.symm⟩)
  | .insertPool pid =>
    obtain rfl := Option.some.inj h
    unfold insertPool at hmem
    split at hmem
    · rcases List.mem_cons.1 hmem with rfl | hold
      · exact Or.inl rfl
      · exact Or.inr (Or.inl ⟨item', hold, rfl⟩)
    · exact Or.inr (Or.inl ⟨item', hmem, rfl⟩)
  | .deletePoolObj pid =>
    obtain ⟨n, -, rfl⟩ := Option.map_eq_some_iff.1 h
    exact Or.inr (Or.inl ⟨item', List.mem_of_mem_eraseP hmem, rfl⟩)
  | .noticeChild =>
    obtain ⟨⟨pid, q⟩, hcall, rfl⟩ := Option.map_eq_some_iff.1 h
    obtain ⟨i, item, hi, hmax, rfl⟩ := exists_fullest_of_noticeChild hcall
    rcases List.mem_or_eq_of_mem_set hmem with hold | rfl
    · exact Or.inr (Or.inl ⟨item', hold, rfl⟩)
    · exact Or.inr (Or.inr ⟨rfl, item, List.mem_of_getElem? hi, hmax, rfl⟩)

/-- No node ever has more than `proc_alloc` gave it. -/
theorem nleft_le_of_call {op : PoolCall} (hup : ∀ item ∈ p.nodes, item.nleft ≤ maxFdNum)
    (h : p.call op = some p') : ∀ item ∈ p'.nodes, item.nleft ≤ maxFdNum := by
  intro item' hmem
  obtain hnew | ⟨item, hitem, hleft⟩ | ⟨-, item, hitem, -, hleft⟩ := nleft_of_call h hmem
  · exact hnew.le
  · exact hleft ▸ hup item hitem
  · have := hup item hitem
    omega

/-- **A call that finds something left** keeps the nodes in range. -/
theorem InRange.call {op : PoolCall} (hp : p.InRange) (hspares : p.Spares op)
    (h : p.call op = some p') : p'.InRange := by
  intro item' hmem
  refine ⟨?_, nleft_le_of_call (fun item hitem ↦ (hp item hitem).2) h item' hmem⟩
  obtain hnew | ⟨item, hitem, hleft⟩ | ⟨rfl, item, hitem, hmax, hleft⟩ := nleft_of_call h hmem
  · rw [hnew]
    decide
  · exact hleft ▸ (hp item hitem).1
  · -- the fullest node has at least what the one with something left has
    obtain ⟨other, hother, hpos⟩ := hspares
    have := hmax other hother
    omega

/-- A call that finds nothing left takes a node below zero. -/
theorem not_inRange_of_not_spares {op : PoolCall} (hspares : ¬ p.Spares op)
    (h : p.call op = some p') : ¬ p'.InRange := by
  intro hp'
  match op with
  | .noticeChild =>
    obtain ⟨⟨pid, q⟩, hcall, rfl⟩ := Option.map_eq_some_iff.1 h
    obtain ⟨i, item, hi, -, rfl⟩ := exists_fullest_of_noticeChild hcall
    have hnone : ¬ 0 < item.nleft := fun hpos ↦ hspares ⟨item, List.mem_of_getElem? hi, hpos⟩
    have hlt : i < p.nodes.length := (List.getElem?_eq_some_iff.1 hi).1
    have := (hp' _ (List.mem_set hlt { item with nleft := item.nleft - 1 })).1
    dsimp only at this
    omega
  | .createProcPool | .insertPoolObj _ | .insertPool _ | .deletePoolObj _ =>
    exact hspares trivial

/-- **When scheduling is valid.** In every pool that a run from the initializer leads to, a call of
`notice_child` is a valid assignment if and only if the last of the fullest nodes is there, is
filled, and has something left. And the nodes are in range in all the pools of the run if and only
if each of its calls of `notice_child` found a node with something left. -/
theorem scheduling_iff {calls : List PoolCall}
    (hrun : runFrom call headInitializer calls = some p) :
    (p.Assigns ↔ p.Schedulable) ∧
      (Throughout call InRange headInitializer calls ↔
        Along call Spares headInitializer calls) := by
  have hempty : ∀ {P : Processor → Prop}, ∀ item ∈ headInitializer.nodes, P item :=
    fun {P} ↦ List.forall_mem_nil P
  refine ⟨assigns_iff ?_, ?_⟩
  · exact invariant_of_runFrom (fun q ↦ ∀ item ∈ q.nodes, item.nleft ≤ maxFdNum) nleft_le_of_call
      hrun hempty
  · exact throughout_iff_along InRange.call id
      (fun _ hspares h ↦ not_inRange_of_not_spares hspares h) hrun hempty

/-- Ten workers registered, and one client assigned. -/
def firstAssignment : List PoolCall :=
  .createProcPool ::
    ((List.range nprocMaxNum).map fun i : ℕ ↦ .insertPoolObj (nthPid i)) ++ [.noticeChild]

/-- The first client has gone to the last worker of the list, and the next one will go to the worker
before it. -/
theorem scheduling_iff_firstAssignment :
    ∃ p, runFrom call headInitializer firstAssignment = some p ∧ p.Assigns ∧
      Throughout call InRange headInitializer firstAssignment := by
  have hrun : runFrom call headInitializer firstAssignment = some _ := rfl
  obtain ⟨hassigns, hrange⟩ := scheduling_iff hrun
  refine ⟨_, hrun, hassigns.2 ?_, hrange.2 (by decide)⟩
  let worker : ℕ → Processor := fun i ↦ { pid := i + 1, nleft := maxFdNum, status := 0 }
  refine ⟨(List.range 8).map worker, worker 8, [{ worker 9 with nleft := 199 }], ?_, ?_, ?_⟩
  · exact ⟨by decide, by decide, by decide⟩
  · decide
  · decide

/-- In the pool as it is created no node is filled, and the call returns `-1`. -/
theorem not_assigns_of_createProcPool :
    ∃ p, runFrom call headInitializer [.createProcPool] = some p ∧
      (∃ p', noticeCursors p = some (-1, p')) ∧ ¬ p.Assigns := by
  refine ⟨_, rfl, ⟨_, rfl⟩, fun h ↦ ?_⟩
  obtain ⟨before, item, after, hlast, hpid, -⟩ := h.schedulable
  exact hpid (congrArg Processor.pid (List.eq_of_mem_replicate
    (List.mem_of_getElem? hlast.getElem? : item ∈ List.replicate nprocMaxNum procAlloc)))

end ProcPool

end PreforkHttpd
