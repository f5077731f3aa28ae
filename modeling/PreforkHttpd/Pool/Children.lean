import PreforkHttpd.Pool.ProcPool
import Mathlib.Data.Multiset.AddSub
import Mathlib.Data.Multiset.Replicate
import Mathlib.Data.List.OfFn
import Mathlib.Data.List.FinRange

/-!
# The pool tracks the manager's children

The manager forks at two places: `init_manager_proc` forks `NPROC_MAX_NUM` workers into a freshly
created pool, and `handler_dead_processor` forks one for each worker reported dead. This module
follows the pool of the parent process through the first and then through any number of the second.

`n_proc` counts the first kind of registration and not the second, so it falls by one with every
report. It does not have to be exact to do its work here: it is at most `NPROC_MAX_NUM` at the end
of start-up, and **strictly** below it after each deletion, so the guard of `insert_pool` is always
open. What keeps the list at `NPROC_MAX_NUM` nodes is that each push comes right after a deletion
that did remove a node.

A system reuses pids, so "forked and not reported dead" is an equation between **multisets**: a pid
may have been forked twice and reported dead once.
-/

open LabelledRun

namespace PreforkHttpd

namespace ProcPool

/-! ### The manager's two loops -/

/-- One turn of the loop of `init_manager_proc` in the parent, `pid` being the result of `fork`. A
negative result exits the process. For `0` this is the child's own copy, should its
`jump_task_pool_obj` ever return. -/
def registerFork (p : ProcPool) (pid : ℤ) : Option ProcPool :=
  if pid < 0 then none else insertPoolObj pid p

/-- `proc_pool` as `SLIST_HEAD_INITIALIZER` leaves it. -/
def headInitializer : ProcPool where
  nProc := 0
  nodes := []

/-- `init_manager_proc`, where the `i`-th `fork` returned `fork i`. -/
def initManagerProc (fork : Fin nprocMaxNum → ℤ) (p : ProcPool) : Option ProcPool :=
  runFrom registerFork (createProcPool p) (List.ofFn fork)

/-- A report of a dead worker: the pid handed to `handler_dead_processor`, and the pid of the child
that is forked in its place. -/
structure Report where
  dead : ℤ
  child : ℤ
deriving DecidableEq

/-- The call of `handler_dead_processor` for one report. -/
def report (p : ProcPool) (r : Report) : Option ProcPool := handlerDeadProcessor r.dead r.child p

/-- The report is about a worker of the pool, and the child's pid is not taken: the dead worker's
own pid may have been given out again. -/
def Reported (p : ProcPool) (r : Report) : Prop :=
  r.dead ∈ p.pids ∧ 0 < r.child ∧ r.child ∉ p.pids.erase r.dead

/-- The manager's pool after start-up and the given reports. -/
def manage (fork : Fin nprocMaxNum → ℤ) (rs : List Report) : Option ProcPool :=
  (initManagerProc fork headInitializer).bind fun p ↦ runFrom report p rs

/-- The pids the manager's calls of `fork` have returned. -/
def forked (fork : Fin nprocMaxNum → ℤ) (rs : List Report) : List ℤ :=
  List.ofFn fork ++ rs.map Report.child

instance (p : ProcPool) (r : Report) : Decidable (p.Reported r) :=
  inferInstanceAs (Decidable (_ ∧ _ ∧ _))

/-! ### Start-up -/

variable {p : ProcPool} {pid child : ℤ}

/-- With a node unfilled, `insert_pool_obj` puts the pid in the place of one `-1`. -/
theorem exists_insertPoolObj (pid : ℤ) (hmem : -1 ∈ p.pids) (hlo : 0 ≤ p.nProc)
    (hup : p.nProc < nprocMaxNum) :
    ∃ (q : ProcPool) (rest : Multiset ℤ), insertPoolObj pid p = some q ∧
      (p.pids : Multiset ℤ) = -1 ::ₘ rest ∧ (q.pids : Multiset ℤ) = pid ::ₘ rest ∧
      q.nProc = p.nProc + 1 := by
  rcases hslot : fillSlot pid p.nodes with - | nodes
  · exact absurd hmem (fillSlot_eq_none_iff.1 hslot)
  · obtain ⟨xs, ys, hold, hnew⟩ := map_pid_of_fillSlot hslot
    have hmax : (nprocMaxNum : ℤ) = 10 := rfl
    have hn : int32 (p.nProc + 1) = some (p.nProc + 1) :=
      int32_eq_some_iff.2 ⟨rfl, by omega, by omega⟩
    refine ⟨{ nProc := p.nProc + 1, nodes := nodes }, ↑(xs ++ ys), ?_, ?_, ?_, rfl⟩
    · simp only [insertPoolObj, hslot, hn, Option.map_some]
    · rw [pids, hold]
      exact Multiset.coe_eq_coe.2 List.perm_middle
    · rw [pids, hnew]
      exact Multiset.coe_eq_coe.2 List.perm_middle

/-- Part of the way through start-up: `forked` have been registered and `n` nodes are left. -/
structure Filling (forked : Multiset ℤ) (n : ℕ) (p : ProcPool) : Prop where
  pids_eq : (p.pids : Multiset ℤ) = forked + Multiset.replicate n (-1)
  nProc_eq : p.nProc = forked.card
  room : forked.card + n = nprocMaxNum

theorem filling_createProcPool : Filling 0 nprocMaxNum initial where
  pids_eq := (Multiset.zero_add _).symm
  nProc_eq := rfl
  room := rfl

/-- **One turn of start-up** registers the new child in an unfilled node. -/
theorem Filling.registerFork {forked : Multiset ℤ} {n : ℕ} (hp : p.Filling forked (n + 1))
    (hpid : 0 < pid) : ∃ q, registerFork p pid = some q ∧ q.Filling (pid ::ₘ forked) n := by
  obtain ⟨hpids, hn, hroom⟩ := hp
  have hunfilled : (p.pids : Multiset ℤ) = -1 ::ₘ (forked + Multiset.replicate n (-1)) := by
    rw [hpids, Multiset.replicate_succ, Multiset.add_cons]
  have hmem : -1 ∈ p.pids := by
    rw [← Multiset.mem_coe, hunfilled]
    exact Multiset.mem_cons_self _ _
  obtain ⟨q, rest, hq, hold, hnew, hqn⟩ :=
    exists_insertPoolObj pid hmem (by omega) (by omega)
  obtain rfl : rest = forked + Multiset.replicate n (-1) :=
    (Multiset.cons_inj_right _).1 (hold.symm.trans hunfilled)
  refine ⟨q, (if_neg (not_lt.2 hpid.le)).trans hq, ?_, ?_, ?_⟩
  · rw [hnew, Multiset.cons_add]
  · rw [hqn, hn, Multiset.card_cons]
    rfl
  · rw [Multiset.card_cons]
    omega

/-- The rest of the loop registers the rest of the children. -/
theorem Filling.registerForks {forked : Multiset ℤ} {forks : List ℤ}
    (hp : p.Filling forked forks.length) (hpos : ∀ pid ∈ forks, 0 < pid) :
    ∃ q, runFrom ProcPool.registerFork p forks = some q ∧ q.Filling (forks + forked) 0 := by
  induction forks generalizing p forked with
  | nil => exact ⟨p, rfl, by rwa [Multiset.coe_nil, Multiset.zero_add]⟩
  | cons pid forks ih =>
    obtain ⟨hpid, hrest⟩ := List.forall_mem_cons.1 hpos
    obtain ⟨q, hq, hfill⟩ := hp.registerFork hpid
    obtain ⟨r, hr, hfill⟩ := ih hfill hrest
    refine ⟨r, runFrom_cons_eq_some_iff.2 ⟨q, hq, hr⟩, ?_⟩
    rwa [← Multiset.cons_coe, Multiset.cons_add, ← Multiset.add_cons]

/-! ### The children that live -/

/-- The pool holds the children forked and not reported dead, each in a node of its own, and the
counter has missed as many registrations as there were reports. -/
structure Tracks (forked dead : Multiset ℤ) (p : ProcPool) : Prop where
  length_eq : p.nodes.length = nprocMaxNum
  nodup : p.pids.Nodup
  pids_eq : p.pids + dead = forked
  nProc_eq : p.nProc = nprocMaxNum - dead.card

/-- **After start-up** the pool holds the children that were forked. -/
theorem exists_tracks_of_initManagerProc {fork : Fin nprocMaxNum → ℤ} (hpos : ∀ i, 0 < fork i)
    (hinj : Function.Injective fork) :
    ∃ q, initManagerProc fork headInitializer = some q ∧
      q.Tracks (List.ofFn fork) 0 := by
  have hlen : (List.ofFn fork).length = nprocMaxNum := List.length_ofFn
  have hstart : initial.Filling 0 (List.ofFn fork).length := by
    rw [hlen]
    exact filling_createProcPool
  have hforks : ∀ pid ∈ List.ofFn fork, 0 < pid := fun pid hpid ↦ by
    obtain ⟨i, rfl⟩ := List.mem_ofFn.1 hpid
    exact hpos i
  obtain ⟨q, hq, hpids, hn, hroom⟩ := hstart.registerForks hforks
  rw [Multiset.add_zero] at hn
  rw [Multiset.add_zero, Multiset.replicate_zero, Multiset.add_zero] at hpids
  refine ⟨q, hq, ?_, ?_, ?_, ?_⟩
  · have hcard := congrArg Multiset.card hpids
    rwa [Multiset.coe_card, Multiset.coe_card, hlen, pids, List.length_map] at hcard
  · exact (Multiset.coe_eq_coe.1 hpids).nodup_iff.2 (List.nodup_ofFn.2 hinj)
  · rw [hpids, Multiset.add_zero]
  · rw [hn, Multiset.coe_card, hlen]
    rfl

/-- As long as the counter stays within an `int` and does not exceed the capacity, a report unlinks
the dead worker and pushes the child: the decremented counter is below the capacity. -/
theorem exists_handlerDeadProcessor (p : ProcPool) (pid : ℤ) (hchild : 0 < child)
    (hlo : -2147483648 < p.nProc) (hup : p.nProc ≤ nprocMaxNum) :
    ∃ q, handlerDeadProcessor pid child p = some q ∧
      q.pids = child :: p.pids.erase pid ∧ q.nProc = p.nProc - 1 := by
  have hmax : (nprocMaxNum : ℤ) = 10 := rfl
  let q : ProcPool :=
    { nProc := p.nProc - 1, nodes := p.nodes.eraseP fun item ↦ item.pid = pid }
  have hdel : deletePoolObj pid p = some q := by
    rw [deletePoolObj, int32_eq_some_iff.2 ⟨rfl, by omega, by omega⟩, Option.map_some]
  obtain ⟨hpids, hn⟩ := insertPool_of_lt child (p := q) (show p.nProc - 1 < _ by omega)
  refine ⟨insertPool child q, ?_, ?_, hn⟩
  · rw [handlerDeadProcessor, hdel, Option.bind_some, if_neg (not_lt.2 hchild.le)]
  · rw [hpids, (deletePoolObj_view hdel).1]

/-- **One report** takes the dead worker's node away and adds one for the child. -/
theorem Tracks.report {forked dead : Multiset ℤ} {r : Report} (hp : p.Tracks forked dead)
    (hcount : dead.card < 2147483648) (hr : p.Reported r) :
    ∃ q, p.report r = some q ∧ q.Tracks (r.child ::ₘ forked) (r.dead ::ₘ dead) := by
  obtain ⟨hlen, hnodup, hpids, hn⟩ := hp
  obtain ⟨hmem, hchild, hfresh⟩ := hr
  obtain ⟨q, hq, hqpids, hqn⟩ :=
    exists_handlerDeadProcessor p r.dead hchild (by omega) (by omega)
  refine ⟨q, hq, ?_, ?_, ?_, ?_⟩
  · have hqlen : q.pids.length = p.pids.length := by
      rw [hqpids, List.length_cons, List.length_erase_add_one hmem]
    rwa [pids, pids, List.length_map, List.length_map, hlen] at hqlen
  · exact hqpids ▸ (hnodup.erase r.dead).cons hfresh
  · rw [hqpids, ← Multiset.cons_coe, Multiset.cons_add, Multiset.add_cons, ← Multiset.cons_add,
      Multiset.cons_coe, Multiset.coe_eq_coe.2 (List.perm_cons_erase hmem).symm, hpids]
  · rw [hqn, hn, Multiset.card_cons]
    omega

/-- The reports to come keep the pool in step with the children. -/
theorem Tracks.reports {forked dead : Multiset ℤ} {rs : List Report} (hp : p.Tracks forked dead)
    (hcount : dead.card + rs.length ≤ 2147483648) (hrs : Along ProcPool.report Reported p rs) :
    ∃ q, runFrom ProcPool.report p rs = some q ∧
      q.Tracks (forked + rs.map Report.child) (dead + rs.map Report.dead) := by
  induction rs generalizing p forked dead with
  | nil => exact ⟨p, rfl, by
    rwa [List.map_nil, List.map_nil, Multiset.coe_nil, Multiset.add_zero, Multiset.add_zero]⟩
  | cons r rs ih =>
    rw [List.length_cons] at hcount
    obtain ⟨q, hq, htracks⟩ := hp.report (by omega) hrs.1
    obtain ⟨s, hs, htracks⟩ :=
      ih htracks (by rw [Multiset.card_cons]; omega) ((along_cons_iff hq).1 hrs).2
    refine ⟨s, runFrom_cons_eq_some_iff.2 ⟨q, hq, hs⟩, ?_⟩
    rwa [List.map_cons, List.map_cons, ← Multiset.cons_coe, ← Multiset.cons_coe, Multiset.add_cons,
      Multiset.add_cons, ← Multiset.cons_add, ← Multiset.cons_add]

/-- Read as sets: when no pid was given out twice, the pids in the pool are the forked ones that
were not reported. -/
theorem mem_pids_iff {forked dead : List ℤ} (hpids : (p.pids : Multiset ℤ) + dead = forked)
    (hforked : forked.Nodup) : pid ∈ p.pids ↔ pid ∈ forked ∧ pid ∉ dead := by
  rw [Multiset.coe_add, Multiset.coe_eq_coe] at hpids
  have hdisj := List.disjoint_of_nodup_append (hpids.nodup_iff.2 hforked)
  rw [← hpids.mem_iff, List.mem_append]
  exact ⟨fun h ↦ ⟨Or.inl h, fun hdead ↦ hdisj h hdead⟩, fun ⟨h, hdead⟩ ↦ h.resolve_right hdead⟩

/-- **The pool tracks the children.** After start-up with distinct children, and fewer than `2 ^ 31`
reports of workers in the pool, each replaced by a child whose pid is not in the pool, the list has
`NPROC_MAX_NUM` nodes with distinct pids, and these are the pids forked without the pids reported
dead. -/
theorem tracks_children {fork : Fin nprocMaxNum → ℤ} {rs : List Report} (hpos : ∀ i, 0 < fork i)
    (hinj : Function.Injective fork) (hcount : rs.length < 2147483648)
    (hrs : ∀ p, initManagerProc fork headInitializer = some p → Along report Reported p rs) :
    ∃ p, manage fork rs = some p ∧ p.nodes.length = nprocMaxNum ∧ p.pids.Nodup ∧
      (p.pids : Multiset ℤ) + (rs.map Report.dead : List ℤ) = forked fork rs ∧
      ((forked fork rs).Nodup →
        ∀ pid, pid ∈ p.pids ↔ pid ∈ forked fork rs ∧ pid ∉ rs.map Report.dead) := by
  obtain ⟨p, hp, htracks⟩ := exists_tracks_of_initManagerProc hpos hinj
  have hroom : Multiset.card (0 : Multiset ℤ) + rs.length ≤ 2147483648 := by
    rw [Multiset.card_zero]
    omega
  obtain ⟨q, hq, hlen, hnodup, hpids, -⟩ := htracks.reports hroom (hrs p hp)
  rw [Multiset.zero_add, Multiset.coe_add (List.ofFn fork)] at hpids
  refine ⟨q, ?_, hlen, hnodup, hpids, fun hforked pid ↦ mem_pids_iff hpids hforked⟩
  rw [manage, hp, Option.bind_some, hq]

/-- Children with the pids from `1` on. -/
def firstPids (i : Fin nprocMaxNum) : ℤ := i + 1

/-- Worker `3` is reported dead and replaced by `11`, then `11` by a child that is `3` again. -/
def reuse : List Report := [⟨3, 11⟩, ⟨11, 3⟩]

theorem tracks_children_reuse :
    ∃ p, manage firstPids reuse = some p ∧ p.nodes.length = nprocMaxNum ∧ p.pids.Nodup ∧
      (p.pids : Multiset ℤ) + (reuse.map Report.dead : List ℤ) = forked firstPids reuse := by
  have hinj : Function.Injective firstPids := by
    intro i j h
    have : (i : ℤ) + 1 = j + 1 := h
    omega
  have hrs : ∀ p, initManagerProc firstPids headInitializer = some p →
      Along report Reported p reuse := by
    intro p hp
    obtain rfl := Option.some.inj (show some _ = some p from hp)
    decide
  obtain ⟨p, hp, hlen, hnodup, hpids, -⟩ :=
    tracks_children (by decide) hinj (by decide) hrs
  exact ⟨p, hp, hlen, hnodup, hpids⟩

end ProcPool

end PreforkHttpd
