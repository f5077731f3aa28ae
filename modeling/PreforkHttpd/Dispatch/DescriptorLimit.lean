import PreforkHttpd.Dispatch.Ownership
import Mathlib.Data.List.Nodup
import Mathlib.Data.List.Perm.Subperm

/-!
# How many clients the master accepts

The accept loop of `start()` closes no client, so the master holds every connection that it has
accepted for as long as it lives: a client never sees its connection end, whatever the worker that
serves it closes. The kernel gives a process the numbers below a limit. With the numbers in `others`
open for something else, the master has accepted at most as many clients as there are numbers left,
and when these are used up the next `accept` fails with `EMFILE`, which `Accept` passes to
`unix_error`. The process exits there, with status `0`.

The bound is over the whole life of the master, not over the clients of one moment
(`accepted_add_length_le`), since no step of the run makes a number free.
-/

open LabelledRun

namespace PreforkHttpd

/-- A number that the kernel can give to a client, below the limit and not one of the `others`. -/
def Available (limit : ℕ) (others : List Fd) (fd : Fd) : Prop := fd < limit ∧ fd ∉ others

instance (limit : ℕ) (others : List Fd) (fd : Fd) : Decidable (Available limit others fd) :=
  inferInstanceAs (Decidable (_ ∧ _))

/-- What the kernel promises of a step: `accept` returns a number that is available. -/
def Act.Within (limit : ℕ) (others : List Fd) : Act → Prop
  | .master (.accept (some fd)) => Available limit others fd
  | _ => True

instance (limit : ℕ) (others : List Fd) : (a : Act) → Decidable (a.Within limit others)
  | .master (.accept (some fd)) => inferInstanceAs (Decidable (Available limit others fd))
  | .master (.accept none) | .master (.epollWait _) | .master (.setnoblock _)
  | .master (.sockFdWrite _) | .master .exit | .sockFdRead _ _ | .worker _ _ => instDecidableTrue

/-- The numbers that are open for something else than clients. -/
structure OtherFds (limit : ℕ) (others : List Fd) : Prop where
  nodup : others.Nodup
  bounded : ∀ fd ∈ others, 0 ≤ fd ∧ fd < limit

/-- **Numbers run out**: different numbers below a limit are no more than the limit. -/
theorem length_le_of_nodup {limit : ℕ} {fds : List Fd} (hnodup : fds.Nodup)
    (h : ∀ fd ∈ fds, 0 ≤ fd ∧ fd < limit) : fds.length ≤ limit := by
  have hsub : fds ⊆ (List.range limit).map fun n : ℕ ↦ (n : ℤ) := fun fd hfd ↦ by
    obtain ⟨hnonneg, hlt⟩ := h fd hfd
    exact List.mem_map.2
      ⟨fd.toNat, List.mem_range.2 ((Int.toNat_lt hnonneg).2 hlt), Int.toNat_of_nonneg hnonneg⟩
  simpa using (hnodup.subperm hsub).length_le

namespace System

variable {limit : ℕ} {others : List Fd} {s s' t : System} {acts more : List Act}

/-- The numbers of the master's clients are available ones, one for each client, and there are no
more than are left. -/
structure Numbered (limit : ℕ) (others : List Fd) (s : System) : Prop where
  masterInv : s.MasterInv
  nodup : (s.master.table.map Prod.fst).Nodup
  available : ∀ fd ∈ s.master.table.map Prod.fst, 0 ≤ fd ∧ Available limit others fd
  accepted_add_le : s.accepted + others.length ≤ limit

theorem numbered_initial (hothers : OtherFds limit others) : initial.Numbered limit others where
  masterInv := masterInv_initial
  nodup := List.nodup_nil
  available := nofun
  accepted_add_le := (Nat.zero_add _).trans_le (length_le_of_nodup hothers.nodup hothers.bounded)

/-- **The master holds every client** that it has accepted. -/
theorem MasterInv.table_eq (hs : s.MasterInv) (halive : s.master.pc ≠ .exited) :
    s.master.table.map Prod.snd = (List.range s.accepted).reverse := by
  cases hpc : s.master.pc with
  | epollWait => exact (show _ ∧ _ by simpa only [MasterInv, hpc] using hs).1
  | accept => exact (show _ ∧ _ by simpa only [MasterInv, hpc] using hs).1
  | exited => exact absurd hpc halive
  | _ =>
    simp only [MasterInv, hpc] at hs
    obtain ⟨n, rest, hn, htable, hrest, -⟩ := hs
    rw [htable, hn, List.map_cons, hrest, List.range_succ, List.reverse_concat]

/-- **A client is accepted** with one of the numbers that are left. -/
theorem Numbered.of_accept {fd : Fd} (hothers : OtherFds limit others)
    (hs : s.Numbered limit others) (hpc : s.master.pc = .accept) (hfresh : s.master.table.Fresh fd)
    (hfd : Available limit others fd) (hs' : s'.MasterInv)
    (htable : s'.master.table = (fd, s.accepted) :: s.master.table)
    (haccepted : s'.accepted = s.accepted + 1) : s'.Numbered limit others := by
  have hnodup : (s'.master.table.map Prod.fst).Nodup := by
    rw [htable]
    exact List.nodup_cons.2 ⟨hfresh.2, hs.nodup⟩
  have havailable : ∀ n ∈ s'.master.table.map Prod.fst, 0 ≤ n ∧ Available limit others n := by
    rw [htable]
    exact List.forall_mem_cons.2 ⟨⟨hfresh.1, hfd⟩, hs.available⟩
  refine ⟨hs', hnodup, havailable, ?_⟩
  have hall : (s'.master.table.map Prod.fst ++ others).length ≤ limit := length_le_of_nodup
    (List.Nodup.append hnodup hothers.nodup fun n hn hother ↦ (havailable n hn).2.2 hother)
    (List.forall_mem_append.2
      ⟨fun n hn ↦ ⟨(havailable n hn).1, (havailable n hn).2.1⟩, hothers.bounded⟩)
  have hlength := congrArg List.length (hs.masterInv.table_eq (hpc ▸ nofun))
  rw [List.length_append, htable] at hall
  simp only [List.length_map, List.length_cons, List.length_reverse, List.length_range]
    at hall hlength
  omega

theorem Numbered.step {a : Act} (hothers : OtherFds limit others) (hs : s.Numbered limit others)
    (ha : a.Within limit others) (h : s.step a = some s') : s'.Numbered limit others := by
  have hinv := hs.masterInv.step h
  cases a with
  | master a =>
    cases masterStep_of_stepMaster h with
    | accept hpc hfresh => exact hs.of_accept hothers hpc hfresh ha hinv rfl rfl
    | notReady => exact ⟨hinv, List.nodup_nil, nofun, hs.accepted_add_le⟩
    | acceptFailed => exact ⟨hinv, List.nodup_nil, nofun, hs.accepted_add_le⟩
    | setnoblockFailed => exact ⟨hinv, List.nodup_nil, nofun, hs.accepted_add_le⟩
    | exit => exact ⟨hinv, List.nodup_nil, nofun, hs.accepted_add_le⟩
    | _ => exact ⟨hinv, hs.nodup, hs.available, hs.accepted_add_le⟩
  | sockFdRead w fd =>
    obtain ⟨c, queue, -, -, rfl⟩ := stepRead_cases h
    exact ⟨hinv, hs.nodup, hs.available, hs.accepted_add_le⟩
  | worker w a =>
    obtain ⟨k, -, rfl⟩ := stepWorker_cases h
    exact ⟨hinv, hs.nodup, hs.available, hs.accepted_add_le⟩

theorem numbered_of_runFrom (hothers : OtherFds limit others)
    (hrun : runFrom step initial acts = some s) (hwithin : ∀ a ∈ acts, a.Within limit others) :
    s.Numbered limit others :=
  invariant_of_along (fun hs ha h ↦ hs.step hothers ha h) hrun
    ((along_iff_forall hrun).2 hwithin) (numbered_initial hothers)

/-! ### The end of the master -/

/-- A master that is gone does not come back. -/
theorem pc_exited_of_step {a : Act} (hpc : s.master.pc = .exited) (h : s.step a = some s') :
    s'.master.pc = .exited := by
  cases a with
  | master a =>
    cases masterStep_of_stepMaster h with
    | ready hpc' => simp [hpc] at hpc'
    | accept hpc' => simp [hpc] at hpc'
    | setnoblock hpc' => simp [hpc] at hpc'
    | condSent hpc' => simp [hpc] at hpc'
    | condFailed hpc' => simp [hpc] at hpc'
    | bodySent hpc' => simp [hpc] at hpc'
    | bodyFailed hpc' => simp [hpc] at hpc'
    | _ => rfl
  | sockFdRead w fd =>
    obtain ⟨c, queue, -, -, rfl⟩ := stepRead_cases h
    exact hpc
  | worker w a =>
    obtain ⟨k, -, rfl⟩ := stepWorker_cases h
    exact hpc

/-- **An `accept` with no number left** is the end of the master. -/
theorem pc_exited_of_accept {r : Option Fd} (hfull : s.accepted + others.length = limit)
    (hs' : s'.Numbered limit others) (h : s.step (.master (.accept r)) = some s') :
    s'.master.pc = .exited := by
  cases masterStep_of_stepMaster h with
  | accept hpc hfresh =>
    have hle : s.accepted + 1 + others.length ≤ limit := hs'.accepted_add_le
    omega
  | acceptFailed => rfl

/-- **The descriptor limit is a limit on the clients of a lifetime.** In every run in which the
kernel keeps to the numbers below the limit, the master accepts no more clients than it had numbers
left at the start, and holds all of them as long as it lives. When it has accepted so many, no
continuation of the run accepts another one, and its next call of `accept` is its last. -/
theorem accepted_add_length_le (hothers : OtherFds limit others)
    (hrun : runFrom step initial acts = some s) (hwithin : ∀ a ∈ acts, a.Within limit others) :
    s.accepted + others.length ≤ limit ∧
      (s.master.pc ≠ .exited → ∀ c < s.accepted, s.Holds .master c) ∧
      (s.accepted + others.length = limit → ∀ more t, runFrom step s more = some t →
        (∀ a ∈ more, a.Within limit others) → t.accepted = s.accepted ∧
          ∀ r, .master (.accept r) ∈ more → t.master.pc = .exited) := by
  have hnumbered := numbered_of_runFrom hothers hrun hwithin
  refine ⟨hnumbered.accepted_add_le, fun halive c hc ↦ ?_, fun hfull more t hmore hwithin' ↦ ?_⟩
  · show c ∈ s.master.table.map Prod.snd
    rw [hnumbered.masterInv.table_eq halive]
    exact List.mem_reverse.2 (List.mem_range.2 hc)
  -- every state of the continuation has accepted the same clients
  have hsame : ∀ {before m}, runFrom step s before = some m →
      (∀ a ∈ before, a.Within limit others) →
      m.Numbered limit others ∧ m.accepted = s.accepted := by
    intro before m hbefore hbefore'
    have hboth := runFrom_append_eq_some_iff.2 ⟨s, hrun, hbefore⟩
    have hm := numbered_of_runFrom hothers hboth (List.forall_mem_append.2 ⟨hwithin, hbefore'⟩)
    have hcount := accepted_eq_countP hboth
    rw [List.countP_append, ← accepted_eq_countP hrun] at hcount
    exact ⟨hm, by have := hm.accepted_add_le; omega⟩
  refine ⟨(hsame hmore hwithin').2, fun r hr ↦ ?_⟩
  obtain ⟨before, after, rfl⟩ := List.append_of_mem hr
  obtain ⟨hbefore', hafter'⟩ := List.forall_mem_append.1 hwithin'
  obtain ⟨hr', -⟩ := List.forall_mem_cons.1 hafter'
  obtain ⟨m, hm, hrest⟩ := runFrom_append_eq_some_iff.1 hmore
  obtain ⟨m', hstep, hafter⟩ := runFrom_cons_eq_some_iff.1 hrest
  obtain ⟨hnum, heq⟩ := hsame hm hbefore'
  refine invariant_of_runFrom (fun t ↦ t.master.pc = .exited) pc_exited_of_step hafter ?_
  exact pc_exited_of_accept (heq ▸ hfull) (hnum.step hothers hr' hstep) hstep

/-- With eight numbers, seven of them in use, one client is accepted, and the next `accept` ends the
master. -/
theorem accepted_add_length_le_eight :
    ∃ s t, runFrom step initial serveOne = some s ∧ s.accepted = 1 ∧
      runFrom step s [.master (.accept none)] = some t ∧ t.master.pc = .exited := by
  have hothers : OtherFds 8 [0, 1, 2, 3, 4, 6, 7] := ⟨by decide, by decide⟩
  have hrun : runFrom step initial serveOne = some _ := rfl
  have hall := accepted_add_length_le hothers hrun (by decide)
  have hend := hall.2.2 rfl [.master (.accept none)] _ rfl (by decide)
  exact ⟨_, _, hrun, rfl, rfl, hend.2 none (by decide)⟩

end System

end PreforkHttpd
