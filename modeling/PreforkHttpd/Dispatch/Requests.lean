import PreforkHttpd.Dispatch.Stranding
import PreforkHttpd.Dispatch.Ownership

/-!
# How many requests the server answers

A worker receives one client at most, since `do_epoll` has no exit, and it answers one request of
this client at most. The responder closes the client's descriptor, but the registration at `epollfd`
outlives the close, because the master keeps a descriptor of the same connection open. The next
time the client is readable (it always is: the rest of its request has not been read), `do_read`
asks `fdopen` for a stream on a number that is not open, and asks again as long as it gets none.

So every answer uses up a worker for good. `respond_count` puts this as a budget: whatever a worker
can still answer is the descriptor in its table (`Worker.room`), there is one for each worker
at most, and no step gives it back. In all its life the server answers `NPROC_MAX_NUM` requests and
no more, no two of them by the same worker.

What the operating system contributes is in `Observed`: `epoll_wait` reports descriptors that were
registered, `fdopen` gives a stream only for a number that is open, and a received descriptor gets a
number that is not in use.
-/

open LabelledRun

namespace PreforkHttpd

/-- The worker that answers a request in this step. -/
def Act.responder : Act → Option (Fin nprocMaxNum)
  | .worker w .respond => some w
  | _ => none

namespace Worker

/-- How many requests the worker can still answer. -/
def room (k : Worker) : ℕ :=
  match k.pc with
  | .sockFdRead | .handlerRequest _ _ => 1
  | .closeFile _ _ | .closeClient _ _ | .exited => 0
  | _ => k.table.length

/-- The one descriptor of a worker: it is in the table from the receive to the end of the request,
and neither it nor an event of `epollfd` is about one of the `others`. -/
structure Single (others : List Fd) (k : Worker) : Prop where
  length_le : k.table.length ≤ 1
  of_pc : match k.pc with
    | .sockFdRead => k.table = []
    | .handleEvents events | .doWrite _ events => ∀ e ∈ events, e.fd ∉ others
    | .doRead fd events => fd ∉ others ∧ ∀ e ∈ events, e.fd ∉ others
    | .handlerRequest fd events | .closeFile fd events | .closeClient fd events =>
      (∀ entry ∈ k.table, entry.1 = fd) ∧ ∀ e ∈ events, e.fd ∉ others
    | _ => True

/-- The number that the loop of `do_read` is about. -/
def reading (k : Worker) : Option Fd :=
  match k.pc with
  | .doRead fd _ => some fd
  | _ => none

/-- What the operating system promises of a worker's step: the events are about registered
descriptors, and `fdopen` gives a stream only for a number that is open. -/
def Observed (registered others : List Fd) (k : Worker) : WorkerAct → Prop
  | .epollWait events => ∀ e ∈ events, e.fd ∈ registered
  | .fdopen ok => ok = true → ∀ fd ∈ k.reading, fd ∈ others ++ k.table.map Prod.fst
  | _ => True

instance (registered others : List Fd) (k : Worker) :
    (a : WorkerAct) → Decidable (k.Observed registered others a)
  | .epollWait events => inferInstanceAs (Decidable (∀ e ∈ events, _))
  | .fdopen ok => inferInstanceAs (Decidable (ok = true → ∀ fd ∈ k.reading, _))
  | .doEpoll | .handleEvent | .respond | .closeFile _ | .closeClient | .write _ | .exit =>
    instDecidableTrue

end Worker

namespace System

/-- The descriptors that worker `w` has offered to its `epollfd`: those it has received. -/
def registered (s : System) (w : Fin nprocMaxNum) : List Fd :=
  s.received.filterMap fun r ↦ if r.1 = w then r.2.1 else none

/-- What the operating system promises of a step, when the processes have the numbers in `others`
open for something else than clients: a received descriptor gets a number that is not in use. -/
def Observed (others : List Fd) (s : System) : Act → Prop
  | .sockFdRead _ fd => ∀ n ∈ fd, n ∉ others
  | .worker w a => (s.workers w).Observed (s.registered w) others a
  | .master _ => True

instance (others : List Fd) (s : System) : (a : Act) → Decidable (s.Observed others a)
  | .sockFdRead _ fd => inferInstanceAs (Decidable (∀ n ∈ fd, n ∉ others))
  | .worker w a => inferInstanceAs (Decidable ((s.workers w).Observed _ others a))
  | .master _ => instDecidableTrue

end System

/-! ### One worker -/

namespace Worker

variable {registered others : List Fd} {k k' : Worker} {a : WorkerAct}

/-- Closing the only number that a table has leaves it empty. -/
theorem close_eq_nil {t : FdTable} {fd : Fd} (h : ∀ entry ∈ t, entry.1 = fd) : t.close fd = [] :=
  List.filter_eq_nil_iff.2 fun entry hentry ↦ by simpa using h entry hentry

/-- What is left after a close was there before. -/
theorem eq_of_mem_close {t : FdTable} {fd file : Fd} (h : ∀ entry ∈ t, entry.1 = fd) :
    ∀ entry ∈ t.close file, entry.1 = fd :=
  fun entry hentry ↦ h entry (List.mem_of_mem_filter hentry)

/-- In a table of one entry every number is the one that is known to be there. -/
theorem eq_of_mem_table {t : FdTable} {fd : Fd} (hlength : t.length ≤ 1)
    (h : fd ∈ t.map Prod.fst) : t.length = 1 ∧ ∀ entry ∈ t, entry.1 = fd := by
  match t, hlength with
  | [], _ => cases h
  | [entry], _ => simpa [eq_comm] using h

/-- A worker that is gone has nothing left. -/
theorem single_exit (k : Worker) : k.exit.Single others := ⟨Nat.zero_le 1, trivial⟩

/-- **What an answer costs.** No step gives a worker room, and the arrival of a request at its
`close` calls takes what there was. -/
theorem single_of_step (hk : k.Single others) (hothers : ∀ fd ∈ registered, fd ∉ others)
    (ha : k.Observed registered others a) (h : k.step a = some k') : k'.Single others ∧
      (if a = .respond then 1 else 0) + k'.room ≤ k.room := by
  obtain ⟨hlength, hpc⟩ := hk
  unfold step at h
  split at h
  next fd heq =>
    obtain rfl := Option.some.inj h
    exact ⟨⟨hlength, trivial⟩, by simp [room, heq]⟩
  next events heq =>
    obtain rfl := Option.some.inj h
    exact ⟨⟨hlength, fun e he ↦ hothers e.fd (ha e he)⟩, by simp [room, heq]⟩
  next heq =>
    obtain rfl := Option.some.inj h
    exact ⟨⟨hlength, trivial⟩, by simp [room, heq]⟩
  next e events heq =>
    simp only [heq] at hpc
    obtain ⟨he, hevents⟩ := List.forall_mem_cons.1 hpc
    split_ifs at h
    · obtain rfl := Option.some.inj h
      exact ⟨⟨hlength, he, hevents⟩, by simp [room, heq]⟩
    · obtain rfl := Option.some.inj h
      exact ⟨⟨hlength, hevents⟩, by simp [room, heq]⟩
    · obtain rfl := Option.some.inj h
      exact ⟨⟨hlength, hevents⟩, by simp [room, heq]⟩
  next fd events ok heq =>
    simp only [heq] at hpc
    cases ok with
    | true =>
      -- the stream is on the one number that is in the table
      obtain rfl := Option.some.inj h
      have hfd := List.mem_append.1 (ha rfl fd (by simp [reading, heq]))
      obtain ⟨hone, hall⟩ := eq_of_mem_table hlength (hfd.resolve_left hpc.1)
      exact ⟨⟨hlength, hall, hpc.2⟩, by simp [room, heq, hone]⟩
    | false =>
      obtain rfl := Option.some.inj h
      exact ⟨⟨hlength, by simpa only [heq] using hpc⟩, by simp⟩
  next fd events heq =>
    simp only [heq] at hpc
    obtain rfl := Option.some.inj h
    exact ⟨⟨hlength, hpc⟩, by simp [room, heq]⟩
  next fd events file heq =>
    simp only [heq] at hpc
    obtain rfl := Option.some.inj h
    exact ⟨⟨(List.length_filter_le _ _).trans hlength, eq_of_mem_close hpc.1, hpc.2⟩,
      by simp [room, heq]⟩
  next fd events heq =>
    simp only [heq] at hpc
    obtain rfl := Option.some.inj h
    have hnil : k.table.close fd = [] := close_eq_nil hpc.1
    exact ⟨⟨by simp [hnil], hpc.2⟩, by simp [room, heq, hnil]⟩
  next fd events ok heq =>
    simp only [heq] at hpc
    cases ok with
    | true =>
      obtain rfl := Option.some.inj h
      exact ⟨⟨hlength, hpc⟩, by simp [room, heq]⟩
    | false =>
      obtain rfl := Option.some.inj h
      exact ⟨single_exit _, by simp [room, exit]⟩
  next => cases h
  next =>
    obtain rfl := Option.some.inj h
    exact ⟨single_exit _, by simp [room, exit]⟩
  next => cases h

/-- **A worker in the loop of `do_read`** that has no room stays in the loop: there is nothing for
`fdopen` to open. -/
theorem eq_of_step_doRead {fd : Fd} {events : List Event} (hpc : k.pc = .doRead fd events)
    (hfd : fd ∉ others) (htable : k.table = []) (ha : k.Observed registered others a)
    (h : k.step a = some k') : k' = k ∨ k' = k.exit := by
  unfold step at h
  rw [hpc] at h
  cases a with
  | fdopen ok =>
    cases ok with
    | true =>
      have hmem := ha rfl fd (by simp [reading, hpc])
      rw [htable, List.map_nil, List.append_nil] at hmem
      exact absurd hmem hfd
    | false => exact Or.inl (Option.some.inj h).symm
  | exit => exact Or.inr (Option.some.inj h).symm
  | _ => cases h

end Worker

/-! ### The pool -/

namespace System

variable {others : List Fd} {s s' t : System} {w : Fin nprocMaxNum} {acts : List Act}

/-- Every worker has one descriptor at most, and no client has a number that is in use. -/
structure Singles (others : List Fd) (s : System) : Prop where
  single : ∀ w, (s.workers w).Single others
  received : ∀ r ∈ s.received, ∀ fd ∈ r.2.1, fd ∉ others

theorem singles_initial : initial.Singles others where
  single _ := ⟨Nat.zero_le 1, rfl⟩
  received := nofun

theorem Singles.notMem_of_registered (hs : s.Singles others) :
    ∀ fd ∈ s.registered w, fd ∉ others := by
  intro fd hfd
  obtain ⟨r, hr, hfd⟩ := List.mem_filterMap.1 hfd
  exact hs.received r hr fd (Option.ite_none_right_eq_some.1 hfd).2

/-- **A receive** fills the table of a worker that had nothing in it. -/
theorem Singles.of_stepRead {v : Fin nprocMaxNum} {fd : Option Fd} (hs : s.Singles others)
    (hfd : ∀ n ∈ fd, n ∉ others) (h : s.stepRead v fd = some s') :
    s'.Singles others ∧ (s'.workers w).room ≤ (s.workers w).room := by
  have hothers : ∀ w ≠ v, s'.workers w = s.workers w := fun _ hw ↦ workers_of_stepRead h hw
  obtain ⟨c, queue, hpc, -, rfl⟩ := stepRead_cases h
  have htable : (s.workers v).table = [] := by simpa only [hpc] using (hs.single v).of_pc
  have hlength : ((fd.map (·, c)).toList ++ (s.workers v).table).length ≤ 1 := by
    rw [htable, List.append_nil]
    exact Option.length_toList_le
  refine ⟨⟨fun u ↦ ?_, ?_⟩, ?_⟩
  · by_cases hu : u = v
    · subst hu
      show (Function.update s.workers u _ u).Single others
      rw [Function.update_self]
      exact ⟨hlength, trivial⟩
    · exact (hothers u hu).symm ▸ hs.single u
  · exact List.forall_mem_append.2 ⟨hs.received, List.forall_mem_singleton.2 hfd⟩
  · by_cases hw : w = v
    · subst hw
      show (Function.update s.workers w _ w).room ≤ _
      rw [Function.update_self]
      simpa only [Worker.room, hpc] using hlength
    · exact le_of_eq (congrArg Worker.room (hothers w hw))

/-- **One step of the system** costs worker `w` what it answers. -/
theorem Singles.step {a : Act} (hs : s.Singles others) (ha : s.Observed others a)
    (h : s.step a = some s') : s'.Singles others ∧
      [a].countP (fun a ↦ a.responder == some w) + (s'.workers w).room ≤ (s.workers w).room := by
  cases a with
  | master a =>
    cases masterStep_of_stepMaster h with
    | _ => exact ⟨⟨hs.single, hs.received⟩, by simp [Act.responder, goto, exitMaster]⟩
  | sockFdRead v fd =>
    obtain ⟨hs', hroom⟩ := hs.of_stepRead ha h
    exact ⟨hs', by simpa [Act.responder] using hroom⟩
  | worker v a =>
    have hothers : ∀ w ≠ v, s'.workers w = s.workers w := fun _ hw ↦ workers_of_stepWorker h hw
    have hreceived : s'.received = s.received := by
      obtain ⟨k, -, rfl⟩ := stepWorker_cases h
      rfl
    obtain ⟨hsingle, hroom⟩ := Worker.single_of_step (hs.single v) hs.notMem_of_registered ha
      (step_of_stepWorker h)
    refine ⟨⟨fun u ↦ ?_, hreceived ▸ hs.received⟩, ?_⟩
    · by_cases hu : u = v
      · exact hu ▸ hsingle
      · exact (hothers u hu).symm ▸ hs.single u
    · by_cases hw : w = v
      · subst hw
        refine le_trans (Nat.add_le_add_right ?_ _) hroom
        cases a with
        | respond => simp [Act.responder]
        | _ => simp [Act.responder]
      · have hne : (Act.worker v a).responder ≠ some w := by
          cases a with
          | respond => exact fun heq ↦ hw (Option.some.inj heq).symm
          | _ => simp [Act.responder]
        simp [hothers w hw, hne]

/-- **A worker in the loop of `do_read`** stays there, whoever acts. -/
theorem stays_of_step {a : Act} {k : Worker} {fd : Fd} {events : List Event}
    (hpc : k.pc = .doRead fd events) (hfd : fd ∉ others) (htable : k.table = [])
    (hw : s.workers w = k ∨ (s.workers w).pc = .exited)
    (ha : s.Observed others a) (h : s.step a = some s') :
    s'.workers w = k ∨ (s'.workers w).pc = .exited := by
  cases a with
  | master a =>
    cases masterStep_of_stepMaster h with
    | _ => exact hw
  | sockFdRead v n =>
    by_cases hv : w = v
    · obtain ⟨c, queue, hread, -, -⟩ := stepRead_cases h
      subst hv
      rcases hw with rfl | hw
      · simp [hpc] at hread
      · simp [hw] at hread
    · rwa [workers_of_stepRead h hv]
  | worker v a =>
    by_cases hv : w = v
    · subst hv
      have hk := step_of_stepWorker h
      rcases hw with rfl | hw
      · rcases Worker.eq_of_step_doRead hpc hfd htable ha hk with heq | heq
        · exact Or.inl heq
        · exact Or.inr (congrArg Worker.pc heq)
      · exact absurd hk (Worker.step_of_exited hw ▸ nofun)
    · rwa [workers_of_stepWorker h hv]

/-! ### Whole runs -/

/-- **The budget of a worker**: what it has answered and what it can still answer are one request
together. -/
theorem countP_responder_add_room_le (hrun : runFrom step initial acts = some s)
    (halong : Along step (Observed others) initial acts) (w : Fin nprocMaxNum) :
    s.Singles others ∧
      acts.countP (fun a ↦ a.responder == some w) + (s.workers w).room ≤ 1 :=
  ⟨invariant_of_along (fun hs ha h ↦ (hs.step (w := w) ha h).1) hrun halong singles_initial,
    countP_add_le_of_along (m := fun s ↦ (s.workers w).room) Singles.step hrun halong
      singles_initial⟩

/-- `epoll_wait` reports the client of a worker again. -/
def readableAgain (w : Fin nprocMaxNum) : List Act :=
  [.handleEvent, .epollWait [⟨3, true, false⟩], .handleEvent, .fdopen false].map (Act.worker w)

/-- **The server answers `NPROC_MAX_NUM` requests in all its life**, each by another worker. A
worker that has answered one, and is told by `epoll_wait` that its client is readable, is in the
loop of `do_read` from then on, as long as it lives. -/
theorem responders_nodup (hrun : runFrom step initial acts = some s)
    (halong : Along step (Observed others) initial acts) :
    (acts.filterMap Act.responder).Nodup ∧
      (acts.filterMap Act.responder).length ≤ nprocMaxNum ∧
      ∀ w ∈ acts.filterMap Act.responder, ∀ fd events, (s.workers w).pc = .doRead fd events →
        ∀ more t, runFrom step s more = some t → Along step (Observed others) s more →
          t.workers w = s.workers w ∨ (t.workers w).pc = .exited := by
  have hnodup : (acts.filterMap Act.responder).Nodup := by
    refine List.nodup_iff_count_le_one.2 fun w ↦ ?_
    rw [List.count_filterMap]
    exact (Nat.le_add_right _ _).trans (countP_responder_add_room_le hrun halong w).2
  refine ⟨hnodup, ?_, fun w hw fd events hpc more t hmore hobserved ↦ ?_⟩
  · simpa using hnodup.length_le_card
  · obtain ⟨hs, hbudget⟩ := countP_responder_add_room_le hrun halong w
    have hone := List.one_le_count_iff.2 hw
    rw [List.count_filterMap] at hone
    have hroom : (s.workers w).table.length = (s.workers w).room := by simp only [Worker.room, hpc]
    have htable : (s.workers w).table = [] := List.length_eq_zero_iff.1 (by omega)
    have hfd : fd ∉ others := by
      have hof := (hs.single w).of_pc
      simp only [hpc] at hof
      exact hof.1
    exact invariant_of_along (fun ht ha h ↦ stays_of_step hpc hfd htable ht ha h) hmore hobserved
      (Or.inl rfl)

/-- The worker has answered one request, and asks for a stream on a number that is not open. -/
theorem responders_nodup_readableAgain :
    ∃ s, runFrom step initial (serveOne ++ readableAgain 0) = some s ∧
      (s.workers 0).pc = .doRead 3 [] ∧
      ((serveOne ++ readableAgain 0).filterMap Act.responder).Nodup := by
  have halong : Along step (Observed [0, 1, 2]) initial (serveOne ++ readableAgain 0) := by decide
  exact ⟨_, rfl, rfl, (responders_nodup rfl halong).1⟩

end System

end PreforkHttpd
