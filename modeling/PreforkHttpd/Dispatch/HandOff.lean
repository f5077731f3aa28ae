import PreforkHttpd.Dispatch.System

/-!
# When every client is handed off exactly once

The accept loop of `start()` is to put one message per client on the socketpair, in the order of
acceptance. Its retry loop sends in its condition and, after a failure, in its body as well, and
throws the body's result away: a body call that succeeds has put a message, and the condition then
puts another.

Two facts settle the matter for any interleaving with the workers.

* The clients whose retry loop has ended are a **sublist** of the messages put (`handed_sublist`):
  no client is skipped, and none overtakes another.
* The **excess** of messages over clients never shrinks, and grows exactly on the successful calls
  in the body (`excess_drifts`).

Together they give `sent_eq_range_iff`: between two clients the messages put are the accepted
clients, once each and in order, if and only if no call in the body of the retry loop succeeded.

The socketpair itself is exact (`sent_eq_received_append_queue`): what was put is what was received
followed by what is waiting.
-/

open LabelledRun

namespace PreforkHttpd

namespace System

variable {s s' : System}

/-! ### The clients of the master -/

/-- The clients whose retry loop has ended, and the one the master is busy with. The descriptor
table holds every client accepted so far, the latest first: the loop closes none. -/
def MasterInv (s : System) : Prop :=
  match s.master.pc with
  | .epollWait | .accept =>
    s.master.table.map Prod.snd = (List.range s.accepted).reverse ∧
      s.handed = List.range s.accepted
  | .setnoblock fd | .sendCond fd | .sendBody fd =>
    ∃ n rest, s.accepted = n + 1 ∧ s.master.table = (fd, n) :: rest ∧
      rest.map Prod.snd = (List.range n).reverse ∧ s.handed = List.range n
  | .exited => True

/-- The descriptor being sent is the one of the client accepted last. -/
theorem lookup_cons_self {fd : Fd} {n c : Conn} {rest : FdTable}
    (h : List.lookup fd ((fd, n) :: rest) = some c) : c = n := by
  rw [List.lookup_cons_self] at h
  exact (Option.some.inj h).symm

theorem MasterInv.of_masterStep {a : MasterAct} (hs : s.MasterInv) (h : MasterStep s a s') :
    s'.MasterInv := by
  cases h with
  | ready hpc => simpa only [MasterInv, hpc, goto] using hs
  | accept hpc hfresh =>
    rw [MasterInv, hpc] at hs
    exact ⟨s.accepted, s.master.table, rfl, rfl, hs.1, hs.2⟩
  | setnoblock hpc => simpa only [MasterInv, hpc, goto] using hs
  | condSent hpc hresult hc =>
    rw [MasterInv, hpc] at hs
    obtain ⟨n, rest, hn, htable, hrest, hhanded⟩ := hs
    rw [htable] at hc
    obtain rfl := lookup_cons_self hc
    refine ⟨?_, ?_⟩
    · show s.master.table.map Prod.snd = (List.range s.accepted).reverse
      rw [htable, hn, List.map_cons, hrest, List.range_succ, List.reverse_concat]
    · show s.handed ++ [_] = List.range s.accepted
      rw [hhanded, hn, List.range_succ]
  | condFailed hpc => simpa only [MasterInv, hpc, goto] using hs
  | bodySent hpc => simpa only [MasterInv, hpc, goto] using hs
  | bodyFailed hpc => simpa only [MasterInv, hpc, goto] using hs
  | _ => exact trivial

theorem MasterInv.step {a : Act} (hs : s.MasterInv) (h : s.step a = some s') : s'.MasterInv := by
  cases a with
  | master a => exact hs.of_masterStep (masterStep_of_stepMaster h)
  | sockFdRead w fd =>
    obtain ⟨c, queue, -, -, rfl⟩ := stepRead_cases h
    exact hs
  | worker w a =>
    obtain ⟨k, -, rfl⟩ := stepWorker_cases h
    exact hs

theorem masterInv_initial : initial.MasterInv := ⟨rfl, rfl⟩

/-- **Between two clients** the retry loops that have ended are those of the clients accepted, in
order, and the master still holds every one of them. -/
theorem masterInv_of_accept {acts : List Act} (hrun : runFrom step initial acts = some s)
    (hpc : s.master.pc = .accept) :
    s.master.table.map Prod.snd = (List.range s.accepted).reverse ∧
      s.handed = List.range s.accepted := by
  have hinv := invariant_of_runFrom MasterInv MasterInv.step hrun masterInv_initial
  rwa [MasterInv, hpc] at hinv

/-! ### Messages against clients -/

theorem handed_sublist_step {a : Act} (hs : s.handed.Sublist s.sent) (h : s.step a = some s') :
    s'.handed.Sublist s'.sent := by
  cases a with
  | master a =>
    cases masterStep_of_stepMaster h with
    | condSent => exact hs.append_right _
    | bodySent => exact hs.trans (List.sublist_append_left _ _)
    | _ => exact hs
  | sockFdRead w fd =>
    obtain ⟨c, queue, -, -, rfl⟩ := stepRead_cases h
    exact hs
  | worker w a =>
    obtain ⟨k, -, rfl⟩ := stepWorker_cases h
    exact hs

/-- No client is skipped, and none overtakes another. -/
theorem handed_sublist {acts : List Act} (hrun : runFrom step initial acts = some s) :
    s.handed.Sublist s.sent :=
  invariant_of_runFrom (fun s ↦ s.handed.Sublist s.sent) handed_sublist_step hrun
    (List.Sublist.refl [])

/-- The step is not a successful `Sock_fd_write` in the body of the retry loop. -/
def SingleSend (s : System) : Act → Prop
  | .master (.sockFdWrite result) => match s.master.pc with
    | .sendBody _ => result ≤ 0
    | _ => True
  | _ => True

instance (s : System) (a : Act) : Decidable (s.SingleSend a) := by
  unfold SingleSend
  split
  · split <;> infer_instance
  · infer_instance

/-- How many more messages were put than retry loops have ended. -/
def excess (s : System) : ℤ := s.sent.length - s.handed.length

/-- **A message too many stays one too many.** -/
theorem excess_drifts : Drifts step (fun _ ↦ True) SingleSend excess := by
  intro s a s' _ h
  have hquiet : ∀ {t : System}, t.sent = s.sent → t.handed = s.handed → s.SingleSend a →
      (s.SingleSend a → t.excess = s.excess) ∧ (¬ s.SingleSend a → s.excess < t.excess) := by
    intro t hsent hhanded hsingle
    exact ⟨fun _ ↦ by rw [excess, hsent, hhanded, excess], fun hn ↦ absurd hsingle hn⟩
  cases a with
  | master a =>
    cases masterStep_of_stepMaster h with
    | @condSent fd result c hpc =>
      have hsingle : s.SingleSend (.master (.sockFdWrite result)) := by
        simp only [SingleSend, hpc]
      refine ⟨fun _ ↦ ?_, fun hn ↦ absurd hsingle hn⟩
      simp only [excess, List.length_append]
      omega
    | condFailed hpc => exact hquiet rfl rfl (by simp only [SingleSend, hpc])
    | bodySent hpc hresult =>
      refine ⟨fun hsingle ↦ ?_, fun _ ↦ ?_⟩
      · simp only [SingleSend, hpc] at hsingle
        omega
      · show s.excess < ((s.sent ++ [_]).length : ℤ) - s.handed.length
        simp only [excess, List.length_append, List.length_singleton]
        omega
    | bodyFailed hpc hresult => exact hquiet rfl rfl (by simpa only [SingleSend, hpc] using hresult)
    | _ => exact hquiet rfl rfl trivial
  | sockFdRead w fd =>
    obtain ⟨c, queue, -, -, rfl⟩ := stepRead_cases h
    exact hquiet rfl rfl trivial
  | worker w a =>
    obtain ⟨k, -, rfl⟩ := stepWorker_cases h
    exact hquiet rfl rfl trivial

/-- **When the hand-off is exact.** At a point of a run where the master is about to accept the next
client, the messages put so far are the clients accepted so far, once each and in the order of
acceptance, if and only if no call of `Sock_fd_write` in the body of the retry loop succeeded. -/
theorem sent_eq_range_iff {acts : List Act} (hrun : runFrom step initial acts = some s)
    (hpc : s.master.pc = .accept) :
    s.sent = List.range s.accepted ↔ Along step SingleSend initial acts := by
  have hsub := handed_sublist hrun
  rw [← drift_eq_iff_along excess_drifts (fun _ _ ↦ trivial) hrun trivial,
    ← (masterInv_of_accept hrun hpc).2]
  have hinit : excess initial = 0 := rfl
  rw [hinit, excess]
  constructor
  · intro heq
    rw [heq]
    omega
  · intro hlen
    exact (hsub.eq_of_length (by omega)).symm

/-- One client, passed on at the second attempt after a failing body call. -/
def failedTwice : List Act :=
  [.master (.epollWait true), .master (.accept (some 5)), .master (.setnoblock true),
    .master (.sockFdWrite (-1)), .master (.sockFdWrite (-1)), .master (.sockFdWrite 2)]

theorem sent_eq_range_iff_failedTwice :
    ∃ s, runFrom step initial failedTwice = some s ∧
      (s.sent = List.range s.accepted ↔ Along step SingleSend initial failedTwice) :=
  ⟨_, rfl, sent_eq_range_iff rfl rfl⟩

/-- One client whose first `Sock_fd_write` fails and whose next two succeed is sent twice. -/
theorem sent_ne_range_of_failedOnce :
    ∃ s, runFrom step initial
        [.master (.epollWait true), .master (.accept (some 5)), .master (.setnoblock true),
          .master (.sockFdWrite (-1)), .master (.sockFdWrite 2), .master (.sockFdWrite 2)] =
        some s ∧
      s.master.pc = .accept ∧ s.sent = [0, 0] ∧ s.sent ≠ List.range s.accepted :=
  ⟨_, rfl, rfl, rfl, by decide⟩

/-! ### The socketpair -/

theorem sent_eq_step {a : Act} (hs : s.sent = s.received.map (fun r ↦ r.2.2) ++ s.queue)
    (h : s.step a = some s') : s'.sent = s'.received.map (fun r ↦ r.2.2) ++ s'.queue := by
  cases a with
  | master a =>
    cases masterStep_of_stepMaster h with
    | condSent => rw [hs, List.append_assoc]; rfl
    | bodySent => rw [hs, List.append_assoc]; rfl
    | _ => exact hs
  | sockFdRead w fd =>
    obtain ⟨c, queue, -, hqueue, rfl⟩ := stepRead_cases h
    show s.sent = (s.received ++ [(w, fd, c)]).map (fun r ↦ r.2.2) ++ queue
    rw [hs, hqueue, List.map_append, List.append_assoc]
    rfl
  | worker w a =>
    obtain ⟨k, -, rfl⟩ := stepWorker_cases h
    exact hs

/-- **The channel loses and repeats nothing**: the messages put are those received, in order,
followed by those waiting. -/
theorem sent_eq_received_append_queue {acts : List Act}
    (hrun : runFrom step initial acts = some s) :
    s.sent = s.received.map (fun r ↦ r.2.2) ++ s.queue :=
  invariant_of_runFrom (fun s ↦ s.sent = s.received.map (fun r ↦ r.2.2) ++ s.queue)
    sent_eq_step hrun rfl

end System

end PreforkHttpd
