import PreforkHttpd.Dispatch.HandOff

/-!
# Who holds a connection that has been handed off

Passing a descriptor duplicates the reference, so handing a client off is complete only when the
master drops its own. `start()` does not: the accept loop goes straight back to `Accept`, and its
only `close(clientfd)` stands after a loop that is never left. The test program of the socketpair
closes the descriptor in the parent after `Sock_fd_write`.

`SingleOwner s` is what a complete hand-off would give at a point between two clients: a connection
that is handed off and not yet closed has one holder, a message or a worker; one that a worker
closed has none; and the master holds none at all, so its table does not grow with the clients
served. The accept loop meets it only before the first client (`singleOwner_iff`): from then on
every client ever accepted is still in the master's table, and the table is as long as the number
of clients.
-/

open LabelledRun

namespace PreforkHttpd

/-- The action accepts a client. -/
def Act.isAccept : Act → Bool
  | .master (.accept (some _)) => true
  | _ => false

/-- What can refer to a connection: a descriptor of the master or of a worker, or the message at
some place of the socketpair. -/
inductive Holder
  | master
  | message (i : ℕ)
  | worker (w : Fin nprocMaxNum)
deriving DecidableEq

namespace System

variable {s s' : System}

/-- The holder has a reference to connection `c`. -/
def Holds (s : System) : Holder → Conn → Prop
  | .master, c => c ∈ s.master.table.map Prod.snd
  | .message i, c => s.queue[i]? = some c
  | .worker w, c => c ∈ (s.workers w).table.map Prod.snd

instance (s : System) : ∀ h c, Decidable (s.Holds h c)
  | .master, c => inferInstanceAs (Decidable (c ∈ s.master.table.map Prod.snd))
  | .message i, c => inferInstanceAs (Decidable (s.queue[i]? = some c))
  | .worker w, c => inferInstanceAs (Decidable (c ∈ (s.workers w).table.map Prod.snd))

/-- The worker that received `c` has executed `close(clientfd)` on the number it got for it. -/
def Closed (s : System) (c : Conn) : Prop :=
  ∃ w fd, (w, some fd, c) ∈ s.received ∧ (w, fd) ∈ s.closed

/-- Every hand-off is complete. -/
structure SingleOwner (s : System) : Prop where
  /-- A connection handed off and not closed is held by one message or one worker, and by nothing
  else. -/
  handed : ∀ c ∈ s.handed, ¬ s.Closed c →
    ∃ h, h ≠ .master ∧ s.Holds h c ∧ ∀ h', s.Holds h' c → h' = h
  /-- A connection that its worker closed is held by nobody. -/
  closed : ∀ c, s.Closed c → ∀ h, ¬ s.Holds h c
  /-- The master holds no client. -/
  master : s.master.table.length = 0

/-! ### Messages are of accepted clients -/

/-- What is sent has been accepted. -/
def SentBound (s : System) : Prop := s.MasterInv ∧ ∀ c ∈ s.sent, c < s.accepted

/-- At a send, the connection that goes out is the one accepted last. -/
theorem lt_accepted_of_lookup {fd : Fd} {n c : Conn} {rest : FdTable}
    (hn : s.accepted = n + 1) (htable : s.master.table = (fd, n) :: rest)
    (hc : s.master.table.lookup fd = some c) : c < s.accepted := by
  rw [htable] at hc
  rw [lookup_cons_self hc, hn]
  exact Nat.lt_succ_self n

theorem SentBound.step {a : Act} (hs : s.SentBound) (h : s.step a = some s') : s'.SentBound := by
  refine ⟨hs.1.step h, ?_⟩
  have hmaster := hs.1
  cases a with
  | master a =>
    cases masterStep_of_stepMaster h with
    | accept => exact fun c hc ↦ (hs.2 c hc).trans (Nat.lt_succ_self _)
    | condSent hpc hresult hc =>
      rw [MasterInv, hpc] at hmaster
      obtain ⟨n, rest, hn, htable, -, -⟩ := hmaster
      exact List.forall_mem_append.2
        ⟨hs.2, List.forall_mem_singleton.2 (lt_accepted_of_lookup hn htable hc)⟩
    | bodySent hpc hresult hc =>
      rw [MasterInv, hpc] at hmaster
      obtain ⟨n, rest, hn, htable, -, -⟩ := hmaster
      exact List.forall_mem_append.2
        ⟨hs.2, List.forall_mem_singleton.2 (lt_accepted_of_lookup hn htable hc)⟩
    | _ => exact hs.2
  | sockFdRead w fd =>
    obtain ⟨c, queue, -, -, rfl⟩ := stepRead_cases h
    exact hs.2
  | worker w a =>
    obtain ⟨k, -, rfl⟩ := stepWorker_cases h
    exact hs.2

/-- A connection that was received has been accepted. -/
theorem lt_accepted_of_received {acts : List Act} (hrun : runFrom step initial acts = some s)
    {w : Fin nprocMaxNum} {fd : Option Fd} {c : Conn} (hc : (w, fd, c) ∈ s.received) :
    c < s.accepted := by
  have hbound := invariant_of_runFrom SentBound SentBound.step hrun ⟨masterInv_initial, nofun⟩
  refine hbound.2 c ?_
  rw [sent_eq_received_append_queue hrun]
  exact List.mem_append_left _ (List.mem_map_of_mem (f := fun r ↦ r.2.2) hc)

/-- The master counts the clients it accepts. -/
theorem accepted_eq_countP {acts : List Act} (hrun : runFrom step initial acts = some s) :
    s.accepted = acts.countP Act.isAccept := by
  refine (count_of_runFrom (c := fun s : System ↦ s.accepted) (fun {s a s'} h ↦ ?_) hrun).trans
    (Nat.zero_add _)
  cases a with
  | master a =>
    cases masterStep_of_stepMaster h with
    | _ => rfl
  | sockFdRead w fd =>
    obtain ⟨c, queue, -, -, rfl⟩ := stepRead_cases h
    rfl
  | worker w a =>
    obtain ⟨k, -, rfl⟩ := stepWorker_cases h
    rfl

/-! ### When hand-off is complete -/

/-- **The master keeps every client.** Between two clients, every client handed off is still held by
the master. -/
theorem holds_master_of_handed {acts : List Act} (hrun : runFrom step initial acts = some s)
    (hpc : s.master.pc = .accept) {c : Conn} (hc : c ∈ s.handed) : s.Holds .master c := by
  obtain ⟨htable, hhanded⟩ := masterInv_of_accept hrun hpc
  show c ∈ s.master.table.map Prod.snd
  rw [htable, ← hhanded]
  exact List.mem_reverse.2 hc

/-- **When every client handed off has a single owner.** At a point of a run where the master is
about to accept the next client, hand-off is complete if and only if no client has been accepted in
the run; and the master holds as many client descriptors as it has accepted clients. -/
theorem singleOwner_iff {acts : List Act} (hrun : runFrom step initial acts = some s)
    (hpc : s.master.pc = .accept) :
    (s.SingleOwner ↔ acts.countP Act.isAccept = 0) ∧
      s.master.table.length = acts.countP Act.isAccept := by
  obtain ⟨htable, hhanded⟩ := masterInv_of_accept hrun hpc
  have haccepted := accepted_eq_countP hrun
  have hlength : s.master.table.length = acts.countP Act.isAccept := by
    have h := congrArg List.length htable
    rwa [List.length_map, List.length_reverse, List.length_range, haccepted] at h
  refine ⟨⟨fun howner ↦ hlength.symm.trans howner.master, fun hnone ↦ ?_⟩, hlength⟩
  rw [← haccepted] at hnone
  constructor
  · intro c hc
    rw [hhanded, hnone] at hc
    cases hc
  · rintro c ⟨w, fd, hreceived, -⟩
    exact absurd (lt_accepted_of_received hrun hreceived) (hnone ▸ Nat.not_lt_zero c)
  · omega

/-- One client from `accept` to the worker's `close(clientfd)`. -/
def serveOne : List Act :=
  [.master (.epollWait true), .master (.accept (some 5)), .master (.setnoblock true),
    .master (.sockFdWrite 2), .sockFdRead 0 (some 3), .worker 0 .doEpoll,
    .worker 0 (.epollWait [{ fd := 3, readable := true, writable := false }]),
    .worker 0 .handleEvent, .worker 0 (.fdopen true), .worker 0 .respond,
    .worker 0 (.closeFile 4), .worker 0 .closeClient]

/-- One client has been accepted, and one descriptor is left in the master. -/
theorem singleOwner_iff_serveOne :
    ∃ s, runFrom step initial serveOne = some s ∧
      (s.SingleOwner ↔ serveOne.countP Act.isAccept = 0) ∧
      s.master.table.length = serveOne.countP Act.isAccept :=
  ⟨_, rfl, singleOwner_iff rfl rfl⟩

/-- The client was handed off, served and closed by the worker, and the master still holds it. -/
theorem not_singleOwner_of_serveOne :
    ∃ s, runFrom step initial serveOne = some s ∧ s.master.pc = .accept ∧ s.handed = [0] ∧
      s.Closed 0 ∧ s.Holds .master 0 ∧ ¬ s.SingleOwner := by
  refine ⟨_, rfl, rfl, rfl, ⟨0, 3, by decide, by decide⟩, by decide, fun howner ↦ ?_⟩
  exact absurd howner.master (by decide)

end System

end PreforkHttpd
