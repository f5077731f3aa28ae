import PreforkHttpd.Transition.PartialRun
import PreforkHttpd.Io.InterestList
import PreforkHttpd.Dispatch.System

/-!
# Descriptors in a worker's event loop

A worker serves its clients from one interest list, through the functions of `inc/http_io_base.h`.
They close descriptors in two places, and neither agrees with the list.

* `do_write` gives up a client whose `write` fails: it closes the descriptor **first** and then
  calls `delete_event` on it. `Epoll_ctl` exits through `unix_error` whenever `epoll_ctl` fails, and
  on a closed descriptor it fails with `EBADF`. One client that went away ends the worker and every
  connection it serves.
* `do_read` leaves it to the responder to close the client, with the local `fd` before it, and
  deletes no registration. It relies on the close to end it, but the master never closes its own
  descriptor of the client, so the registration stays and belongs to a number that is no longer
  open, or to the next client that gets the number.

A call is `Clean` when it is neither: a `write` that does not fail, or a `do_read` whose closed
descriptors hold the last references to what they are registered for. `lifeCycle_iff` is exact: the
life cycle of the descriptors is in order in every state of a run if and only if all its calls are
clean.
-/

open LabelledRun

namespace PreforkHttpd

/-- What a client is registered for. -/
inductive EpollMask
  | epollin
  | epollout
deriving DecidableEq

/-- A worker's side of the event loop, and what has happened there. -/
structure EventLoop where
  /-- The open descriptors, and what is registered with `epollfd`. -/
  kernel : Interests Fd Conn EpollMask
  exited : Bool
  /-- The calls of `Epoll_ctl`: the descriptor, and whether it was open. -/
  ctls : List (Fd × Bool)
  /-- A `do_write` for one client has changed the registration of another. -/
  harmed : Bool

namespace EventLoop

/-- `exit`: the descriptors of the process are closed. -/
def exit (s : EventLoop) : EventLoop :=
  { s with
    kernel :=
      { self := none, table := [], nodup := List.nodup_nil, interest := []
        elsewhere := s.kernel.elsewhere }
    exited := true }

/-- `Epoll_ctl` on `fd`, where `epoll_ctl` comes to `result`. -/
def epollCtl (fd : Fd) (result : Except CtlError (Interests Fd Conn EpollMask))
    (s : EventLoop) : EventLoop :=
  let s' : EventLoop := { s with ctls := s.ctls ++ [(fd, decide (s.kernel.IsOpen fd))] }
  match result with
  | .ok kernel => { s' with kernel := kernel }
  | .error _ => s'.exit

/-- `add_event`: it calls `epoll_ctl` itself, and ignores a failure. -/
def addEvent (fd : Fd) (mask : EpollMask) (s : EventLoop) : EventLoop :=
  match s.kernel.ctlAdd fd mask with
  | .ok kernel => { s with kernel := kernel }
  | .error _ => s

/-- `modify_event`. -/
def modifyEvent (fd : Fd) (mask : EpollMask) (s : EventLoop) : EventLoop :=
  epollCtl fd (s.kernel.ctlMod fd mask) s

/-- `delete_event`. -/
def deleteEvent (fd : Fd) (s : EventLoop) : EventLoop :=
  epollCtl fd (s.kernel.ctlDel fd) s

/-- `do_read`, when the request has been answered: `http_module_handler_response` has closed `file`,
which is what its local `fd` held, and the client. -/
def doRead (fd file : Fd) (s : EventLoop) : EventLoop :=
  { s with kernel := s.kernel.closeAll [file, fd] }

/-- `do_write`, where `write` returned `nwrite`, or `none` when it failed. -/
def doWrite (fd : Fd) (nwrite : Option ℕ) (s : EventLoop) : EventLoop :=
  match nwrite with
  | none => deleteEvent fd { s with kernel := s.kernel.close fd }
  | some _ => modifyEvent fd .epollin s

end EventLoop

/-- The calls of the event loop, and the one thing that others do to it. -/
inductive LoopCall
  | addEvent (fd : Fd) (mask : EpollMask)
  | modifyEvent (fd : Fd) (mask : EpollMask)
  | deleteEvent (fd : Fd)
  | doRead (fd file : Fd)
  | doWrite (fd : Fd) (nwrite : Option ℕ)
  /-- The other processes, and the messages on the socketpair, let go of a connection. -/
  | release (c : Conn)
deriving DecidableEq

namespace EventLoop

/-- The state after a call. -/
def run (s : EventLoop) : LoopCall → EventLoop
  | .addEvent fd mask => s.addEvent fd mask
  | .modifyEvent fd mask => s.modifyEvent fd mask
  | .deleteEvent fd => s.deleteEvent fd
  | .doRead fd file => s.doRead fd file
  | .doWrite fd nwrite =>
    let s' := s.doWrite fd nwrite
    { s' with harmed := s.harmed || decide (s'.kernel.others fd ≠ s.kernel.others fd) }
  | .release c => { s with kernel := s.kernel.release c }

/-- The descriptor is open, and registered with the connection it refers to. -/
def Ready (s : EventLoop) (fd : Fd) : Prop :=
  ∃ c ∈ s.kernel.object fd, s.kernel.IsRegistered fd c

instance (s : EventLoop) (fd : Fd) : Decidable (s.Ready fd) :=
  inferInstanceAs (Decidable (∃ c ∈ s.kernel.object fd, _))

/-- What the event loop promises of a call: it is about an open descriptor, which is registered
unless the call is to register it. -/
def Taken (s : EventLoop) : LoopCall → Prop
  | .addEvent fd _ => s.kernel.IsOpen fd
  | .modifyEvent fd _ | .deleteEvent fd | .doRead fd _ | .doWrite fd _ => s.Ready fd
  | .release _ => True

instance (s : EventLoop) : DecidablePred s.Taken
  | .addEvent fd _ => inferInstanceAs (Decidable (s.kernel.IsOpen fd))
  | .modifyEvent fd _ | .deleteEvent fd | .doRead fd _ | .doWrite fd _ =>
    inferInstanceAs (Decidable (s.Ready fd))
  | .release _ => inferInstanceAs (Decidable True)

/-- One call of a worker that is alive. -/
def step (s : EventLoop) (call : LoopCall) : Option EventLoop :=
  if s.exited = false ∧ s.Taken call then some (s.run call) else none

/-- A worker with an empty list behind the open descriptor `epollfd`, with these clients, and with
these connections known outside. -/
def start (epollfd : Fd) (table : FdTable) (nodup : (table.map Prod.fst).Nodup)
    (elsewhere : List Conn) : EventLoop where
  kernel := { self := some epollfd, table, nodup, interest := [], elsewhere }
  exited := false
  ctls := []
  harmed := false

/-- **The life cycle is in order.** -/
structure LifeCycle (s : EventLoop) : Prop where
  alive : s.exited = false
  epollfd_open : s.kernel.self ≠ none
  /-- Every registered descriptor is open. -/
  registered_open : s.kernel.AllOpen
  /-- No call of `Epoll_ctl` was about a closed descriptor. -/
  ctl_open : ∀ call ∈ s.ctls, call.2 = true
  /-- No write to one client has changed the registration of another. -/
  unharmed : s.harmed = false

/-- The call closes no descriptor before its registration ends: no `write` fails, and `do_read`
closes neither `epollfd` nor a registered descriptor whose connection is still referred to. -/
def Clean (s : EventLoop) : LoopCall → Prop
  | .doRead fd file =>
    (∀ d ∈ [file, fd], s.kernel.self ≠ some d) ∧ s.kernel.LastReferences [file, fd]
  | .doWrite _ nwrite => nwrite ≠ none
  | _ => True

instance (s : EventLoop) : DecidablePred s.Clean
  | .doRead _ _ => inferInstanceAs (Decidable (_ ∧ _))
  | .doWrite _ nwrite => inferInstanceAs (Decidable (nwrite ≠ none))
  | .addEvent _ _ | .modifyEvent _ _ | .deleteEvent _ | .release _ =>
    inferInstanceAs (Decidable True)

/-! ### Clean calls -/

variable {s s' : EventLoop} {fd : Fd} {call : LoopCall}

/-- What clean calls keep: the life cycle is in order, and the registrations are those of the
connections that the descriptors refer to now. -/
structure Healthy (s : EventLoop) : Prop extends LifeCycle s where
  live : s.kernel.Live

theorem healthy_start (epollfd : Fd) (table : FdTable) (nodup : (table.map Prod.fst).Nodup)
    (elsewhere : List Conn) : (start epollfd table nodup elsewhere).Healthy where
  alive := rfl
  epollfd_open := nofun
  registered_open := List.forall_mem_nil _
  ctl_open := List.forall_mem_nil _
  unharmed := rfl
  live := List.forall_mem_nil _

theorem Ready.isOpen (h : s.Ready fd) : s.kernel.IsOpen fd := by
  obtain ⟨c, hc, -⟩ := h
  exact List.mem_map.2 ⟨_, Interests.object_eq_some_iff.1 hc, rfl⟩

/-- Another interest list, with the same descriptors and live registrations. -/
theorem Healthy.of_changes {kernel : Interests Fd Conn EpollMask} (hs : s.Healthy)
    (h : Interests.Changes fd s.kernel kernel) : { s with kernel := kernel }.Healthy where
  alive := hs.alive
  epollfd_open := h.self_eq ▸ hs.epollfd_open
  registered_open := (h.live hs.live).allOpen
  ctl_open := hs.ctl_open
  unharmed := hs.unharmed
  live := h.live hs.live

/-- A call of `Epoll_ctl` that succeeds on an open descriptor. -/
theorem Healthy.epollCtl {result : Except CtlError (Interests Fd Conn EpollMask)}
    {kernel : Interests Fd Conn EpollMask} (hs : s.Healthy) (hopen : s.kernel.IsOpen fd)
    (hresult : result = .ok kernel) (h : Interests.Changes fd s.kernel kernel) :
    (s.epollCtl fd result).Healthy ∧ (s.epollCtl fd result).kernel = kernel := by
  subst hresult
  have hkernel := hs.of_changes h
  refine ⟨⟨⟨hkernel.alive, hkernel.epollfd_open, hkernel.registered_open, ?_, hkernel.unharmed⟩,
    hkernel.live⟩, rfl⟩
  intro call hcall
  obtain hcall | hcall := List.mem_append.1 hcall
  · exact hs.ctl_open call hcall
  · rw [List.mem_singleton.1 hcall]
    exact decide_eq_true hopen

/-- `modify_event` on a descriptor that is ready keeps everything in order, and leaves the other
clients alone. -/
theorem Healthy.modifyEvent (hs : s.Healthy) (hready : s.Ready fd) (mask : EpollMask) :
    (s.modifyEvent fd mask).Healthy ∧
      (s.modifyEvent fd mask).kernel.others fd = s.kernel.others fd := by
  obtain ⟨c, hc, hregistered⟩ := hready
  obtain ⟨kernel, hk⟩ := Interests.exists_ctlMod hs.epollfd_open hc hregistered mask
  have hchanges := Interests.Changes.of_ctlMod hk
  obtain ⟨hhealthy, hkernel⟩ := hs.epollCtl (Ready.isOpen ⟨c, hc, hregistered⟩) hk hchanges
  refine ⟨hhealthy, ?_⟩
  show (s.epollCtl fd (s.kernel.ctlMod fd mask)).kernel.others fd = _
  rw [hkernel, hchanges.others_eq]

theorem Healthy.deleteEvent (hs : s.Healthy) (hready : s.Ready fd) :
    (s.deleteEvent fd).Healthy := by
  obtain ⟨c, hc, hregistered⟩ := hready
  obtain ⟨kernel, hk⟩ := Interests.exists_ctlDel hs.epollfd_open hc hregistered
  exact (hs.epollCtl (Ready.isOpen ⟨c, hc, hregistered⟩) hk (.of_ctlDel hk)).1

theorem Healthy.addEvent (hs : s.Healthy) (mask : EpollMask) : (s.addEvent fd mask).Healthy := by
  unfold EventLoop.addEvent
  split
  next kernel hk => exact hs.of_changes (.of_ctlAdd hk)
  next => exact hs

/-- **A clean call keeps everything in order.** -/
theorem Healthy.step (hs : s.Healthy) (hclean : s.Clean call) (h : s.step call = some s') :
    s'.Healthy := by
  obtain ⟨⟨-, htaken⟩, h⟩ := Option.ite_none_right_eq_some.1 h
  obtain rfl := Option.some.inj h
  cases call with
  | addEvent fd mask => exact hs.addEvent mask
  | modifyEvent fd mask => exact (hs.modifyEvent htaken mask).1
  | deleteEvent fd => exact hs.deleteEvent htaken
  | doRead fd file =>
    obtain ⟨hself, hlast⟩ := hclean
    have hlive := hs.live.closeAll hlast
    exact ⟨⟨hs.alive, (Interests.self_closeAll hself).symm ▸ hs.epollfd_open, hlive.allOpen,
      hs.ctl_open, hs.unharmed⟩, hlive⟩
  | doWrite fd nwrite =>
    cases nwrite with
    | none => exact absurd rfl hclean
    | some n =>
      obtain ⟨hhealthy, hothers⟩ := hs.modifyEvent htaken .epollin
      refine ⟨⟨hhealthy.alive, hhealthy.epollfd_open, hhealthy.registered_open,
        hhealthy.ctl_open, ?_⟩, hhealthy.live⟩
      exact Bool.or_eq_false_iff.2 ⟨hs.unharmed, decide_eq_false (not_not.2 hothers)⟩
  | release c =>
    have hlive := hs.live.release c
    exact ⟨⟨hs.alive, hs.epollfd_open, hlive.allOpen, hs.ctl_open, hs.unharmed⟩, hlive⟩

/-! ### Calls that are not clean -/

/-- **A failed write** has `Epoll_ctl` called on a closed descriptor, and ends the process. -/
theorem not_lifeCycle_of_doWrite (s : EventLoop) (fd : Fd) :
    ¬ (s.run (.doWrite fd none)).LifeCycle := by
  intro h
  have hclosed : ¬ (s.kernel.close fd).IsOpen fd :=
    Interests.not_isOpen_closeAll (List.mem_singleton_self fd)
  have hdel : (s.kernel.close fd).ctlDel fd = .error .ebadf := by
    rw [Interests.ctlDel, Interests.target_of_not_isOpen hclosed]
  have halive : (s.run (.doWrite fd none)).exited = false := h.alive
  simp only [run, doWrite, deleteEvent, EventLoop.epollCtl, hdel, exit] at halive
  cases halive

/-- **A `do_read` that leaves a reference** leaves a closed descriptor registered, or has closed the
list. -/
theorem not_lifeCycle_of_doRead {file : Fd} (hbreak : ¬ s.Clean (.doRead fd file)) :
    ¬ (s.run (.doRead fd file)).LifeCycle := by
  intro h
  by_cases hself : ∀ d ∈ [file, fd], s.kernel.self ≠ some d
  · have hlast : ¬ s.kernel.LastReferences [file, fd] := fun hlast ↦ hbreak ⟨hself, hlast⟩
    exact Interests.not_allOpen_closeAll hself hlast h.registered_open
  · simp only [not_forall, not_not] at hself
    obtain ⟨d, hd, hself⟩ := hself
    exact h.epollfd_open (Interests.self_closeAll_eq_none hd hself)

/-- **When the life cycle is in order.** For every run of calls on descriptors that are open and
registered, with every outcome of `write`, the life cycle is in order after each call if and only if
each call was clean. -/
theorem lifeCycle_iff {epollfd : Fd} {table : FdTable} {nodup : (table.map Prod.fst).Nodup}
    {elsewhere : List Conn} {calls : List LoopCall}
    (hrun : runFrom step (start epollfd table nodup elsewhere) calls = some s) :
    Throughout step LifeCycle (start epollfd table nodup elsewhere) calls ↔
      Along step Clean (start epollfd table nodup elsewhere) calls := by
  refine throughout_iff_along Healthy.step Healthy.toLifeCycle ?_ hrun (healthy_start _ _ _ _)
  intro s call s' _ hbreak h
  obtain ⟨-, h⟩ := Option.ite_none_right_eq_some.1 h
  obtain rfl := Option.some.inj h
  cases call with
  | doRead fd file => exact not_lifeCycle_of_doRead hbreak
  | doWrite fd nwrite =>
    obtain rfl : nwrite = none := not_not.1 hbreak
    exact not_lifeCycle_of_doWrite s fd
  | _ => exact absurd trivial hbreak

/-- The clients `0` and `1`, as descriptors `5` and `6` of the worker; those in `elsewhere` are held
outside as well. -/
def twoClients (elsewhere : List Conn) : EventLoop :=
  start 4 [(5, 0), (6, 1)] (by decide) elsewhere

/-- A client is registered and written to, and read from once nobody else refers to it. -/
theorem lifeCycle_iff_release :
    Throughout step LifeCycle (twoClients [0, 1])
      [.addEvent 5 .epollout, .doWrite 5 (some 3), .release 0, .doRead 5 7] := by
  have hrun : runFrom step (twoClients [0, 1])
    [.addEvent 5 .epollout, .doWrite 5 (some 3), .release 0, .doRead 5 7] = some _ := rfl
  exact (lifeCycle_iff hrun).2 (by decide)

/-- A failed write to client `0` ends the process and the registration of client `1`; and a client
that the master still holds stays registered when `do_read` has closed it. -/
theorem not_lifeCycle_of_failure :
    (∃ s, runFrom step (twoClients [])
        [.addEvent 5 .epollout, .addEvent 6 .epollin, .doWrite 5 none] = some s ∧
      s.exited = true ∧ s.ctls = [(5, false)] ∧ s.harmed = true ∧ ¬ s.LifeCycle) ∧
    ∃ s, runFrom step (twoClients [0, 1]) [.addEvent 5 .epollin, .doRead 5 7] = some s ∧
      s.kernel.interest = [⟨5, 0, .epollin⟩] ∧ ¬ s.kernel.IsOpen 5 ∧ ¬ s.LifeCycle := by
  refine ⟨⟨_, rfl, rfl, rfl, rfl, fun h ↦ ?_⟩, _, rfl, rfl, by decide, fun h ↦ ?_⟩
  · exact absurd h.alive (by decide)
  · exact absurd (h.registered_open ⟨5, 0, .epollin⟩ (by decide)) (by decide)

end EventLoop

end PreforkHttpd
