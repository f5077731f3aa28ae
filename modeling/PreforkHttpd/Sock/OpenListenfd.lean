import PreforkHttpd.Sock.Addresses

/-!
# When `open_listenfd` falls back

`open_listenfd` is `open_clientfd` with `bind` in the place of `connect`, and it goes through its
list in the same way: a socket that cannot be bound is closed, and the next address is tried. But it
calls `Bind`, and `Bind` does not report a failure to its caller: it passes it to `unix_error`,
which exits with status `0`. So of the loop's branches only two are alive. An address for which
there is no socket is passed over, and the first one with a socket is the last that is tried.

`fallsBack_iff` is exact: the function does what it is written for if and only if the first address
for which a socket is made is also one for which `bind` succeeds, or there is no such address.
-/

namespace PreforkHttpd

/-! ### The code -/

/-- A wrapper that exits, with status `0`, when its call fails. -/
def exitOnError (outcome : Option Errno) : Wrapped ℤ :=
  if returnValue outcome < 0 then .exited 0 else .returned (returnValue outcome)

namespace Sock

/-- `Setsockopt`. -/
def setsockopt (outcome : Option Errno) : Wrapped ℤ := exitOnError outcome

/-- `Bind`. -/
def bind (outcome : Option Errno) : Wrapped ℤ := exitOnError outcome

/-- `Listen`. -/
def listen (outcome : Option Errno) : Wrapped ℤ := exitOnError outcome

end Sock

variable {Addr : Type}

/-- What is tried for an address once there is a socket. -/
def attemptBind (c : Candidate Addr) : Wrapped Bool :=
  match Sock.setsockopt c.setsockopt with
  | .exited status => .exited status
  | .returned _ =>
    match Sock.bind c.use with
    | .exited status => .exited status
    | .returned rval => .returned (rval = 0)

/-- `listen` makes a listening socket of one that is bound. -/
def Opened.toListening : Opened Addr → Opened Addr
  | .bound a => .listening a
  | o => o

/-- `open_listenfd`, where `listenfd` is what the variable holds before it is set, and `listen` the
outcome of the call of `listen`: what is returned, and the table. -/
def openListenfd (listen : Option Errno) (listenfd : ℤ) (cs : List (Candidate Addr))
    (t : DescriptorTable (Opened Addr)) : Wrapped (ℤ × DescriptorTable (Opened Addr)) :=
  match tryAddresses attemptBind .bound listenfd cs t with
  | .exited status => .exited status
  | .returned e =>
    if e.found then
      match Sock.listen listen with
      | .exited status => .exited status
      | .returned rval =>
        let fd := e.fd.toNat
        if rval < 0 then .returned (-1, e.table.set fd none)
        else .returned (e.fd, e.table.set fd ((e.table.entry fd).map Opened.toListening))
    else .returned (-1, e.table)

/-! ### The first socket decides -/

/-- A socket is made for this address. -/
def Candidate.hasSocket (c : Candidate Addr) : Bool := c.socket = none

variable {c : Candidate Addr} {cs : List (Candidate Addr)} {t : DescriptorTable (Opened Addr)}
  {listenfd : ℤ}

/-- **`Bind` never reports a failure.** -/
theorem attemptBind_eq (hset : c.setsockopt = none) :
    attemptBind c = if c.use = none then .returned true else .exited 0 := by
  rw [attemptBind, hset]
  cases c.use <;> rfl

theorem tryAddresses_of_find?_eq_none (listenfd : ℤ) (t : DescriptorTable (Opened Addr))
    (hfind : cs.find? Candidate.hasSocket = none) :
    ∃ fd, tryAddresses attemptBind .bound listenfd cs t = .returned ⟨fd, false, t⟩ := by
  induction cs generalizing listenfd with
  | nil => exact ⟨listenfd, rfl⟩
  | cons c cs ih =>
    rw [List.find?_cons] at hfind
    split at hfind
    next => cases hfind
    next hc =>
      cases hsocket : c.socket with
      | none => simp [Candidate.hasSocket, hsocket] at hc
      | some e =>
        rw [tryAddresses, hsocket]
        exact ih (-1) hfind

theorem tryAddresses_of_find?_eq_some (listenfd : ℤ) (t : DescriptorTable (Opened Addr))
    (hset : ∀ c ∈ cs, c.setsockopt = none)
    (hfind : cs.find? Candidate.hasSocket = some c) :
    tryAddresses attemptBind .bound listenfd cs t =
      if c.use = none then
        .returned ⟨t.lowest, true, (t.insert .socket).set t.lowest (some (.bound c.addr))⟩
      else .exited 0 := by
  induction cs generalizing listenfd with
  | nil => cases hfind
  | cons b cs ih =>
    obtain ⟨hb, hcs⟩ := List.forall_mem_cons.1 hset
    cases hsocket : b.socket with
    | none =>
      have hhas : b.hasSocket = true := by simp [Candidate.hasSocket, hsocket]
      rw [List.find?_cons_of_pos hhas, Option.some.injEq] at hfind
      subst hfind
      rw [tryAddresses, hsocket, attemptBind_eq hb]
      by_cases huse : b.use = none
      · rw [if_pos huse, if_pos huse]
      · rw [if_neg huse, if_neg huse]
    | some e =>
      have hhas : ¬ b.hasSocket = true := by simp [Candidate.hasSocket, hsocket]
      rw [List.find?_cons_of_neg hhas] at hfind
      rw [tryAddresses, hsocket]
      exact ih (-1) hcs hfind

/-- An address that can be used has a socket. -/
theorem Candidate.usable_iff : c.usable = true ↔ c.hasSocket = true ∧ c.use = none := by
  simp [usable, hasSocket]

theorem find?_usable_of_none (hfind : cs.find? Candidate.hasSocket = none) :
    cs.find? Candidate.usable = none :=
  List.find?_eq_none.2 fun c hc husable ↦
    List.find?_eq_none.1 hfind c hc (Candidate.usable_iff.1 husable).1

theorem find?_usable_of_some (hfind : cs.find? Candidate.hasSocket = some c)
    (huse : c.use = none) : cs.find? Candidate.usable = some c := by
  obtain ⟨hc, before, after, rfl, hbefore⟩ := List.find?_eq_some_iff_append.1 hfind
  refine List.find?_eq_some_iff_append.2 ⟨Candidate.usable_iff.2 ⟨hc, huse⟩, before, after, rfl, ?_⟩
  intro b hb
  have hsocket := hbefore b hb
  simp only [Bool.not_eq_true'] at hsocket ⊢
  rw [Bool.eq_false_iff] at hsocket ⊢
  exact fun husable ↦ hsocket (Candidate.usable_iff.1 husable).1

/-! ### Falling back -/

/-- **The function falls back**: the process is still running, and what is returned is a listening
descriptor for the first address for which `socket` and `bind` succeed, or `-1`, with nothing else
left open. -/
def FallsBack (listenfd : ℤ) (cs : List (Candidate Addr)) (t : DescriptorTable (Opened Addr)) :
    Prop :=
  ∃ r t', openListenfd none listenfd cs t = .returned (r, t') ∧
    ReturnsFirst .listening cs t r t'

/-- A socket that has been bound is made to listen. -/
theorem exists_openListenfd {a : Addr} (hloop : tryAddresses attemptBind .bound listenfd cs t =
    .returned ⟨t.lowest, true, (t.insert .socket).set t.lowest (some (.bound a))⟩) :
    ∃ t', openListenfd none listenfd cs t = .returned (t.lowest, t') ∧
      ∀ j, t'.entry j = if j = t.lowest then some (.listening a) else t.entry j := by
  set bound : DescriptorTable (Opened Addr) :=
    (t.insert .socket).set t.lowest (some (.bound a)) with hbound
  have hentry : bound.entry t.lowest = some (.bound a) := by
    rw [hbound, t.entry_set_insert, if_pos rfl]
  refine ⟨bound.set t.lowest (some (.listening a)), ?_, fun j ↦ ?_⟩
  · rw [openListenfd, hloop]
    show Wrapped.returned (_, bound.set (Int.toNat t.lowest)
      ((bound.entry (Int.toNat t.lowest)).map Opened.toListening)) = _
    rw [Int.toNat_natCast, hentry]
    rfl
  · rw [DescriptorTable.entry_set hentry, hbound, t.entry_set_insert]
    split <;> rfl

/-- **When `open_listenfd` falls back**, setsockopt and listen succeeding: the first address for
which a socket is made can be bound, or there is none. -/
theorem fallsBack_iff (listenfd : ℤ) (cs : List (Candidate Addr))
    (t : DescriptorTable (Opened Addr)) (hset : ∀ c ∈ cs, c.setsockopt = none) :
    FallsBack listenfd cs t ↔
      ∀ c, cs.find? Candidate.hasSocket = some c → c.use = none := by
  cases hfind : cs.find? Candidate.hasSocket with
  | none =>
    refine iff_of_true ?_ nofun
    obtain ⟨fd, hloop⟩ := tryAddresses_of_find?_eq_none listenfd t hfind
    refine ⟨-1, t, by rw [openListenfd, hloop]; rfl, ?_⟩
    rw [ReturnsFirst, find?_usable_of_none hfind]
    exact ⟨rfl, fun _ ↦ rfl⟩
  | some c =>
    have hloop := tryAddresses_of_find?_eq_some listenfd t hset hfind
    by_cases huse : c.use = none
    · refine iff_of_true ?_ fun b hb ↦ Option.some.inj hb ▸ huse
      obtain ⟨t', ht', hentries⟩ := exists_openListenfd (hloop.trans (if_pos huse))
      refine ⟨t.lowest, t', ht', ?_⟩
      rw [ReturnsFirst, find?_usable_of_some hfind huse]
      exact ⟨t.lowest, rfl, t.entry_lowest, hentries⟩
    · refine iff_of_false ?_ fun h ↦ huse (h c rfl)
      rintro ⟨r, t', hrun, -⟩
      rw [openListenfd, hloop, if_neg huse] at hrun
      cases hrun

/-- The first of two addresses has no socket; the second is bound. -/
theorem fallsBack_iff_second : FallsBack 0
    [⟨(1 : ℕ), some .eintr, none, none⟩, ⟨2, none, none, none⟩] [some .other, none] :=
  (fallsBack_iff 0 _ _ (by decide)).2 (by decide)

/-- The first of two addresses is in use: the process exits, and the second is not tried. -/
theorem not_fallsBack_of_first_in_use :
    openListenfd none 0 [⟨(1 : ℕ), none, none, some (.other 98)⟩, ⟨2, none, none, none⟩]
      [some .other] = .exited 0 ∧
      ¬ FallsBack 0 [⟨(1 : ℕ), none, none, some (.other 98)⟩, ⟨2, none, none, none⟩]
        [some .other] := by
  have hexit : openListenfd none 0 [⟨(1 : ℕ), none, none, some (.other 98)⟩, ⟨2, none, none, none⟩]
    [some .other] = .exited 0 := rfl
  refine ⟨hexit, ?_⟩
  rintro ⟨r, t', hrun, -⟩
  rw [hexit] at hrun
  cases hrun

end PreforkHttpd
