import PreforkHttpd.Dispatch.Transient
import PreforkHttpd.Sock.DescriptorTable

/-!
# Trying one address after the other

`getaddrinfo` may give several addresses for a name, and a socket cannot always be made, or used,
for every one of them. `open_clientfd` and `open_listenfd` of `sock.h` both go through the list,
make a socket for each address, try to `connect` or to `bind` it, close it when that fails, and stop
at the first one that succeeds. The loop is the same (`tryAddresses`); what differs is the call that
is tried. `open_clientfd` calls `connect` itself.

`ReturnsFirst` is what both are for: the descriptor of the first address for which both calls
succeed, and nothing else new in the table. `openClientfd_returnsFirst` says that `open_clientfd`
does so on every list of addresses, whatever fails.
-/

namespace PreforkHttpd

/-! ### The code -/

/-- What a descriptor refers to. -/
inductive Opened (Addr : Type)
  /-- What the process had open before. -/
  | other
  | socket
  | bound (a : Addr)
  | listening (a : Addr)
  | connected (a : Addr)
deriving DecidableEq

/-- An address of the list, with what the calls for it will come to. `use` is the outcome of
`connect` or of `bind`. -/
structure Candidate (Addr : Type) where
  addr : Addr
  socket : Option Errno
  setsockopt : Option Errno
  use : Option Errno
deriving DecidableEq

variable {Addr : Type}

/-- Both calls succeed for this address. -/
def Candidate.usable (c : Candidate Addr) : Bool := c.socket = none ∧ c.use = none

/-- What a system call returns that has nothing to return but success. -/
def returnValue : Option Errno → ℤ
  | none => 0
  | some _ => -1

/-- Where the loop is left: the variable for the descriptor, whether `p` is still an address, and
the table. -/
structure LoopEnd (Addr : Type) where
  fd : ℤ
  found : Bool
  table : DescriptorTable (Opened Addr)

/-- The loop over the addresses. The call that is `attempt`ed says whether the socket is kept, and
`made` what it has become. -/
def tryAddresses (attempt : Candidate Addr → Wrapped Bool) (made : Addr → Opened Addr) :
    ℤ → List (Candidate Addr) → DescriptorTable (Opened Addr) → Wrapped (LoopEnd Addr)
  | fd, [], t => .returned ⟨fd, false, t⟩
  | _, c :: cs, t =>
    match c.socket with
    | some _ => tryAddresses attempt made (-1) cs t
    | none =>
      match attempt c with
      | .exited status => .exited status
      | .returned true =>
        .returned ⟨t.lowest, true, (t.insert .socket).set t.lowest (some (made c.addr))⟩
      | .returned false =>
        tryAddresses attempt made t.lowest cs ((t.insert .socket).set t.lowest none)

/-- `open_clientfd`, where `clientfd` is what the variable holds before it is set: what is returned,
and the table. -/
def openClientfd (clientfd : ℤ) (cs : List (Candidate Addr)) (t : DescriptorTable (Opened Addr)) :
    Wrapped (ℤ × DescriptorTable (Opened Addr)) :=
  match tryAddresses (fun c ↦ .returned (returnValue c.use ≠ -1)) .connected clientfd cs t with
  | .exited status => .exited status
  | .returned e => if e.found then .returned (e.fd, e.table) else .returned (-1, e.table)

/-! ### What the loop is for -/

/-- **The first address that can be used is**: the value is a new descriptor for it, and that is all
that is new in the table; without such an address the value is `-1`, and nothing is new. -/
def ReturnsFirst (made : Addr → Opened Addr) (cs : List (Candidate Addr))
    (t : DescriptorTable (Opened Addr)) (fd : ℤ) (t' : DescriptorTable (Opened Addr)) : Prop :=
  match cs.find? Candidate.usable with
  | some c => ∃ i : ℕ, fd = i ∧ t.entry i = none ∧
      ∀ j, t'.entry j = if j = i then some (made c.addr) else t.entry j
  | none => fd = -1 ∧ ∀ j, t'.entry j = t.entry j

variable {made : Addr → Opened Addr} {attempt : Candidate Addr → Wrapped Bool}
  {c : Candidate Addr} {cs : List (Candidate Addr)}
  {t t' t'' : DescriptorTable (Opened Addr)} {fd : ℤ}

/-- What is said of a table is a matter of its entries. -/
theorem ReturnsFirst.congr (h : ReturnsFirst made cs t' fd t'')
    (ht : ∀ j, t'.entry j = t.entry j) : ReturnsFirst made cs t fd t'' := by
  unfold ReturnsFirst at h ⊢
  cases hfind : cs.find? Candidate.usable with
  | none =>
    simp only [hfind] at h ⊢
    exact ⟨h.1, fun j ↦ (h.2 j).trans (ht j)⟩
  | some c =>
    simp only [hfind] at h ⊢
    obtain ⟨i, hi, hfree, htable⟩ := h
    refine ⟨i, hi, (ht i).symm.trans hfree, fun j ↦ ?_⟩
    rw [htable, ht]

/-- An address that cannot be used makes no difference. -/
theorem ReturnsFirst.cons (hc : c.usable = false) (h : ReturnsFirst made cs t fd t') :
    ReturnsFirst made (c :: cs) t fd t' := by
  rw [ReturnsFirst, List.find?_cons_of_neg (by rw [hc]; decide)]
  exact h

/-- An address that can be used is used. -/
theorem returnsFirst_cons (hc : c.usable = true) (cs : List (Candidate Addr))
    (t : DescriptorTable (Opened Addr)) : ReturnsFirst made (c :: cs) t t.lowest
      ((t.insert .socket).set t.lowest (some (made c.addr))) := by
  rw [ReturnsFirst, List.find?_cons_of_pos hc]
  exact ⟨t.lowest, rfl, t.entry_lowest, t.entry_set_insert _ _⟩

/-- What is returned behind the loop. -/
def LoopEnd.result (e : LoopEnd Addr) : ℤ × DescriptorTable (Opened Addr) :=
  if e.found then (e.fd, e.table) else (-1, e.table)

/-- **The loop does what it is for**, as long as the attempt tells whether the call succeeded. -/
theorem exists_tryAddresses (made : Addr → Opened Addr)
    (hattempt : ∀ c, attempt c = .returned (c.use = none))
    (fd : ℤ) (cs : List (Candidate Addr)) (t : DescriptorTable (Opened Addr)) :
    ∃ e, tryAddresses attempt made fd cs t = .returned e ∧
      ReturnsFirst made cs t e.result.1 e.result.2 := by
  induction cs generalizing fd t with
  | nil => exact ⟨⟨fd, false, t⟩, rfl, rfl, fun _ ↦ rfl⟩
  | cons c cs ih =>
    rw [tryAddresses]
    split
    next e hsocket =>
      obtain ⟨e, he, hfirst⟩ := ih (-1) t
      exact ⟨e, he, hfirst.cons (by simp [Candidate.usable, hsocket])⟩
    next hsocket =>
      rw [hattempt]
      by_cases huse : c.use = none
      · rw [decide_eq_true huse]
        exact ⟨_, rfl, returnsFirst_cons (by simp [Candidate.usable, hsocket, huse]) cs t⟩
      · -- the socket is closed again
        rw [decide_eq_false huse]
        obtain ⟨e, he, hfirst⟩ := ih t.lowest ((t.insert .socket).set t.lowest none)
        refine ⟨e, he, (hfirst.congr (t.entry_close_insert _)).cons ?_⟩
        simp [Candidate.usable, huse]

/-- **`open_clientfd` connects to the first reachable address and leaks nothing.** -/
theorem openClientfd_returnsFirst (clientfd : ℤ) (cs : List (Candidate Addr))
    (t : DescriptorTable (Opened Addr)) :
    ∃ r t', openClientfd clientfd cs t = .returned (r, t') ∧
      ReturnsFirst .connected cs t r t' := by
  have hattempt : ∀ c : Candidate Addr,
      (Wrapped.returned (decide (returnValue c.use ≠ -1))) = .returned (decide (c.use = none)) := by
    intro c
    cases c.use <;> rfl
  obtain ⟨e, he, hfirst⟩ := exists_tryAddresses .connected hattempt clientfd cs t
  refine ⟨_, _, ?_, hfirst⟩
  rw [openClientfd, he]
  cases hfound : e.found <;> simp [LoopEnd.result, hfound]

end PreforkHttpd
