import PreforkHttpd.Http.Response

/-!
# The descriptors that the responder closes

`http_module_handler_response` ends with `close(fd); close(clientfd);` for every value of `flag`,
but only the branch of `HTTP_SUCCESS` assigns `fd`. In the others the first `close` is given what
the call found on its stack. `fds_of_handlerResponse` says what becomes of the descriptor table, and
`closesOwn_iff` when that is what it should be: a response that returns removes the client's
descriptor and nothing else exactly if the leftover is no other open descriptor. The branch that
opens a file never gets as far as its `close`.
-/

open Answered

namespace PreforkHttpd

/-- The open descriptors of a process. -/
abbrev Descriptors := { fds : List ℤ // fds.Nodup }

/-! ### Sending opens and closes nothing -/

theorem keeps_send (data : List UInt8) : Keeps Calls.fds (send data) := by
  intro w a w' h
  rw [send] at h
  split at h
  next => cases h
  next => cases h; rfl
  next => cases h; rfl

theorem keeps_httpSend (buf : List UInt8) (len : ℕ) : Keeps Calls.fds (httpSend buf len) :=
  (sendLoop buf).keeps_loop
    (fun _ ↦ Keeps.ite (keeps_pure _) ((keeps_send _).bind fun _ ↦ keeps_pure _)) _

theorem keeps_sendString (page : CArray buffSize) : Keeps Calls.fds (sendString page) :=
  (keeps_lift _).bind fun _ ↦ (keeps_httpSend _ _).bind fun _ ↦ keeps_pure _

theorem keeps_sendOnce (page : CArray buffSize) : Keeps Calls.fds (sendOnce page) :=
  (keeps_lift _).bind fun _ ↦ (keeps_send _).bind fun _ ↦ keeps_pure _

theorem keeps_sendBuffer (page : CArray buffSize) : Keeps Calls.fds (sendBuffer page) :=
  (keeps_httpSend _ _).bind fun _ ↦ keeps_pure _

theorem keeps_sendPieces {handOver : CArray buffSize → Http Unit}
    (hover : ∀ page, Keeps Calls.fds (handOver page)) : ∀ (pieces : List (List UInt8))
      (page : CArray buffSize), Keeps Calls.fds (sendPieces handOver pieces page)
  | [], _ => keeps_pure _
  | _ :: pieces, _ => (keeps_lift _).bind fun _ ↦ (hover _).bind fun _ ↦
    keeps_sendPieces hover pieces _

/-! ### What a response closes -/

variable {fs : FileSystem} {filename : Option (List UInt8)} {clientfd flag fd : ℤ}
  {page : CArray buffSize} {w w' : Calls}

/-- A response other than of success sends its page, and leaves `fd` as it was found. -/
theorem respond_eq_ok {fd' : ℤ} (hflag : flag ≠ httpSuccess)
    (h : respond fs filename flag fd page w = .ok (fd', w')) : fd' = fd ∧ w'.fds = w.fds := by
  have hpage : ∀ {m : Http Unit}, Keeps Calls.fds m →
      (m >>= fun _ ↦ pure fd) w = .ok (fd', w') → fd' = fd ∧ w'.fds = w.fds := by
    intro m hm hrun
    rw [bind_eq_ok_iff] at hrun
    obtain ⟨_, v, hsent, hrun⟩ := hrun
    cases hrun
    exact ⟨rfl, hm hsent⟩
  rw [respond, if_neg hflag] at h
  split at h
  · exact hpage (keeps_sendPieces keeps_sendString _ _) h
  split at h
  · exact hpage (keeps_sendPieces keeps_sendOnce _ _) h
  split at h
  · exact hpage (keeps_sendPieces keeps_sendBuffer _ _) h
  cases h
  exact ⟨rfl, rfl⟩

/-- **The table after a response** other than of success. -/
theorem fds_of_handlerResponse (hflag : flag ≠ httpSuccess)
    (h : handlerResponse fs filename clientfd flag fd page w = .ok ((), w')) :
    w'.fds = (w.fds.erase fd).erase clientfd := by
  rw [handlerResponse, bind_eq_ok_iff] at h
  obtain ⟨fd', v, hrespond, h⟩ := h
  obtain ⟨rfl, hfds⟩ := respond_eq_ok hflag hrespond
  cases h
  show (v.fds.erase fd').erase clientfd = _
  rw [hfds]

/-- Such a response returns as long as there is a failure to come for each piece of its page. -/
theorem handlerResponse_returns_of_ne (hflag : flag ≠ httpSuccess) (h : 9 ≤ failures w.sends) :
    ∃ w', handlerResponse fs filename clientfd flag fd page w = .ok ((), w') := by
  have hpage : ∀ {m : Http Unit}, (∃ v, m w = .ok ((), v)) →
      ∃ v, (m >>= fun _ ↦ pure fd) w = .ok (fd, v) := fun ⟨v, hv⟩ ↦ ⟨v, bind_of_ok hv⟩
  have hrespond : ∃ v, respond fs filename flag fd page w = .ok (fd, v) := by
    rw [respond, if_neg hflag]
    split
    · exact hpage (unknow_returns page h)
    split
    · exact hpage (errorMethod_returns page (by omega))
    split
    · exact hpage (sendPieces_returns usesOneFailure_sendBuffer page (by decide +kernel)
        (le_trans (by decide) h))
    exact ⟨w, rfl⟩
  obtain ⟨v, hv⟩ := hrespond
  exact ⟨_, bind_of_ok hv⟩

/-! ### When that is right -/

/-- Whatever the answers of its calls, a response that returns has removed the client's descriptor
from the table and changed nothing else. -/
def ClosesOwn (fs : FileSystem) (filename : Option (List UInt8)) (clientfd flag fd : ℤ)
    (page : CArray buffSize) (fds : Descriptors) : Prop :=
  ∀ w w' : Calls, w.fds = fds.1 →
    handlerResponse fs filename clientfd flag fd page w = .ok ((), w') →
      w'.fds = fds.1.erase clientfd

/-- An open descriptor that is left over is closed, in a call that returns: one whose every `send`
fails does. -/
theorem not_closesOwn {fds : Descriptors} (hflag : flag ≠ httpSuccess) (hopen : fd ∈ fds.1)
    (hne : fd ≠ clientfd) : ¬ ClosesOwn fs filename clientfd flag fd page fds := by
  intro h
  have hfail : 9 ≤ failures (List.replicate 9 (.err .enotsock)) := by decide
  obtain ⟨w', hrun⟩ : ∃ w', handlerResponse fs filename clientfd flag fd page
      { Calls.reading [] with fds := fds.1, sends := List.replicate 9 (.err .enotsock) } =
        .ok ((), w') := handlerResponse_returns_of_ne hflag hfail
  -- the leftover is still in the table that is wanted, and not in the one that is left
  have hfds := (h _ w' rfl hrun).symm.trans (fds_of_handlerResponse hflag hrun)
  have hmem : fd ∈ fds.1.erase clientfd := (List.mem_erase_of_ne hne).2 hopen
  rw [hfds, List.mem_erase_of_ne hne] at hmem
  exact fds.2.not_mem_erase hmem

/-- **When the responder closes only what is its own**: when it does not return, or what it found in
`fd` is not open, or is the client's descriptor. -/
theorem closesOwn_iff (fs : FileSystem) (filename : Option (List UInt8)) (clientfd flag fd : ℤ)
    (page : CArray buffSize) (fds : Descriptors) :
    ClosesOwn fs filename clientfd flag fd page fds ↔
      flag = httpSuccess ∨ fd ∉ fds.1 ∨ fd = clientfd := by
  refine ⟨fun h ↦ ?_, fun h w w' hw hrun ↦ ?_⟩
  · by_contra! hnot
    exact not_closesOwn hnot.1 hnot.2.1 hnot.2.2 h
  · rcases eq_or_ne flag httpSuccess with rfl | hflag
    · exact absurd hrun handlerResponse_ne_ok
    rw [fds_of_handlerResponse hflag hrun, hw]
    rcases h.resolve_left hflag with hclosed | rfl
    · rw [List.erase_of_not_mem hclosed]
    · exact List.erase_of_not_mem fds.2.not_mem_erase

/-- A 404 with a zero left in `fd` closes the standard input. -/
theorem not_closesOwn_stdin : ¬ ClosesOwn (fun _ ↦ none) (some (ascii "/x")) 5 httpErrorNotFind 0
    (CArray.fill _ 0) ⟨[0, 1, 2, 5], by decide⟩ :=
  not_closesOwn (by decide) (by decide) (by decide)

end PreforkHttpd
