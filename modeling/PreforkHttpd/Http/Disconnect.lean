import PreforkHttpd.Http.Bounds
import PreforkHttpd.Http.Response

/-!
# A client that goes away

`http_module_handler_request` reads a request and answers it. When the client goes away, every read
returns zero or fails from then on, and every send fails. `returns_iff` says for which requests the
call returns all the same; three things must come together.

* The retry loop of `accept_request` must end. `LineEnds` is the condition on the reads, and
  `requestLine_isSome_iff` says that it is exact: an end of stream ends the loop only directly after
  a byte or an interruption, for in the first round of a call it gives the result `-1` that the loop
  waits out. A client that closes without a word, or after a line, is read from for ever.
* The line must fit, or the parsing leaves its arrays.
* The request must be refused. A page is given up piece by piece when its sends fail, but a request
  that finds its file goes on to the transfer, which does not end.
-/

open Answered

namespace PreforkHttpd

/-! ### The code -/

/-- The `switch` on what `accept_request` returned. -/
def reply (fs : FileSystem) (filename : List UInt8) (clientfd code fd : ℤ)
    (page : CArray buffSize) : Http Unit :=
  if code = httpErrorMethod then
    handlerResponse fs (some filename) clientfd httpErrorMethod fd page
  else if code = httpSuccess then
    handlerResponse fs (some filename) clientfd httpSuccess fd page
  else if code = httpErrorNotFind then
    handlerResponse fs (some filename) clientfd httpErrorNotFind fd page
  else if code = httpErrorRequest then
    handlerResponse fs (some filename) clientfd httpErrorRequest fd page
  else pure ()

/-- `http_module_handler_request`, on a client with the descriptor `clientfd`. What the calls find
in their local variables is `l`, `fd` and `page`. -/
def handlerRequest (fs : FileSystem) (l : Locals) (clientfd fd : ℤ) (page : CArray buffSize) :
    Http Unit := do
  let r ← acceptRequest fs l zeroFilename
  let filename ← r.2.readStr (Fault.index .localPath)
  reply fs filename clientfd r.1 fd page

/-! ### When a line arrives at all -/

/-- Somewhere a line ends, directly after a read that `readline` goes on after, or there are as many
of these in a row as the buffer has bytes. -/
def LineEnds (answers : List ReadAnswer) : Prop :=
  (∃ a b, [a, b] <:+: answers ∧ a.Carries ∧ b.Ends) ∨
    ∃ p, p <:+: answers ∧ p.length = buffSize ∧ ∀ a ∈ p, a.Carries

theorem LineEnds.of_suffix {xs ys : List ReadAnswer} (hs : xs <:+ ys) (h : LineEnds xs) :
    LineEnds ys := by
  obtain ⟨a, b, hab, h⟩ | ⟨p, hp, h⟩ := h
  · exact Or.inl ⟨a, b, hab.trans hs.isInfix, h⟩
  · exact Or.inr ⟨p, hp.trans hs.isInfix, h⟩

theorem ReadAnswer.Ends.not_carries {a : ReadAnswer} (h : a.Ends) : ¬ a.Carries := by
  cases a with
  | byte c => exact not_not.2 h
  | eof => exact id
  | err e => exact h.elim

variable {i : ℕ}

/-- **What a read does to the loop**: the call goes on, the loop ends, or the next call begins. -/
theorem requestLine_cons (a : ReadAnswer) (acc : List UInt8) (under : CArray buffSize)
    (hi : i ≠ buffSize) :
    (a.Carries ∧ ∃ acc', ∀ rest, requestLine (a :: rest) i acc under =
      requestLine rest (i + 1) acc' under) ∨
    (i ≠ 0 ∧ a.Ends ∧ ∃ line, ∀ rest, requestLine (a :: rest) i acc under =
      some ⟨line, under, rest⟩) ∨
    (¬ a.Carries ∧ (i = 0 ∨ ¬ a.Ends) ∧ ∃ under', ∀ rest, requestLine (a :: rest) i acc under =
      requestLine rest 0 [] under') := by
  cases a with
  | byte c =>
    by_cases hc : c = newline
    · by_cases hzero : i = 0
      · refine Or.inr (Or.inr ⟨not_not.2 hc, Or.inl hzero, under.overlay [newline, 0],
          fun rest ↦ ?_⟩)
        rw [requestLine, if_neg hi, if_neg (not_not.2 hc), if_pos hzero]
      · refine Or.inr (Or.inl ⟨hzero, hc, acc ++ [c], fun rest ↦ ?_⟩)
        rw [requestLine, if_neg hi, if_neg (not_not.2 hc), if_neg hzero]
    · refine Or.inl ⟨hc, acc ++ [c], fun rest ↦ ?_⟩
      rw [requestLine, if_neg hi, if_pos hc]
  | eof =>
    by_cases hzero : i = 0
    · refine Or.inr (Or.inr ⟨id, Or.inl hzero, under.overlay [0], fun rest ↦ ?_⟩)
      rw [requestLine, if_neg hi, if_pos hzero]
    · refine Or.inr (Or.inl ⟨hzero, trivial, acc, fun rest ↦ ?_⟩)
      rw [requestLine, if_neg hi, if_neg hzero]
  | err e =>
    by_cases he : e = .eintr
    · refine Or.inl ⟨he, acc, fun rest ↦ ?_⟩
      rw [requestLine, if_neg hi, if_pos he]
    · refine Or.inr (Or.inr ⟨he, Or.inr id, under.overlay acc, fun rest ↦ ?_⟩)
      rw [requestLine, if_neg hi, if_neg he]

/-- What comes after a list of reads is left when a line has arrived in it, and is read by the call
in progress when none has. -/
theorem requestLine_append : ∀ (xs : List ReadAnswer) (i : ℕ) (acc : List UInt8)
    (under : CArray buffSize), i ≤ buffSize →
    (∃ line under' rest, ∀ ys, requestLine (xs ++ ys) i acc under =
      some ⟨line, under', rest ++ ys⟩) ∨
    ∃ i' acc' under', i' < buffSize ∧ ∀ ys, requestLine (xs ++ ys) i acc under =
      requestLine ys i' acc' under'
  | [], i, acc, under, hi => by
    rcases eq_or_lt_of_le hi with rfl | hlt
    · exact Or.inl ⟨acc, under, [], fun ys ↦ requestLine_full⟩
    · exact Or.inr ⟨i, acc, under, hlt, fun ys ↦ rfl⟩
  | a :: xs, i, acc, under, hi => by
    rcases eq_or_lt_of_le hi with rfl | hlt
    · exact Or.inl ⟨acc, under, a :: xs, fun ys ↦ requestLine_full⟩
    · obtain ⟨-, acc', hgo⟩ | ⟨-, -, line, hend⟩ | ⟨-, -, under', hnext⟩ :=
        requestLine_cons a acc under hlt.ne
      · simp only [List.cons_append, hgo]
        exact requestLine_append xs (i + 1) acc' under hlt
      · exact Or.inl ⟨line, under, xs, fun ys ↦ hend _⟩
      · simp only [List.cons_append, hnext]
        exact requestLine_append xs 0 [] under' (Nat.zero_le _)

/-- A call that begins with so many reads to go on after is over at the last round. -/
theorem isSome_requestLine_of_carries (rest : List ReadAnswer) : ∀ (p : List ReadAnswer) {i : ℕ}
    {acc : List UInt8} {under : CArray buffSize}, i ≤ buffSize → buffSize ≤ i + p.length →
    (∀ a ∈ p, a.Carries) → (requestLine (p ++ rest) i acc under).isSome
  | [], i, acc, under, hi, hfull, _ => by
    obtain rfl : i = buffSize := le_antisymm hi hfull
    rw [requestLine_full]
    rfl
  | a :: p, i, acc, under, hi, hfull, hp => by
    rcases eq_or_lt_of_le hi with rfl | hlt
    · rw [requestLine_full]
      rfl
    · have ha : a.Carries := hp a List.mem_cons_self
      rw [List.length_cons] at hfull
      obtain ⟨-, acc', hgo⟩ | ⟨-, hends, -⟩ | ⟨hnot, -⟩ :=
        requestLine_cons a acc under hlt.ne
      · rw [List.cons_append, hgo]
        exact isSome_requestLine_of_carries rest p hlt (by omega)
          fun b hb ↦ hp b (List.mem_cons_of_mem a hb)
      · exact absurd ha hends.not_carries
      · exact absurd ha hnot

/-- The loop ends only where a line ends. The call in progress began with `p`. -/
theorem lineEnds_of_isSome : ∀ (xs p : List ReadAnswer) (acc : List UInt8)
    (under : CArray buffSize), p.length ≤ buffSize → (∀ a ∈ p, a.Carries) →
    (requestLine xs p.length acc under).isSome → LineEnds (p ++ xs)
  | xs, p, acc, under, hlength, hp, h => by
    rcases eq_or_lt_of_le hlength with hfull | hlt
    · exact Or.inr ⟨p, (List.prefix_append p xs).isInfix, hfull, hp⟩
    · cases xs with
      | nil =>
        rw [requestLine, if_neg hlt.ne] at h
        cases h
      | cons a xs =>
        obtain ⟨ha, acc', hgo⟩ | ⟨hpos, hends, -⟩ | ⟨-, -, under', hnext⟩ :=
          requestLine_cons a acc under hlt.ne
        · have hgone : (p ++ [a]).length = p.length + 1 := by
            rw [List.length_append, List.length_singleton]
          rw [hgo, ← hgone] at h
          rw [List.append_cons]
          refine lineEnds_of_isSome xs (p ++ [a]) acc' under (hgone ▸ hlt) (fun b hb ↦ ?_) h
          rcases List.mem_append.1 hb with hb | hb
          · exact hp b hb
          · exact List.mem_singleton.1 hb ▸ ha
        · have hne : p ≠ [] := fun hnil ↦ hpos (hnil ▸ rfl)
          obtain ⟨q, b, rfl⟩ : ∃ q b, p = q ++ [b] :=
            ⟨_, _, (List.dropLast_concat_getLast hne).symm⟩
          have hb : b.Carries := hp b (List.mem_append_right q (List.mem_singleton_self b))
          refine Or.inl ⟨b, a, ⟨q, xs, ?_⟩, hb, hends⟩
          rw [List.append_assoc, List.append_assoc]
          rfl
        · rw [hnext] at h
          have hrest := lineEnds_of_isSome xs [] [] under' (Nat.zero_le _) (List.forall_mem_nil _) h
          exact hrest.of_suffix ⟨p ++ [a], (List.append_cons p a xs).symm⟩

/-- **When the retry loop of `accept_request` ends.** -/
theorem requestLine_isSome_iff (answers : List ReadAnswer) (under : CArray buffSize) :
    (requestLine answers 0 [] under).isSome ↔ LineEnds answers := by
  refine ⟨lineEnds_of_isSome answers [] [] under (Nat.zero_le _) (List.forall_mem_nil _), ?_⟩
  rintro (⟨a, b, ⟨s, t, rfl⟩, ha, hb⟩ | ⟨p, ⟨s, t, rfl⟩, hlength, hp⟩)
  · rw [List.append_assoc]
    obtain ⟨line, under', rest, hs⟩ | ⟨i, acc, under', hi, hs⟩ :=
      requestLine_append s 0 [] under (Nat.zero_le _)
    · rw [hs]
      rfl
    · rw [hs, List.cons_append]
      obtain ⟨-, acc', hgo⟩ | ⟨-, hends, -⟩ | ⟨hnot, -⟩ := requestLine_cons a acc under' hi.ne
      · rw [hgo]
        rcases eq_or_lt_of_le (show i + 1 ≤ buffSize from hi) with hfull | hlt
        · rw [hfull, requestLine_full]
          rfl
        · obtain ⟨hcarries, -⟩ | ⟨-, -, line, hend⟩ | ⟨-, hnot, -⟩ :=
            requestLine_cons b acc' under' hlt.ne
          · exact absurd hcarries hb.not_carries
          · rw [List.cons_append, hend]
            rfl
          · exact absurd hb (hnot.resolve_left (Nat.succ_ne_zero i))
      · exact absurd ha hends.not_carries
      · exact absurd ha hnot
  · rw [List.append_assoc]
    obtain ⟨line, under', rest, hs⟩ | ⟨i, acc, under', hi, hs⟩ :=
      requestLine_append s 0 [] under (Nat.zero_le _)
    · rw [hs]
      rfl
    · rw [hs]
      exact isSome_requestLine_of_carries t p hi.le (by omega) hp

/-- A line that has arrived has arrived for good. -/
theorem requestLine_append_of_some {xs : List ReadAnswer} {a : Arrival} {under : CArray buffSize}
    (h : requestLine xs 0 [] under = some a) (ys : List ReadAnswer) :
    requestLine (xs ++ ys) 0 [] under = some { a with rest := a.rest ++ ys } := by
  obtain ⟨line, under', rest, hs⟩ | ⟨i, acc, under', hi, hs⟩ :=
    requestLine_append xs 0 [] under (Nat.zero_le _)
  · have hnil := hs []
    rw [List.append_nil, List.append_nil, h] at hnil
    obtain rfl := Option.some.inj hnil
    exact hs ys
  · have hnil := hs []
    rw [List.append_nil, h, requestLine, if_neg hi.ne] at hnil
    cases hnil

/-! ### When the answer ends -/

section Reply

variable {fs : FileSystem} {clientfd fd : ℤ} {page : CArray buffSize} {w w' : Calls}
  {filename : List UInt8} {bytes : List UInt8}

/-- The request in the buffer is refused: its method is not one of those served, or there is nothing
under its path. -/
def Refuses (fs : FileSystem) (bytes : List UInt8) : Prop :=
  Served ((methodToken bytes).takeWhile (· ≠ 0)) →
    fs (requestPath ((urlToken bytes).takeWhile (· ≠ 0))) = none

/-- A refused request gets the code of one of the two pages. -/
theorem answer_of_refuses {localPath : CArray buffSize} (h : Refuses fs bytes) :
    (answer fs bytes localPath).1 = httpErrorMethod ∨
      (answer fs bytes localPath).1 = httpErrorNotFind := by
  rw [answer]
  split
  next hserved =>
    refine Or.inr ?_
    rw [located, h hserved]
  next => exact Or.inl rfl

/-- Any other request gets the code of success. -/
theorem answer_of_not_refuses {localPath : CArray buffSize} (h : ¬ Refuses fs bytes) :
    (answer fs bytes localPath).1 = httpSuccess := by
  rw [Refuses, Classical.not_imp] at h
  obtain ⟨hserved, hfound⟩ := h
  rw [answer, if_pos hserved, located]
  split
  next hnone => exact absurd hnone hfound
  next => rfl
  next => rfl

/-- A response that ends with a page closes the descriptors and returns. -/
theorem handlerResponse_returns {flag : ℤ}
    (h : ∃ v, respond fs (some filename) flag fd page w = .ok (fd, v)) :
    ∃ w', handlerResponse fs (some filename) clientfd flag fd page w = .ok ((), w') := by
  obtain ⟨v, hv⟩ := h
  exact ⟨_, bind_of_ok hv⟩

/-- **A refusal returns** as long as there is a failure to come for each piece of its page. -/
theorem reply_returns {code : ℤ} (hcode : code = httpErrorMethod ∨ code = httpErrorNotFind)
    (h : 9 ≤ failures w.sends) :
    ∃ w', reply fs filename clientfd code fd page w = .ok ((), w') := by
  rcases hcode with rfl | rfl
  · obtain ⟨v, hv⟩ := errorMethod_returns page (w := w) (by omega)
    rw [reply, if_pos rfl]
    refine handlerResponse_returns ⟨v, ?_⟩
    rw [respond, if_neg (by decide), if_neg (by decide), if_pos rfl, bind_of_ok hv]
    rfl
  · obtain ⟨v, hv⟩ := unknow_returns page h
    rw [reply, if_neg (by decide), if_neg (by decide), if_pos rfl]
    refine handlerResponse_returns ⟨v, ?_⟩
    rw [respond, if_neg (by decide), if_pos rfl, bind_of_ok hv]
    rfl

/-- Success does not return. -/
theorem reply_ne_ok : reply fs filename clientfd httpSuccess fd page w ≠ .ok ((), w') := by
  rw [reply, if_neg (by decide), if_pos rfl]
  exact handlerResponse_ne_ok

/-- The name left to the caller is a string. -/
theorem exists_readStr_answer (fs : FileSystem) (h : TokensFit bytes) :
    ∃ name, (answer fs bytes zeroFilename).2.readStr (Fault.index .localPath) = .ok name := by
  rw [answer]
  split
  next =>
    have hurl := (List.takeWhile_prefix (· ≠ 0) (l := urlToken bytes)).length_le.trans_lt h.url
    exact ⟨_, CArray.readStr_overlay (length_located_requestPath_lt fs hurl)⟩
  next => exact ⟨_, if_pos (List.mem_replicate.2 ⟨by decide, rfl⟩)⟩

end Reply

/-! ### When the peer is gone -/

/-- The peer goes away: from some point on every read returns zero or fails, and every send fails —
with an error of the connection sooner or later, and not with `EINTR` for ever. -/
structure PeerGone (e : Environment) : Prop where
  reads : ∃ k, ∀ i, k ≤ i → e.reads i = .eof ∨ ∃ err, e.reads i = .err err
  sends : ∃ k, ∀ i, k ≤ i → ∃ err, e.sends i = .err err
  fails : ∀ k, ∃ i, k ≤ i ∧ (e.sends i).Fails

/-- Among the reads a line ends, what arrives fits, and it is refused. -/
def RefusedInTime (fs : FileSystem) (buf : CArray buffSize) (e : Environment) : Prop :=
  ∃ k, LineEnds (firstOf e.reads k) ∧ RequestFits buf (firstOf e.reads k) ∧
    ∀ a ∈ requestLine (firstOf e.reads k) 0 [] buf, Refuses fs a.buffer.bytes

/-- Failures without end are as many as are needed. -/
theorem exists_failures {sends : ℕ → SendAnswer} (h : ∀ k, ∃ i, k ≤ i ∧ (sends i).Fails) :
    ∀ n, ∃ k, n ≤ failures (firstOf sends k)
  | 0 => ⟨0, Nat.zero_le _⟩
  | n + 1 => by
    obtain ⟨k, hk⟩ := exists_failures h n
    obtain ⟨i, hki, hi⟩ := h k
    refine ⟨i + 1, ?_⟩
    have hone : failures [sends i] = 1 := by
      rw [failures, List.countP_singleton, if_pos (decide_eq_true hi)]
    have hle := failures_mono (firstOf_mono sends hki)
    rw [firstOf_succ, failures_append, hone]
    omega

variable {e : Environment} {fs : FileSystem} {l : Locals} {clientfd fd : ℤ} {page : CArray buffSize}
  {fds : List ℤ}

/-- A call that returns has refused a request. -/
theorem refusedInTime_of_returns (h : e.Returns fds (handlerRequest fs l clientfd fd page)) :
    RefusedInTime fs l.buf e := by
  obtain ⟨k, u, w', hok⟩ := h
  rw [handlerRequest, bind_eq_ok_iff] at hok
  obtain ⟨r, v, haccept, hok⟩ := hok
  obtain ⟨a, harrives, hline, htokens, rfl, rfl⟩ :=
    exists_of_acceptRequest_eq_ok (le_refl _) haccept
  have hreads : requestLine (firstOf e.reads k) 0 [] l.buf = some a := harrives
  have hsame : ∀ b ∈ requestLine (firstOf e.reads k) 0 [] l.buf, b = a := fun b hb ↦
    Option.some.inj (hb.symm.trans hreads)
  rw [bind_eq_ok_iff] at hok
  obtain ⟨name, v, -, hok⟩ := hok
  refine ⟨k, ?_, fun b hb ↦ ?_, fun b hb ↦ ?_⟩
  · rw [← requestLine_isSome_iff _ l.buf, hreads]
    rfl
  · rw [hsame b hb]
    exact ⟨hline, htokens⟩
  · rw [hsame b hb]
    by_contra hrefuses
    rw [answer_of_not_refuses hrefuses] at hok
    exact reply_ne_ok hok

/-- A request that is refused in time is answered, and the answer given up in time. -/
theorem returns_of_refusedInTime (hfails : ∀ k, ∃ i, k ≤ i ∧ (e.sends i).Fails)
    (h : RefusedInTime fs l.buf e) : e.Returns fds (handlerRequest fs l clientfd fd page) := by
  obtain ⟨k, hends, hfits, hrefuses⟩ := h
  obtain ⟨a, ha⟩ := Option.isSome_iff_exists.1 ((requestLine_isSome_iff _ l.buf).2 hends)
  obtain ⟨hline, htokens⟩ := hfits a ha
  obtain ⟨m, hm⟩ := exists_failures hfails 9
  -- the answers up to the later of the two moments
  let w := e.first fds (max k m)
  obtain ⟨ys, hys⟩ := firstOf_mono e.reads (le_max_left k m)
  have hreads : requestLine w.reads 0 [] l.buf = some { a with rest := a.rest ++ ys } := by
    show requestLine (firstOf e.reads (max k m)) 0 [] l.buf = _
    rw [← hys]
    exact requestLine_append_of_some ha ys
  have haccept : acceptRequest fs l zeroFilename w =
      .ok (answer fs a.buffer.bytes zeroFilename, { w with reads := a.rest ++ ys }) :=
    acceptRequest_of_fits hreads hline htokens (le_refl _)
  have hsends : 9 ≤ failures w.sends :=
    hm.trans (failures_mono (firstOf_mono e.sends (le_max_right k m)))
  obtain ⟨name, hname⟩ := exists_readStr_answer fs htokens
  obtain ⟨w', hw'⟩ : ∃ w', reply fs name clientfd (answer fs a.buffer.bytes zeroFilename).1 fd page
      { w with reads := a.rest ++ ys } = .ok ((), w') :=
    reply_returns (answer_of_refuses (hrefuses a ha)) hsends
  refine ⟨max k m, (), w', ?_⟩
  rw [handlerRequest, bind_of_ok haccept, bind_of_ok (lift_of_ok hname _)]
  exact hw'

/-- **When a request ends although its peer is gone**: the call returns if and only if a line
arrives, it fits, and the request is refused. -/
theorem returns_iff (h : PeerGone e) (fs : FileSystem) (l : Locals) (clientfd fd : ℤ)
    (page : CArray buffSize) (fds : List ℤ) :
    e.Returns fds (handlerRequest fs l clientfd fd page) ↔ RefusedInTime fs l.buf e :=
  ⟨refusedInTime_of_returns, returns_of_refusedInTime h.fails⟩

/-- The answers to a server whose client sends `bytes`, closes, and has gone when the server sends:
error 32 is a broken pipe. -/
def closesAfter (bytes : List UInt8) : Environment where
  reads := fun i ↦ bytes[i]?.elim .eof .byte
  recvs := fun _ ↦ .err .enotsock
  sends := fun _ ↦ .err (.other 32)
  opens := fun _ ↦ some 5
  fdopens := fun _ ↦ true

theorem peerGone_closesAfter (bytes : List UInt8) : PeerGone (closesAfter bytes) where
  reads := by
    refine ⟨bytes.length, fun i hi ↦ Or.inl ?_⟩
    show bytes[i]?.elim ReadAnswer.eof .byte = _
    rw [List.getElem?_eq_none hi]
    rfl
  sends := ⟨0, fun i _ ↦ ⟨_, rfl⟩⟩
  fails := fun k ↦ ⟨k, le_refl k, nofun⟩

/-- A client that asks with a method of its own, and closes, is given up. -/
theorem returns_unknownMethod :
    (closesAfter (ascii "X /\n")).Returns [4]
      (handlerRequest helloFile zeroLocals 4 0 (CArray.fill _ 0)) := by
  refine (returns_iff (peerGone_closesAfter _) _ _ _ _ _ _).2 ⟨4, ?_, fun a ha ↦ ?_, fun a ha ↦ ?_⟩
  · have hslash : slash ≠ newline := by decide
    exact Or.inl ⟨.byte slash, .byte newline, ⟨[.byte 88, .byte 32], [], rfl⟩, hslash, rfl⟩
  · obtain rfl : ⟨ascii "X /\n", zeroLocals.buf, []⟩ = a := Option.some.inj ha
    exact ⟨by decide, ⟨by decide, by decide, by decide⟩⟩
  · obtain rfl : ⟨ascii "X /\n", zeroLocals.buf, []⟩ = a := Option.some.inj ha
    exact fun hserved ↦ absurd hserved (by decide)

/-- A client that closes without a word is read from for ever. -/
theorem not_returns_of_closesAtOnce :
    PeerGone (closesAfter []) ∧ ¬ (closesAfter []).Returns [4]
      (handlerRequest helloFile zeroLocals 4 0 (CArray.fill _ 0)) := by
  refine ⟨peerGone_closesAfter [], fun h ↦ ?_⟩
  obtain ⟨k, hends, -⟩ := refusedInTime_of_returns h
  have heof : ∀ a ∈ firstOf (closesAfter []).reads k, ¬ a.Carries := by
    intro a ha
    obtain ⟨i, -, rfl⟩ := List.mem_map.1 ha
    exact id
  obtain ⟨a, b, hab, ha, -⟩ | ⟨p, hp, hlength, hcarries⟩ := hends
  · exact heof a (hab.subset List.mem_cons_self) ha
  · obtain ⟨a, ha⟩ := List.exists_mem_of_length_pos (hlength ▸ (by decide : 0 < buffSize))
    exact heof a (hp.subset ha) (hcarries a ha)

end PreforkHttpd
