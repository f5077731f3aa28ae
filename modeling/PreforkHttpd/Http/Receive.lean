import PreforkHttpd.Http.Response

/-!
# What `http_rcv` collects

`http_rcv` is meant to collect what the peer sent, up to `len` bytes, over as many calls of `recv`
as that takes. Its condition is `(nread = recv(…) < 0)`, so `nread` is the outcome of the
comparison, and every call that succeeds looks like the end of the stream: the loop is left after
the first one, with `cur_ptr` where it was.

`Delivers` says that a list of answers is a stream, cut up in some way and interrupted here and
there, and `Breaks` that a failure comes before the receiver has what it wants. `collects_iff` is
exact: the receiver returns what these two ask for if and only if it wants nothing, or the first
answer that is not an interruption brings nothing.
-/

open Answered

namespace PreforkHttpd

/-- The answers deliver the stream to a receiver that wants `len` bytes: in pieces no longer than
what it still wants, with interruptions, and with an empty piece at the end of the stream. -/
inductive Delivers : List UInt8 → ℕ → List RecvAnswer → Prop
  | enough {stream as} : Delivers stream 0 as
  | ended {len as} : 0 < len → Delivers [] len (.received [] :: as)
  | interrupted {stream len as} : 0 < len → Delivers stream len as →
      Delivers stream len (.err .eintr :: as)
  | piece {data stream len as} : data ≠ [] → data.length ≤ len →
      Delivers stream (len - data.length) as →
      Delivers (data ++ stream) len (.received data :: as)

/-- A failure comes while a receiver that wants `len` bytes still wants some. -/
inductive Breaks : ℕ → List RecvAnswer → Prop
  | failed {len e as} : 0 < len → e ≠ .eintr → Breaks len (.err e :: as)
  | interrupted {len as} : Breaks len as → Breaks len (.err .eintr :: as)
  | piece {data len as} : data ≠ [] → data.length < len → Breaks (len - data.length) as →
      Breaks len (.received data :: as)

/-- Nothing but calls of `recv` to come. -/
def Calls.receiving (recvs : List RecvAnswer) : Calls := { Calls.reading [] with recvs := recvs }

variable {n len : ℕ} {buf : CArray n} {recvs : List RecvAnswer} {stream : List UInt8}

/-- What is promised of `http_rcv` on these answers: the result is what the stream has, up to `len`
bytes, and the buffer begins with them; or `-1`, when a failure comes first. -/
structure Collects (buf : CArray n) (len : ℕ) (recvs : List RecvAnswer) : Prop where
  delivered : ∀ stream, Delivers stream len recvs → ∃ buf' w',
    httpRcv buf len (Calls.receiving recvs) = .ok ((↑(min len stream.length), buf'), w') ∧
      buf'.bytes.take (min len stream.length) = stream.take (min len stream.length)
  broken : Breaks len recvs → ∃ buf' w',
    httpRcv buf len (Calls.receiving recvs) = .ok ((-1, buf'), w')

/-- The first answer that is not an interruption. -/
def firstOutcome (recvs : List RecvAnswer) : Option RecvAnswer :=
  recvs.find? fun a ↦ decide (a ≠ .err .eintr)

theorem firstOutcome_interrupted (recvs : List RecvAnswer) :
    firstOutcome (.err .eintr :: recvs) = firstOutcome recvs :=
  List.find?_cons_of_neg (by decide)

theorem firstOutcome_of_ne {a : RecvAnswer} (ha : a ≠ .err .eintr) (recvs : List RecvAnswer) :
    firstOutcome (a :: recvs) = some a :=
  List.find?_cons_of_pos (decide_eq_true ha)

theorem firstOutcome_received (data : List UInt8) (recvs : List RecvAnswer) :
    firstOutcome (.received data :: recvs) = some (.received data) :=
  List.find?_cons_of_pos rfl

/-! ### What the code does -/

theorem recv_receiving (len : ℕ) (a : RecvAnswer) (rest : List RecvAnswer) :
    recv len (Calls.receiving (a :: rest)) = .ok (a.upTo len, Calls.receiving rest) := rfl

/-- An interruption is passed over. -/
theorem httpRcv_interrupted (buf : CArray n) (hpos : 0 < len) (rest : List RecvAnswer) :
    httpRcv buf len (Calls.receiving (.err .eintr :: rest)) =
      httpRcv buf len (Calls.receiving rest) := by
  refine rcvLoop.loop_of_inl ?_
  show rcvRound (⟨0, len, buf⟩ : Receiving n) _ = _
  rw [rcvRound_of_pos hpos, bind_of_ok (recv_receiving len _ rest)]
  rfl

/-- A failure is `-1`. -/
theorem httpRcv_failed (buf : CArray n) (hpos : 0 < len) {e : Errno} (he : e ≠ .eintr)
    (rest : List RecvAnswer) :
    httpRcv buf len (Calls.receiving (.err e :: rest)) = .ok ((-1, buf), Calls.receiving rest) := by
  refine rcvLoop.loop_of_inr ?_
  show rcvRound (⟨0, len, buf⟩ : Receiving n) _ = _
  rw [rcvRound_of_pos hpos, bind_of_ok (recv_receiving len _ rest)]
  exact congrArg (fun x ↦ Except.ok (x, Calls.receiving rest)) (if_neg he)

/-- **What arrives is stored and forgotten**: the result is zero. -/
theorem httpRcv_received (buf : CArray n) (hlen : len ≤ n) (hpos : 0 < len) (data : List UInt8)
    (rest : List RecvAnswer) :
    httpRcv buf len (Calls.receiving (.received data :: rest)) =
      .ok ((0, buf.overlay (data.take len)), Calls.receiving rest) := by
  have hfits : (data.take len).length ≤ n := (List.length_take_le _ _).trans hlen
  refine rcvLoop.loop_of_inr ?_
  show rcvRound (⟨0, len, buf⟩ : Receiving n) _ = _
  rw [rcvRound_of_pos hpos, bind_of_ok (recv_receiving len _ rest), RecvAnswer.upTo,
    Receiving.store, CArray.storeAll_zero _ _ hfits]
  rfl

/-- **The first outcome decides**: the interruptions before it make no difference. -/
theorem exists_httpRcv_eq (buf : CArray n) (hpos : 0 < len) {a : RecvAnswer}
    (h : firstOutcome recvs = some a) : ∃ rest,
      httpRcv buf len (Calls.receiving recvs) = httpRcv buf len (Calls.receiving (a :: rest)) := by
  induction recvs with
  | nil => cases h
  | cons b rest ih =>
    by_cases hb : b = .err .eintr
    · rw [hb, firstOutcome_interrupted] at h
      rw [hb, httpRcv_interrupted buf hpos]
      exact ih h
    · rw [firstOutcome_of_ne hb] at h
      obtain rfl := Option.some.inj h
      exact ⟨rest, rfl⟩

/-- Whatever arrives first, the result is zero. -/
theorem exists_httpRcv_eq_zero (buf : CArray n) (hlen : len ≤ n) (hpos : 0 < len)
    {data : List UInt8} (h : firstOutcome recvs = some (.received data)) :
    ∃ buf' w', httpRcv buf len (Calls.receiving recvs) = .ok ((0, buf'), w') := by
  obtain ⟨rest, heq⟩ := exists_httpRcv_eq buf hpos h
  exact ⟨_, _, heq.trans (httpRcv_received buf hlen hpos data rest)⟩

/-! ### What the answers promise -/

/-- A stream that is delivered begins with what arrives first. -/
theorem Delivers.exists_received (h : Delivers stream len recvs) (hpos : 0 < len) :
    ∃ data, firstOutcome recvs = some (.received data) ∧ (stream = [] ↔ data = []) := by
  induction h with
  | enough => exact absurd hpos (lt_irrefl 0)
  | ended => exact ⟨[], firstOutcome_received _ _, Iff.rfl⟩
  | interrupted _ _ ih =>
    rw [firstOutcome_interrupted]
    exact ih hpos
  | @piece data stream _ _ hdata _ _ _ =>
    exact ⟨data, firstOutcome_received _ _,
      iff_of_false (fun hnil ↦ hdata (List.append_eq_nil_iff.1 hnil).1) hdata⟩

/-- Before a failure, something arrives, or nothing does. -/
theorem Breaks.firstOutcome_cases (h : Breaks len recvs) : 0 < len ∧
    ((∃ e, e ≠ .eintr ∧ firstOutcome recvs = some (.err e)) ∨
      ∃ data, data ≠ [] ∧ firstOutcome recvs = some (.received data)) := by
  induction h with
  | @failed _ e _ hpos he =>
    exact ⟨hpos, Or.inl ⟨e, he, firstOutcome_of_ne (fun h ↦ he (by injection h)) _⟩⟩
  | interrupted _ ih =>
    rw [firstOutcome_interrupted]
    exact ih
  | @piece data _ _ hdata hlt _ _ =>
    exact ⟨(Nat.zero_le _).trans_lt hlt, Or.inr ⟨data, hdata, firstOutcome_received _ _⟩⟩

/-- **When `http_rcv` collects what the peer sent.** For every length that an `int` holds, every
stream, every way of delivering it, and every failure on the way: the promise is kept if and only if
nothing is wanted, or the first answer that is not an interruption brings no data. -/
theorem collects_iff (buf : CArray n) (len : IntLength) (hlen : ↑len ≤ n)
    (h : (∃ stream, Delivers stream len recvs) ∨ Breaks len recvs) :
    Collects buf len recvs ↔
      len.1 = 0 ∨ ∀ data, firstOutcome recvs = some (.received data) → data = [] := by
  obtain ⟨len, _⟩ := len
  dsimp only at hlen h ⊢
  rcases len.eq_zero_or_pos with rfl | hpos
  · refine iff_of_true ⟨fun stream _ ↦ ?_, fun hbreaks ↦ ?_⟩ (Or.inl rfl)
    · have hzero : httpRcv buf 0 (Calls.receiving recvs) =
          .ok ((↑(0 : ℕ), buf), Calls.receiving recvs) := by
        refine rcvLoop.loop_of_inr ?_
        show rcvRound (⟨0, 0, buf⟩ : Receiving n) _ = _
        rw [rcvRound_of_zero rfl]
        rfl
      rw [Nat.zero_min]
      exact ⟨_, _, hzero, rfl⟩
    · exact absurd hbreaks.firstOutcome_cases.1 (lt_irrefl 0)
  rw [or_iff_right hpos.ne']
  refine ⟨fun hcollects data hdata ↦ ?_, fun hnone ↦ ⟨fun stream hdelivers ↦ ?_, fun hbreaks ↦ ?_⟩⟩
  · -- data arrives first, so the result is zero
    obtain ⟨buf', w', hrun⟩ := exists_httpRcv_eq_zero buf hlen hpos hdata
    obtain ⟨stream, hdelivers⟩ | hbreaks := h
    · obtain ⟨buf'', w'', hrun', -⟩ := hcollects.delivered stream hdelivers
      have hresult := congrArg (fun r ↦ r.1.1) (Except.ok.inj (hrun.symm.trans hrun'))
      have hstream : stream = [] := by
        rw [← List.length_eq_zero_iff]
        have hmin : 0 = ((min len stream.length : ℕ) : ℤ) := hresult
        omega
      obtain ⟨data', hdata', hiff⟩ := hdelivers.exists_received hpos
      obtain rfl : data = data' := by
        injection Option.some.inj (hdata.symm.trans hdata')
      exact hiff.1 hstream
    · obtain ⟨buf'', w'', hrun'⟩ := hcollects.broken hbreaks
      have hresult := congrArg (fun r ↦ r.1.1) (Except.ok.inj (hrun.symm.trans hrun'))
      cases hresult
  · obtain ⟨data, hdata, hiff⟩ := hdelivers.exists_received hpos
    obtain rfl : stream = [] := hiff.2 (hnone data hdata)
    obtain ⟨buf', w', hrun⟩ := exists_httpRcv_eq_zero buf hlen hpos hdata
    rw [List.length_nil, Nat.min_zero]
    exact ⟨buf', w', hrun, rfl⟩
  · obtain ⟨-, ⟨e, he, hfirst⟩ | ⟨data, hdata, hfirst⟩⟩ := hbreaks.firstOutcome_cases
    · obtain ⟨rest, heq⟩ := exists_httpRcv_eq buf hpos hfirst
      exact ⟨_, _, heq.trans (httpRcv_failed buf hpos he rest)⟩
    · exact absurd (hnone data hfirst) hdata

/-- A peer that closes after an interruption has sent nothing, and nothing is collected. -/
theorem collects_iff_closed : Collects (CArray.fill 8 0) 5 [.err .eintr, .received []] := by
  have hdelivers : Delivers [] 5 [.err .eintr, .received []] :=
    .interrupted (by decide) (.ended (by decide))
  refine (collects_iff _ ⟨5, by decide⟩ (by decide) (Or.inl ⟨_, hdelivers⟩)).2
    (Or.inr fun data hdata ↦ ?_)
  injection Option.some.inj hdata with hdata
  exact hdata.symm

/-- A peer that sends `hello`: the five bytes are in the buffer, and the result is zero. -/
theorem not_collects_hello :
    Delivers (ascii "hello") 5 [.received (ascii "hello")] ∧
      (∃ buf' w', httpRcv (CArray.fill 8 0) 5 (Calls.receiving [.received (ascii "hello")]) =
        .ok ((0, buf'), w') ∧ buf'.bytes.take 5 = ascii "hello") ∧
      ¬ Collects (CArray.fill 8 0) 5 [.received (ascii "hello")] := by
  have hdelivers : Delivers (ascii "hello" ++ []) 5 [.received (ascii "hello")] :=
    .piece (by decide) (by decide) .enough
  have hrun : httpRcv (CArray.fill 8 0) 5 (Calls.receiving [.received (ascii "hello")]) =
      .ok ((0, (CArray.fill 8 0).overlay (ascii "hello")), Calls.receiving []) := rfl
  refine ⟨hdelivers, ⟨_, _, hrun, rfl⟩, fun hcollects ↦ ?_⟩
  obtain ⟨buf', w', hrun', -⟩ := hcollects.delivered _ hdelivers
  rw [hrun] at hrun'
  cases hrun'

end PreforkHttpd
