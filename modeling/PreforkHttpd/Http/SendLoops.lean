import Mathlib.Data.Set.Finite.Lattice
import PreforkHttpd.Http.Send
import PreforkHttpd.Io.Drain

/-!
# The two send loops

`http_send` and `rio_write` are the same loop written twice: hand the rest of the buffer to the
kernel until there is none. They keep their place differently — `rio_write` computes its result from
the bytes that are left, and lets `EINTR` fall through with `nwrite = 0` where `http_send`
continues.

`Drains` says what makes a loop such a sender: a relation between its state and what is done and
what is left, which each round keeps. `Drains.loop_eq` is the simulation: such a loop computes
`Drain.drain`. Both loops are senders (`httpSend_eq`, `rioWrite_eq`), so they agree on every list of
answers, and what one of them hands over and has accepted is what `Drain.Exact` says of the drain.
-/

open Answered Drain

namespace PreforkHttpd

/-- What an answer of `send` means for a sender. -/
def SendAnswer.uptake : SendAnswer → Uptake
  | .sent n => .took n
  | .err e => if e = .eintr then .again else .failed

theorem SendAnswer.uptake_sent (n : ℕ) : (sent n).uptake = .took n := rfl

theorem SendAnswer.uptake_eintr : (err .eintr).uptake = .again := rfl

theorem SendAnswer.uptake_err {e : Errno} (he : e ≠ .eintr) : (err e).uptake = .failed := if_neg he

theorem SendAnswer.uptake_eq_failed_iff {a : SendAnswer} : a.uptake = .failed ↔ a.Fails := by
  rcases a with n | e
  · exact iff_of_false nofun id
  · rw [SendAnswer.uptake]
    split
    next he => exact iff_of_false nofun fun hfails ↦ hfails he
    next he => exact iff_of_true rfl he

theorem SendAnswer.uptake_eq_took_iff {a : SendAnswer} {n : ℕ} :
    a.uptake = .took n ↔ a = .sent n := by
  rcases a with m | e
  · rw [SendAnswer.uptake_sent, Uptake.took.injEq, SendAnswer.sent.injEq]
  · rw [SendAnswer.uptake]
    split <;> exact iff_of_false nofun nofun

/-! ### `rio_write` -/

/-- Where `rio_write` is: `ptr` bytes into the buffer, with `nleft` bytes to go. -/
structure Writing where
  ptr : ℕ
  nleft : ℕ

/-- `nleft -= nwrite; ptr += nwrite;` -/
def Writing.advance (s : Writing) (nwrite : ℕ) : Writing := ⟨s.ptr + nwrite, s.nleft - nwrite⟩

/-- What `rio_write` does after a `write`: go on, or return. -/
def Writing.after (sz : ℕ) (s : Writing) : SendAnswer → Writing ⊕ ℤ
  -- `nwrite = 0`, and on to the end of the round
  | .err e => if e = .eintr then .inl (s.advance 0) else .inr (-1)
  | .sent nwrite => if nwrite = 0 then .inr ((sz : ℤ) - s.nleft) else .inl (s.advance nwrite)

/-- The round of the `while (nleft > 0)` of `rio_write`. A `write` to a socket answers as `send`
does. -/
def writeRound (usrbuf : List UInt8) (sz : ℕ) (s : Writing) : Http (Writing ⊕ ℤ) :=
  if s.nleft = 0 then pure (.inr ((sz : ℤ) - s.nleft))
  else do
    let a ← send ((usrbuf.drop s.ptr).take s.nleft)
    pure (s.after sz a)

/-- The `while (nleft > 0)` of `rio_write`. -/
def writeLoop (usrbuf : List UInt8) (sz : ℕ) :
    Round (fun w : Calls ↦ w.sends.length) Fault Writing ℤ where
  run := writeRound usrbuf sz
  size_lt {s w s' w'} h := by
    by_cases hs : s.nleft = 0
    · rw [writeRound, if_pos hs] at h
      cases h
    · rw [writeRound, if_neg hs, bind_eq_ok_iff] at h
      obtain ⟨a, v, hsend, h⟩ := h
      obtain ⟨-, rfl⟩ := Prod.mk.inj (Except.ok.inj h)
      exact sends_of_send hsend

/-- `rio_write(fd, usrbuf, sz)`. -/
def rioWrite (usrbuf : List UInt8) (sz : ℕ) : Http ℤ := (writeLoop usrbuf sz).loop ⟨0, sz⟩

/-! ### Senders -/

/-- What a sender returns that has sent `done` bytes before this drain. -/
def sentResult (done : ℕ) (d : Drained SendAnswer UInt8) : ℤ :=
  if d.failed then -1 else done + d.accepted.length

/-- What a drain means for a sender, run on `w` with `done` bytes sent. -/
def drained (done : ℕ) (w : Calls) : Option (Drained SendAnswer UInt8) →
    Except (Stop Fault) (ℤ × Calls)
  | none => .error .pending
  | some d => .ok (sentResult done d, { w with
      sends := d.rest, accepted := w.accepted ++ d.accepted, handed := w.handed ++ d.handed })

/-- The loop hands what is left to `send`, and moves on by what was taken. `Rep s done data` says
that in state `s` so many bytes have been sent and these are left. -/
structure Drains {σ : Type} (r : Round (fun w : Calls ↦ w.sends.length) Fault σ ℤ)
    (after : σ → SendAnswer → σ ⊕ ℤ) (Rep : σ → ℕ → List UInt8 → Prop) : Prop where
  run_nil : ∀ {s done}, Rep s done [] → r.run s = pure (.inr ↑done)
  run_ne_nil : ∀ {s done data}, Rep s done data → data ≠ [] →
    r.run s = (send data >>= fun a ↦ pure (after s a))
  eintr : ∀ {s done data}, Rep s done data →
    ∃ s', after s (.err .eintr) = .inl s' ∧ Rep s' done data
  err : ∀ {s e}, e ≠ .eintr → after s (.err e) = .inr (-1)
  zero : ∀ {s done data}, Rep s done data → after s (.sent 0) = .inr ↑done
  sent : ∀ {s done data n}, Rep s done data → 0 < n → n ≤ data.length →
    ∃ s', after s (.sent n) = .inl s' ∧ Rep s' (done + n) (data.drop n)

section Send

variable {data : List UInt8} {w : Calls} {rest : List SendAnswer}

/-- An attempt that is answered with a number of bytes, -/
theorem send_of_sent {n : ℕ} (h : w.sends = .sent n :: rest) :
    send data w = .ok (.sent (min n data.length), { w with
      sends := rest, accepted := w.accepted ++ data.take n, handed := w.handed ++ [data] }) := by
  rw [send, h]

/-- and one that fails. -/
theorem send_of_err {e : Errno} (h : w.sends = .err e :: rest) :
    send data w = .ok (.err e, { w with sends := rest, handed := w.handed ++ [data] }) := by
  rw [send, h]

theorem send_of_nil (h : w.sends = []) : send data w = .error .pending := by
  rw [send, h]

end Send

/-- The drain that goes on after an attempt. -/
theorem drained_map_after (done : ℕ) (w : Calls) (data xs : List UInt8)
    (rest : List SendAnswer) (o : Option (Drained SendAnswer UInt8)) :
    drained done w (o.map (Drained.after data xs)) =
      drained (done + xs.length) { w with
        sends := rest, accepted := w.accepted ++ xs, handed := w.handed ++ [data] } o := by
  cases o with
  | none => rfl
  | some d =>
    have hresult : sentResult done (d.after data xs) = sentResult (done + xs.length) d := by
      rw [sentResult, sentResult]
      refine if_congr Iff.rfl rfl ?_
      show (done : ℤ) + ↑(xs ++ d.accepted).length = _
      rw [List.length_append]
      omega
    rw [Option.map_some, drained, drained, hresult]
    simp [Drained.after]

/-- With nothing left nothing happens. -/
theorem drained_nil (done : ℕ) (w : Calls) :
    drained done w (drain SendAnswer.uptake w.sends []) = .ok (↑done, w) := by
  rw [drain_nil, drained]
  simp [sentResult]

/-- **A sender computes the drain.** The induction is on the answers. -/
theorem Drains.loop_eq {σ : Type} {r : Round (fun w : Calls ↦ w.sends.length) Fault σ ℤ}
    {after : σ → SendAnswer → σ ⊕ ℤ} {Rep : σ → ℕ → List UInt8 → Prop}
    (hr : Drains r after Rep) {s : σ} {done : ℕ} {data : List UInt8} (hs : Rep s done data)
    (w : Calls) : r.loop s w = drained done w (drain SendAnswer.uptake w.sends data) := by
  induction hsends : w.sends generalizing s done data w with
  | nil =>
    by_cases hdata : data = []
    · subst hdata
      rw [← hsends, drained_nil]
      exact r.loop_of_inr (by rw [hr.run_nil hs, pure_run])
    · rw [drain_of_no_answer hdata, drained]
      exact r.loop_of_error (by rw [hr.run_ne_nil hs hdata, bind_of_error (send_of_nil hsends)])
  | cons a rest ih =>
    by_cases hdata : data = []
    · subst hdata
      rw [← hsends, drained_nil]
      exact r.loop_of_inr (by rw [hr.run_nil hs, pure_run])
    have hrun : ∀ {a' w'}, send data w = .ok (a', w') → r.run s w = .ok (after s a', w') :=
      fun hsend ↦ by rw [hr.run_ne_nil hs hdata, bind_of_ok hsend, pure_run]
    rcases a with n | e
    · have hsend := hrun (send_of_sent hsends)
      rcases n.eq_zero_or_pos with rfl | hn
      · rw [drain_of_took_zero hdata (SendAnswer.uptake_sent 0), drained]
        rw [Nat.zero_min, hr.zero hs] at hsend
        rw [r.loop_of_inr hsend]
        simp [sentResult]
      · -- what is left is what `send` did not take
        have hpos : 0 < min n data.length := lt_min hn (List.length_pos_of_ne_nil hdata)
        obtain ⟨s', hafter, hs'⟩ := hr.sent hs hpos (min_le_right _ _)
        rw [hafter] at hsend
        rw [← List.drop_eq_drop_min] at hs'
        rw [r.loop_of_inl hsend, ih hs' _ rfl,
          drain_of_took hdata (SendAnswer.uptake_sent n) hn, drained_map_after done w data _ rest,
          List.length_take]
    · have hsend := hrun (send_of_err hsends)
      by_cases he : e = .eintr
      · subst he
        obtain ⟨s', hafter, hs'⟩ := hr.eintr hs
        rw [hafter] at hsend
        rw [r.loop_of_inl hsend, ih hs' _ rfl, drain_of_again hdata SendAnswer.uptake_eintr,
          drained_map_after done w data _ rest, List.append_nil]
        rfl
      · rw [hr.err he] at hsend
        rw [r.loop_of_inr hsend, drain_of_failed hdata (SendAnswer.uptake_err he), drained]
        simp [sentResult]

/-- `http_send` has its place at `cur_ptr` and `nleft`. -/
structure Sending.At (buf : List UInt8) (s : Sending) (done : ℕ) (data : List UInt8) : Prop where
  cur_eq : s.cur = done
  fits : s.cur + s.nleft ≤ buf.length
  data_eq : (buf.drop s.cur).take s.nleft = data

theorem Sending.At.nleft_eq {buf : List UInt8} {s : Sending} {done : ℕ} {data : List UInt8}
    (hs : s.At buf done data) : s.nleft = data.length := by
  have hfits := hs.fits
  rw [← hs.data_eq, List.length_take, List.length_drop]
  omega

/-- The place after `n` more bytes. -/
theorem Sending.At.advance {buf : List UInt8} {s : Sending} {done n : ℕ} {data : List UInt8}
    (hs : s.At buf done data) (hn : n ≤ data.length) :
    Sending.At buf ⟨s.cur + n, s.nleft - n⟩ (done + n) (data.drop n) where
  cur_eq := congrArg (· + n) hs.cur_eq
  fits := by
    have hfits := hs.fits
    have hnleft := hs.nleft_eq
    show s.cur + n + (s.nleft - n) ≤ buf.length
    omega
  data_eq := by
    rw [← hs.data_eq, List.drop_take, List.drop_drop]

theorem drains_sendLoop (buf : List UInt8) :
    Drains (sendLoop buf) Sending.after (Sending.At buf) where
  run_nil {s done} hs := by
    show sendRound buf s = _
    rw [sendRound_of_zero hs.nleft_eq, hs.cur_eq]
  run_ne_nil {s done data} hs hdata := by
    show sendRound buf s = _
    rw [sendRound_of_pos (hs.nleft_eq ▸ List.length_pos_of_ne_nil hdata), hs.data_eq]
  eintr {s done data} hs := ⟨s, rfl, hs⟩
  err he := if_neg he
  zero {s done data} hs := by rw [Sending.after, if_pos rfl, hs.cur_eq]
  sent {s done data n} hs hn hle := ⟨_, if_neg hn.ne', hs.advance hle⟩

/-- `rio_write` has its place at `ptr` and `nleft`, and counts what is left. -/
structure Writing.At (usrbuf : List UInt8) (sz : ℕ) (s : Writing) (done : ℕ) (data : List UInt8) :
    Prop where
  place : Sending.At usrbuf ⟨s.ptr, s.nleft⟩ done data
  sum_eq : done + s.nleft = sz

theorem drains_writeLoop (usrbuf : List UInt8) (sz : ℕ) :
    Drains (writeLoop usrbuf sz) (Writing.after sz) (Writing.At usrbuf sz) where
  run_nil {s done} hs := by
    have hsum := hs.sum_eq
    have hnleft : s.nleft = 0 := hs.place.nleft_eq
    show writeRound usrbuf sz s = _
    rw [writeRound, if_pos hnleft]
    congr 2
    omega
  run_ne_nil {s done data} hs hdata := by
    have hnleft : s.nleft = data.length := hs.place.nleft_eq
    have hpos := List.length_pos_of_ne_nil hdata
    show writeRound usrbuf sz s = _
    rw [writeRound, if_neg (by omega), ← hs.place.data_eq]
  eintr {s done data} hs := ⟨s, rfl, hs⟩
  err he := if_neg he
  zero {s done data} hs := by
    have hsum := hs.sum_eq
    rw [Writing.after, if_pos rfl]
    congr 1
    omega
  sent {s done data n} hs hn hle := by
    have hsum := hs.sum_eq
    have hnleft : s.nleft = data.length := hs.place.nleft_eq
    refine ⟨s.advance n, if_neg hn.ne', hs.place.advance hle, ?_⟩
    show done + n + (s.nleft - n) = sz
    omega

variable {buf : List UInt8} {len : ℕ}

/-- **`http_send` is a sender.** -/
theorem httpSend_eq (hlen : len ≤ buf.length) (w : Calls) :
    httpSend buf len w = drained 0 w (drain SendAnswer.uptake w.sends (buf.take len)) :=
  (drains_sendLoop buf).loop_eq ⟨rfl, by rwa [Nat.zero_add], rfl⟩ w

/-- **So is `rio_write`.** -/
theorem rioWrite_eq (hlen : len ≤ buf.length) (w : Calls) :
    rioWrite buf len w = drained 0 w (drain SendAnswer.uptake w.sends (buf.take len)) :=
  (drains_writeLoop buf len).loop_eq
    ⟨⟨rfl, by rwa [Nat.zero_add], rfl⟩, Nat.zero_add len⟩ w

/-! ### What they send -/

/-- Nothing but sends to come. -/
def Calls.sending (sends : List SendAnswer) : Calls := { Calls.reading [] with sends := sends }

/-- How many bytes these answers accept. -/
def bytesTaken (answers : List SendAnswer) : ℕ := taken SendAnswer.uptake answers

/-- **The buffer is sent exactly**, on the answers `used`: each call hands over what the calls
before it have left, what is accepted is the beginning of the buffer, and the result is its length,
or `-1` when a call has failed. Without a failure everything is accepted, unless a call returned
zero. -/
structure SendsExactly (data : List UInt8) (used : List SendAnswer) (r : ℤ)
    (accepted : List UInt8) (handed : List (List UInt8)) : Prop where
  calls : handed.length = used.length
  handed_eq : ∀ {i x}, handed[i]? = some x → x = data.drop (bytesTaken (used.take i))
  accepted_eq : accepted = data.take (bytesTaken used)
  result_eq : r = if ∃ a ∈ used, a.Fails then -1 else ↑accepted.length
  whole : (∀ a ∈ used, ¬ a.Fails) → accepted = data ∨ .sent 0 ∈ used

/-- A drain sends exactly. -/
theorem sendsExactly_of_exact {data : List UInt8} {used : List SendAnswer}
    {d : Drained SendAnswer UInt8} (h : Exact SendAnswer.uptake data used d) :
    SendsExactly data used (sentResult 0 d) d.accepted d.handed where
  calls := h.calls
  handed_eq := h.handed_eq
  accepted_eq := h.accepted_eq
  result_eq := by
    have hfailed : d.failed = true ↔ ∃ a ∈ used, a.Fails := by
      simpa only [SendAnswer.uptake_eq_failed_iff] using h.failed_iff
    rw [sentResult]
    exact if_congr hfailed rfl (by simp)
  whole hfails := by
    by_contra hnot
    obtain ⟨hpart, hzero⟩ := not_or.1 hnot
    refine hpart (h.whole_iff.2 fun a ha ↦ ⟨mt SendAnswer.uptake_eq_failed_iff.1 (hfails a ha), ?_⟩)
    exact fun hup ↦ hzero (SendAnswer.uptake_eq_took_iff.1 hup ▸ ha)

/-- Enough answers of a kind that comes again and again. -/
theorem le_countP_firstOf {α : Type} {p : α → Bool} {f : ℕ → α} {start : ℕ}
    (h : ∀ i, start ≤ i → p (f i) = true) : ∀ m, m ≤ (firstOf f (start + m)).countP p
  | 0 => Nat.zero_le _
  | m + 1 => by
    have ih := le_countP_firstOf h m
    rw [← Nat.add_assoc, firstOf_succ, List.countP_append, List.countP_singleton,
      if_pos (h _ (Nat.le_add_right start m))]
    omega

/-- **The two send loops are exact and agree.** For every buffer, every length that an `int` holds,
and every sequence of answers with finitely many interruptions, `http_send` and `rio_write` return
the same result, from the same calls, and have sent the buffer exactly. -/
theorem sendLoops_exact {buf : List UInt8} (len : IntLength) (hlen : ↑len ≤ buf.length)
    {sends : ℕ → SendAnswer} (hfinite : {i | sends i = .err .eintr}.Finite) :
    ∃ k r w' used, httpSend buf len (Calls.sending (firstOf sends k)) = .ok (r, w') ∧
      rioWrite buf len (Calls.sending (firstOf sends k)) = .ok (r, w') ∧
      firstOf sends k = used ++ w'.sends ∧
      SendsExactly (buf.take len) used r w'.accepted w'.handed := by
  obtain ⟨last, hlast⟩ := hfinite.bddAbove
  have hup : ∀ i, last + 1 ≤ i → decide ((sends i).uptake ≠ .again) = true := by
    intro i hi
    refine decide_eq_true fun hagain ↦ ?_
    have heintr : sends i = .err .eintr := by
      rcases hsend : sends i with n | e <;> rw [hsend] at hagain
      · cases hagain
      · by_contra hne
        rw [SendAnswer.uptake_err fun he ↦ hne (he ▸ rfl)] at hagain
        cases hagain
    have hle : i ≤ last := hlast heintr
    omega
  obtain ⟨d, hd⟩ : ∃ d, drain SendAnswer.uptake (firstOf sends (last + 1 + len)) (buf.take len) =
      some d := by
    refine Option.isSome_iff_exists.1 (isSome_drain ?_)
    exact (List.length_take_le _ _).trans (le_countP_firstOf hup _)
  obtain ⟨used, hused, hexact⟩ := exact_of_drain hd
  have hrun : drained 0 (Calls.sending (firstOf sends (last + 1 + len)))
      (drain SendAnswer.uptake (firstOf sends (last + 1 + len)) (buf.take len)) =
      .ok (sentResult 0 d, { Calls.sending d.rest with
        accepted := d.accepted, handed := d.handed }) := by
    rw [hd]
    rfl
  exact ⟨_, _, _, used, (httpSend_eq hlen _).trans hrun, (rioWrite_eq hlen _).trans hrun, hused,
    sendsExactly_of_exact hexact⟩

/-- The kernel takes one byte, is interrupted, takes three bytes, and then the rest. -/
def oneThenThree : ℕ → SendAnswer
  | 0 => .sent 1
  | 1 => .err .eintr
  | 2 => .sent 3
  | _ => .sent 1024

/-- Five bytes, sent in three parts and once in vain. -/
theorem sendLoops_exact_hello :
    ∃ k r w' used, httpSend (ascii "hello") 5 (Calls.sending (firstOf oneThenThree k)) =
        .ok (r, w') ∧
      rioWrite (ascii "hello") 5 (Calls.sending (firstOf oneThenThree k)) = .ok (r, w') ∧
      firstOf oneThenThree k = used ++ w'.sends ∧
      SendsExactly ((ascii "hello").take 5) used r w'.accepted w'.handed := by
  refine sendLoops_exact ⟨5, by decide⟩ (by decide) ((Set.finite_singleton 1).subset ?_)
  rintro (- | - | - | i) hi
  · cases hi
  · rfl
  · cases hi
  · cases hi

end PreforkHttpd
