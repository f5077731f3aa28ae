import PreforkHttpd.Http.Calls

/-!
# Sending

`http_send` calls `send` until everything is sent. It starts over after `EINTR`, returns `-1` on any
other failure, and stops early, with what it has sent so far, when `send` returns zero.

The kernel decides how long this takes. `failures` counts the answers on which `http_send` gives up:
as long as one of them is to come, the call returns, and it uses up no more than one
(`httpSend_returns`).
-/

open Answered

namespace PreforkHttpd

/-! ### The code -/

/-- Where `http_send` is: `cur_ptr` is `cur` bytes into the buffer, and `nleft` bytes are to go. -/
structure Sending where
  cur : ℕ
  nleft : ℕ

/-- What `http_send` does after a `send`: go on, or return. -/
def Sending.after (s : Sending) : SendAnswer → Sending ⊕ ℤ
  | .err e => if e = .eintr then .inl s else .inr (-1)
  -- `send` returning zero leaves the loop as if everything were sent
  | .sent n => if n = 0 then .inr s.cur else .inl ⟨s.cur + n, s.nleft - n⟩

/-- The round of the `while (nleft > 0)` of `http_send`. -/
def sendRound (buf : List UInt8) (s : Sending) : Http (Sending ⊕ ℤ) :=
  if s.nleft = 0 then pure (.inr s.cur)
  else do
    let a ← send ((buf.drop s.cur).take s.nleft)
    pure (s.after a)

theorem sendRound_of_pos {buf : List UInt8} {s : Sending} (h : 0 < s.nleft) :
    sendRound buf s =
      (send ((buf.drop s.cur).take s.nleft) >>= fun a ↦ pure (s.after a)) :=
  if_neg h.ne'

theorem sendRound_of_zero {buf : List UInt8} {s : Sending} (h : s.nleft = 0) :
    sendRound buf s = pure (.inr s.cur) :=
  if_pos h

/-- A round with something to send takes an answer. -/
theorem sends_of_sendRound {buf : List UInt8} {s : Sending} {w w' : Calls} {x : Sending ⊕ ℤ}
    (hs : 0 < s.nleft) (h : sendRound buf s w = .ok (x, w')) :
    w'.sends.length < w.sends.length := by
  rw [sendRound_of_pos hs, bind_eq_ok_iff] at h
  obtain ⟨a, v, hsend, h⟩ := h
  cases h
  exact sends_of_send hsend

/-- The `while (nleft > 0)` of `http_send`. -/
def sendLoop (buf : List UInt8) : Round (fun w : Calls ↦ w.sends.length) Fault Sending ℤ where
  run := sendRound buf
  size_lt {s w s' w'} h := by
    rcases Nat.eq_zero_or_pos s.nleft with hs | hs
    · rw [sendRound_of_zero hs] at h
      cases h
    · exact sends_of_sendRound hs h

/-- `http_send(fd, buf, len)`. -/
def httpSend (buf : List UInt8) (len : ℕ) : Http ℤ := (sendLoop buf).loop ⟨0, len⟩

/-! ### Every call sends -/

variable {buf : List UInt8} {len : ℕ} {w w' : Calls}

theorem forward_sendRound (s : Sending) : Forward (sendRound buf s) :=
  Forward.ite (forward_pure _) ((forward_send _).bind fun _ ↦ forward_pure _)

theorem forward_httpSend (buf : List UInt8) (len : ℕ) : Forward (httpSend buf len) :=
  (sendLoop buf).forward_loop forward_sendRound _

theorem safe_httpSend (buf : List UInt8) (len : ℕ) : Safe (httpSend buf len) := by
  refine (sendLoop buf).safe_loop (fun s ↦ ?_) _
  show Safe (sendRound buf s)
  rcases Nat.eq_zero_or_pos s.nleft with hs | hs
  · rw [sendRound_of_zero hs]
    exact safe_pure _
  · rw [sendRound_of_pos hs]
    exact (safe_send _).bind fun _ ↦ safe_pure _

/-- A call with something to send takes an answer. -/
theorem sends_of_httpSend {r : ℤ} (hlen : 0 < len) (h : httpSend buf len w = .ok (r, w')) :
    w'.sends.length < w.sends.length :=
  (sendLoop buf).size_lt_of_loop (fun h ↦ (Calls.Later.sends h).length_le) forward_sendRound
    (sends_of_sendRound hlen) h

/-! ### When it returns -/

/-- An answer on which `http_send` gives up. -/
def SendAnswer.Fails : SendAnswer → Prop
  | .sent _ => False
  | .err e => e ≠ .eintr

instance : DecidablePred SendAnswer.Fails
  | .sent _ => inferInstanceAs (Decidable False)
  | .err e => inferInstanceAs (Decidable (e ≠ .eintr))

/-- How many such answers are to come. -/
def failures (sends : List SendAnswer) : ℕ := sends.countP fun a ↦ decide a.Fails

theorem failures_append (xs ys : List SendAnswer) :
    failures (xs ++ ys) = failures xs + failures ys := List.countP_append

theorem failures_mono {xs ys : List SendAnswer} (h : xs <+: ys) :
    failures xs ≤ failures ys := h.sublist.countP_le

/-- A call of `send` returns as long as an answer is to come, and uses up a failure only when it is
one. -/
theorem send_returns (data : List UInt8) (h : 0 < failures w.sends) :
    ∃ a w', send data w = .ok (a, w') ∧ failures w.sends ≤ failures w'.sends + 1 ∧
      (¬ a.Fails → failures w'.sends = failures w.sends) := by
  rw [send]
  split
  next hw => rw [hw] at h; cases h
  next n rest hw =>
    rw [hw]
    exact ⟨_, _, rfl, Nat.le_succ _, fun _ ↦ rfl⟩
  next e rest hw =>
    rw [hw, failures, List.countP_cons]
    refine ⟨_, _, rfl, ?_, fun hfail ↦ ?_⟩
    · refine Nat.add_le_add_left ?_ _
      split <;> decide
    · rw [if_neg (mt of_decide_eq_true hfail)]
      rfl

/-- **`http_send` returns** as long as a failure is to come, and uses up one at most. -/
theorem httpSend_returns (buf : List UInt8) (len : ℕ) (h : 0 < failures w.sends) :
    ∃ r w', httpSend buf len w = .ok (r, w') ∧ failures w.sends ≤ failures w'.sends + 1 := by
  refine (sendLoop buf).loop_returns (fun _ v ↦ failures v.sends = failures w.sends)
    (fun _ v ↦ failures w.sends ≤ failures v.sends + 1) ?_ rfl
  intro s v hv
  show (∃ s' w', sendRound buf s v = _ ∧ _) ∨ ∃ b w', sendRound buf s v = _ ∧ _
  rcases Nat.eq_zero_or_pos s.nleft with hs | hs
  · rw [sendRound_of_zero hs]
    exact Or.inr ⟨_, v, rfl, by omega⟩
  · obtain ⟨a, v', hsend, hle, heq⟩ := send_returns ((buf.drop s.cur).take s.nleft) (hv ▸ h)
    rw [sendRound_of_pos hs, bind_of_ok hsend, pure_run]
    -- only the answer on which the loop gives up is a failure
    cases a with
    | sent n =>
      rw [Sending.after]
      split
      · exact Or.inr ⟨_, v', rfl, hv ▸ hle⟩
      · exact Or.inl ⟨_, v', rfl, (heq id).trans hv⟩
    | err e =>
      rw [Sending.after]
      split
      next he => exact Or.inl ⟨s, v', rfl, (heq (not_not.2 he)).trans hv⟩
      next he => exact Or.inr ⟨_, v', rfl, hv ▸ hle⟩

end PreforkHttpd
