import PreforkHttpd.Http.Calls

/-!
# Reading the request line

`readline` stores bytes until a newline, the end of the stream, or `maxlen` rounds of its loop, and
returns its loop counter minus one. `accept_request` calls it again as long as the result is `-1`.

Three things about `readline` matter to its caller, and the model keeps all of them.

* **The counter counts rounds, not bytes**: a read that fails with `EINTR` stores nothing and counts
  like one that stores a byte.
* **A failure forgets**: any other failure returns `-1` at once, and the next call stores from the
  start of the buffer, over the bytes of the call before.
* **An empty result is a failure**: a newline or an end of stream in the first round gives
  `0 - 1 = -1`, so the caller calls again.

`requestLine` says the same of the loop as a whole, reading the answers one by one with no memory
but the bytes of the current call. `readRequest_eq_outcome` is the refinement: the loop waits
exactly when `requestLine` runs out of answers, and otherwise leaves the line it gives, followed by
a NUL, over whatever the buffer held — unless the line fills the buffer, and then that NUL is stored
past its end.
-/

open Answered

namespace PreforkHttpd

variable {n : ℕ}

/-- `'\n'`. -/
abbrev newline : UInt8 := 10

/-- The value of a `size_t` expression as an `ssize_t`, that is modulo `2 ^ 64`. -/
def ssize (k : ℤ) : ℤ := k.bmod 18446744073709551616

/-- The value of an `ssize_t` kept in an `int`, that is modulo `2 ^ 32`. -/
def intOfSsize (k : ℤ) : ℤ := k.bmod 4294967296

/-! ### The code -/

/-- The last two lines of `readline`: `*cur_ptr = '\0'; return (i - 1);` -/
def readlineEnd (i cur : ℕ) (buf : CArray n) : Http (ℤ × CArray n) := do
  let buf ← buf.store (Fault.index .buf) cur 0
  pure (ssize (i - 1), buf)

/-- The `for` loop of `readline` with `left` rounds to go: the counter is `i`, and `cur_ptr` is
`cur` bytes into the buffer. -/
def readlineFrom : ℕ → ℕ → ℕ → CArray n → Http (ℤ × CArray n)
  | 0, i, cur, buf => readlineEnd i cur buf
  | left + 1, i, cur, buf => do
    match ← readByte with
    | .byte c =>
      let buf ← buf.store (Fault.index .buf) cur c
      if c = newline then readlineEnd i (cur + 1) buf
      else readlineFrom left (i + 1) (cur + 1) buf
    | .eof =>
      let buf ← buf.store (Fault.index .buf) cur 0
      readlineEnd i cur buf
    | .err e =>
      -- `continue` goes through the `i++` of the loop
      if e = .eintr then readlineFrom left (i + 1) cur buf else pure (-1, buf)

/-- `readline(fd, buf, maxlen)`. -/
def readline (buf : CArray n) (maxlen : ℕ) : Http (ℤ × CArray n) := readlineFrom maxlen 0 0 buf

/-- The code after a call of `readline` in `accept_request`: `while (nread == -1)`. -/
def again (r : ℤ × CArray buffSize) : Http (CArray buffSize ⊕ CArray buffSize) :=
  pure (if intOfSsize r.1 = -1 then .inl r.2 else .inr r.2)

/-! ### What an answer does to a line -/

/-- A read that `readline` goes on after. -/
def ReadAnswer.Carries : ReadAnswer → Prop
  | .byte c => c ≠ newline
  | .eof => False
  | .err e => e = .eintr

/-- A read that ends a line. -/
def ReadAnswer.Ends : ReadAnswer → Prop
  | .byte c => c = newline
  | .eof => True
  | .err _ => False

/-! ### Every call reads -/

theorem readlineEnd_eq_ok {i cur : ℕ} {buf : CArray n} {w w' : Calls} {r : ℤ × CArray n}
    (h : readlineEnd i cur buf w = .ok (r, w')) : w' = w := by
  rw [readlineEnd, bind_eq_ok_iff] at h
  obtain ⟨buf', v, hstore, h⟩ := h
  obtain ⟨-, rfl⟩ := lift_eq_ok_iff.1 hstore
  cases h
  rfl

/-- The loop uses up no answer twice, and a round uses up one. -/
theorem reads_of_readlineFrom :
    ∀ {left i cur : ℕ} {buf : CArray n} {w w' : Calls} {r : ℤ × CArray n},
      readlineFrom left i cur buf w = .ok (r, w') →
        w'.reads.length ≤ w.reads.length ∧ (0 < left → w'.reads.length < w.reads.length)
  | 0, i, cur, buf, w, w', r, h => by
    rw [readlineEnd_eq_ok h]
    exact ⟨le_refl _, fun h ↦ absurd h (lt_irrefl 0)⟩
  | left + 1, i, cur, buf, w, w', r, h => by
    suffices hlt : w'.reads.length < w.reads.length from ⟨hlt.le, fun _ ↦ hlt⟩
    rw [readlineFrom, bind_eq_ok_iff] at h
    obtain ⟨a, v, hread, h⟩ := h
    obtain ⟨rest, hw, rfl⟩ := readByte_eq_ok_iff.1 hread
    rw [hw, List.length_cons]
    refine Nat.lt_succ_of_le ?_
    cases a with
    | byte c =>
      rw [bind_eq_ok_iff] at h
      obtain ⟨buf', v, hstore, h⟩ := h
      obtain ⟨-, rfl⟩ := lift_eq_ok_iff.1 hstore
      split at h
      · rw [readlineEnd_eq_ok h]
      · exact (reads_of_readlineFrom h).1
    | eof =>
      rw [bind_eq_ok_iff] at h
      obtain ⟨buf', v, hstore, h⟩ := h
      obtain ⟨-, rfl⟩ := lift_eq_ok_iff.1 hstore
      rw [readlineEnd_eq_ok h]
    | err e =>
      dsimp only at h
      split at h
      · exact (reads_of_readlineFrom h).1
      · cases h
        exact le_refl _

/-- The retry loop of `accept_request`: `readline` until it does not return `-1`. -/
def retry : Round (fun w : Calls ↦ w.reads.length) Fault (CArray buffSize) (CArray buffSize) where
  run buf := readline buf buffSize >>= again
  size_lt {s w s' w'} h := by
    rw [bind_eq_ok_iff] at h
    obtain ⟨r, v, hread, h⟩ := h
    have hlt := (reads_of_readlineFrom hread).2 (by decide)
    obtain ⟨-, rfl⟩ := Prod.mk.inj (Except.ok.inj h)
    exact hlt

/-- `readline` and the `while (nread == -1)` after it. -/
def readRequest (buf : CArray buffSize) : Http (CArray buffSize) := retry.loop buf

/-! ### What the loop makes of the answers -/

/-- A line that has arrived: the bytes the last call of `readline` stored, what was in the buffer
before that call, and the answers it left. -/
structure Arrival where
  line : List UInt8
  under : CArray buffSize
  rest : List ReadAnswer

/-- What arrives, `i` rounds into a call that has stored `acc` over `under`. -/
def requestLine : List ReadAnswer → ℕ → List UInt8 → CArray buffSize → Option Arrival
  | [], i, acc, under => if i = buffSize then some ⟨acc, under, []⟩ else none
  | a :: rest, i, acc, under =>
    if i = buffSize then some ⟨acc, under, a :: rest⟩
    else
      match a with
      | .byte c =>
        if c ≠ newline then requestLine rest (i + 1) (acc ++ [c]) under
        else if i = 0 then requestLine rest 0 [] (under.overlay [newline, 0])
        else some ⟨acc ++ [c], under, rest⟩
      | .eof =>
        if i = 0 then requestLine rest 0 [] (under.overlay [0]) else some ⟨acc, under, rest⟩
      | .err e =>
        if e = .eintr then requestLine rest (i + 1) acc under
        else requestLine rest 0 [] (under.overlay acc)

/-- What an arrival means for the loop, run on `w`: the line and its NUL are in the buffer, or the
NUL is stored past its end. -/
def outcome (w : Calls) : Option Arrival → Except (Stop Fault) (CArray buffSize × Calls)
  | none => .error .pending
  | some a =>
    if a.line.length < buffSize then
      .ok (a.under.overlay (a.line ++ [0]), { w with reads := a.rest })
    else .error (.fault (.index .buf buffSize))

/-- The caller goes on with what `readline` returned. -/
def resume (r : ℤ × CArray buffSize) : Http (CArray buffSize) :=
  if intOfSsize r.1 = -1 then readRequest r.2 else pure r.2

variable {i : ℕ} {acc : List UInt8} {under : CArray buffSize} {w : Calls}

/-- **The unfolding of the loop**: one call of `readline`, then the caller. -/
theorem readRequest_eq (buf : CArray buffSize) (w : Calls) :
    readRequest buf w = (readline buf buffSize >>= resume) w := by
  cases h : readline buf buffSize w with
  | error e => rw [bind_of_error h, readRequest, retry.loop_of_error (bind_of_error h)]
  | ok p =>
    have hrun : retry.run buf w = again p.1 p.2 := bind_of_ok h
    rw [bind_of_ok h, readRequest, resume]
    by_cases hr : intOfSsize p.1.1 = -1
    · rw [if_pos hr]
      refine retry.loop_of_inl (hrun.trans ?_)
      rw [again, if_pos hr, pure_run]
    · rw [if_neg hr]
      refine retry.loop_of_inr (hrun.trans ?_)
      rw [again, if_neg hr, pure_run]

/-- In the range of the loop counter the result is the counter minus one. -/
theorem intOfSsize_ssize (hi : i ≤ buffSize) : intOfSsize (ssize (i - 1)) = i - 1 := by
  have hi' : i ≤ 1024 := hi
  have hssize : ssize (i - 1) = i - 1 := Int.bmod_eq_of_le (by omega) (by omega)
  rw [hssize]
  exact Int.bmod_eq_of_le (by omega) (by omega)

theorem intOfSsize_ssize_ne (hi : i ≤ buffSize) (hpos : i ≠ 0) :
    intOfSsize (ssize (i - 1)) ≠ -1 := by
  rw [intOfSsize_ssize hi]
  omega

/-- The end of `readline` once the NUL is stored: a call that ends in its first round is repeated,
any other is the last. -/
theorem readlineEnd_of_store {cur : ℕ} {buf buf' : CArray buffSize} (hi : i ≤ buffSize)
    (h : buf.store (Fault.index .buf) cur 0 = .ok buf') :
    (readlineEnd i cur buf >>= resume) w = if i = 0 then readRequest buf' w else .ok (buf', w) := by
  have hend : readlineEnd i cur buf w = .ok ((ssize (i - 1), buf'), w) := by
    rw [readlineEnd, bind_of_ok (lift_of_ok h w), pure_run]
  rw [bind_of_ok hend, resume]
  dsimp only
  split
  next hr =>
    by_cases hzero : i = 0
    · rw [if_pos hzero]
    · exact absurd hr (intOfSsize_ssize_ne hi hzero)
  next hr =>
    by_cases hzero : i = 0
    · rw [hzero] at hr
      exact absurd rfl hr
    · rw [if_neg hzero, pure_run]

/-- The end of `readline` after the bytes of a call. -/
theorem readlineEnd_resume (h : acc.length < buffSize) (hi : i ≤ buffSize) :
    (readlineEnd i acc.length (under.overlay acc) >>= resume) w =
      if i = 0 then readRequest (under.overlay (acc ++ [0])) w
      else .ok (under.overlay (acc ++ [0]), w) :=
  readlineEnd_of_store hi (CArray.store_overlay h)

/-- The end of `readline` at the end of the stream, where the NUL is stored a second time. -/
theorem readlineEnd_rewrite (h : acc.length < buffSize) (hi : i ≤ buffSize) :
    (readlineEnd i acc.length (under.overlay (acc ++ [0])) >>= resume) w =
      if i = 0 then readRequest (under.overlay (acc ++ [0])) w
      else .ok (under.overlay (acc ++ [0]), w) :=
  readlineEnd_of_store hi (CArray.store_overlay_last h)

/-- The end of `readline` with the buffer full. -/
theorem readlineEnd_full {cur : ℕ} {buf : CArray buffSize} (h : buffSize ≤ cur) :
    (readlineEnd i cur buf >>= resume) w = .error (.fault (.index .buf cur)) := by
  refine bind_of_error ?_
  rw [readlineEnd]
  exact bind_of_error (lift_of_error (CArray.store_of_le h) w)

/-- The end of `readline` after the line it leaves. -/
theorem readlineEnd_outcome {line : List UInt8} (h : line.length ≤ buffSize) (hi : i ≤ buffSize)
    (hpos : i ≠ 0) {rest : List ReadAnswer} :
    (readlineEnd i line.length (under.overlay line) >>= resume) { w with reads := rest } =
      outcome w (some ⟨line, under, rest⟩) := by
  rw [outcome]
  dsimp only
  split
  next hlt => rw [readlineEnd_resume hlt hi, if_neg hpos]
  next hnlt =>
    rw [readlineEnd_full (not_lt.1 hnlt), le_antisymm h (not_lt.1 hnlt)]

theorem requestLine_full {answers : List ReadAnswer} :
    requestLine answers buffSize acc under = some ⟨acc, under, answers⟩ := by
  cases answers with
  | nil => rfl
  | cons a rest => cases a <;> rfl

/-- The rest of a call, from round `i` on, and the retries after it. The induction is on the
answers: a round takes one, and a call that is repeated starts over on what is in the buffer. -/
theorem readlineFrom_resume (w : Calls) : ∀ (answers : List ReadAnswer) {i : ℕ} {acc : List UInt8}
    {under : CArray buffSize}, acc.length ≤ i → i ≤ buffSize →
      (readlineFrom (buffSize - i) i acc.length (under.overlay acc) >>= resume)
          { w with reads := answers } =
        outcome w (requestLine answers i acc under) := by
  intro answers
  induction answers with
  | nil =>
    intro i acc under hacc hi
    rcases eq_or_lt_of_le hi with rfl | hlt
    · rw [requestLine_full, Nat.sub_self, readlineFrom]
      exact readlineEnd_outcome hacc (le_refl _) (by decide)
    · obtain ⟨left, hleft⟩ : ∃ left, buffSize - i = left + 1 := ⟨buffSize - i - 1, by omega⟩
      rw [requestLine, if_neg hlt.ne, hleft, readlineFrom, bind_assoc]
      exact bind_of_error (readByte_of_nil rfl)
  | cons a rest ih =>
    intro i acc under hacc hi
    rcases eq_or_lt_of_le hi with rfl | hlt
    · rw [requestLine_full, Nat.sub_self, readlineFrom]
      exact readlineEnd_outcome hacc (le_refl _) (by decide)
    · obtain ⟨left, hleft⟩ : ∃ left, buffSize - i = left + 1 := ⟨buffSize - i - 1, by omega⟩
      have hnext : left = buffSize - (i + 1) := by omega
      have hretry : ∀ v : CArray buffSize, readRequest v { w with reads := rest } =
          outcome w (requestLine rest 0 [] v) := by
        intro v
        rw [readRequest_eq, ← ih (le_refl 0) (Nat.zero_le _), CArray.overlay_nil]
        rfl
      rw [hleft, readlineFrom, bind_assoc, bind_of_ok (readByte_of_cons rfl)]
      cases a with
      | byte c =>
        have hlength : (acc ++ [c]).length = acc.length + 1 := by
          rw [List.length_append, List.length_singleton]
        have hstore : (under.overlay acc).store (Fault.index .buf) acc.length c =
            .ok (under.overlay (acc ++ [c])) := CArray.store_overlay (by omega)
        dsimp only
        rw [requestLine, if_neg hlt.ne, bind_assoc, bind_of_ok (lift_of_ok hstore _),
          ← hlength]
        by_cases hc : c = newline
        · rw [if_pos hc, if_neg (not_not.2 hc)]
          by_cases hzero : i = 0
          · obtain rfl : acc = [] := List.eq_nil_of_length_eq_zero (by omega)
            rw [if_pos hzero, readlineEnd_resume (by rw [hlength]; decide) hi, if_pos hzero, hretry,
              hc]
            rfl
          · rw [if_neg hzero]
            exact readlineEnd_outcome (by omega) hi hzero
        · rw [if_neg hc, if_pos hc, hnext]
          exact ih (by omega) hlt
      | eof =>
        have hroom : acc.length < buffSize := by omega
        have hstore : (under.overlay acc).store (Fault.index .buf) acc.length 0 =
            .ok (under.overlay (acc ++ [0])) := CArray.store_overlay hroom
        dsimp only
        rw [requestLine, if_neg hlt.ne, bind_assoc, bind_of_ok (lift_of_ok hstore _),
          readlineEnd_rewrite hroom hi]
        by_cases hzero : i = 0
        · obtain rfl : acc = [] := List.eq_nil_of_length_eq_zero (by omega)
          rw [if_pos hzero, if_pos hzero]
          exact hretry _
        · rw [if_neg hzero, if_neg hzero, outcome]
          exact (if_pos hroom).symm
      | err e =>
        dsimp only
        rw [requestLine, if_neg hlt.ne]
        by_cases he : e = .eintr
        · rw [if_pos he, if_pos he, hnext]
          exact ih (by omega) hlt
        · rw [if_neg he, if_neg he, bind_of_ok (pure_run _ _)]
          exact hretry _

/-- **What the retry loop leaves**: it waits exactly when no line arrives, and otherwise the line
that arrives and a NUL are in the buffer, or the NUL is stored past its end. -/
theorem readRequest_eq_outcome (buf : CArray buffSize) (w : Calls) :
    readRequest buf w = outcome w (requestLine w.reads 0 [] buf) := by
  rw [← readlineFrom_resume w w.reads (le_refl 0) (Nat.zero_le _), CArray.overlay_nil,
    readRequest_eq]
  rfl

/-- Bytes without a newline among them are stored one after the other. -/
theorem requestLine_of_text (under : CArray buffSize) (more : List ReadAnswer) :
    ∀ (text : List UInt8) {i : ℕ} (acc : List UInt8), newline ∉ text →
      i + text.length ≤ buffSize →
      requestLine (text.map .byte ++ more) i acc under =
        requestLine more (i + text.length) (acc ++ text) under
  | [], i, acc, _, _ => by
    rw [List.map_nil, List.nil_append, List.append_nil]
    rfl
  | c :: text, i, acc, hnl, hlength => by
    rw [List.mem_cons, not_or] at hnl
    rw [List.length_cons] at hlength
    rw [List.map_cons, List.cons_append, requestLine, if_neg (by omega), if_pos (Ne.symm hnl.1),
      requestLine_of_text under more text _ hnl.2 (by omega), List.append_assoc,
      List.singleton_append, List.length_cons, Nat.add_right_comm, Nat.add_assoc]

/-- A line that arrives without interruption arrives whole. -/
theorem requestLine_of_line (under : CArray buffSize) (more : List ReadAnswer) (text : List UInt8)
    {i : ℕ} (acc : List UInt8) (hnl : newline ∉ text) (hlength : i + text.length < buffSize)
    (hne : i ≠ 0 ∨ text ≠ []) :
    requestLine (text.map .byte ++ .byte newline :: more) i acc under =
      some ⟨acc ++ text ++ [newline], under, more⟩ := by
  have hround : i + text.length ≠ 0 := by
    rcases hne with hi | htext
    · omega
    · have hpos := List.length_pos_of_ne_nil htext
      omega
  rw [requestLine_of_text under _ text acc hnl hlength.le, requestLine, if_neg hlength.ne,
    if_neg (not_not.2 rfl), if_neg hround]

end PreforkHttpd
