import PreforkHttpd.Io.Readn

/-!
# When `http_Fgets_s` stores one line

`http_Fgets_s` of `utils/http_io.c` reads one byte at a time into the variable `c`, and stores `c`,
until it has stored a newline or the buffer is full. Two things go wrong in it.

* The result of `read` is a `size_t`, so that a failure is no failure: `c` is stored **once more**,
  whatever it was, and `-1` is never returned.
* The terminator goes behind what was stored, and when that fills the buffer, behind the buffer.

After `i` rounds that went round again, `i` bytes are stored and each of them is the `c` of its
round (`fgetsAt`). So of the bytes stored, all but as many as there were failures have come from the
stream, and `storesLine_iff` is exact: no failure comes before the end of the line, and the line,
with its terminator, fits.
-/

open Answered

namespace PreforkHttpd

/-- The size of a buffer, as a `size_t`. -/
abbrev BufferSize := { sz : ℕ // 0 < sz ∧ sz < 18446744073709551616 }

variable {n sz : ℕ} {stream : ℕ → UInt8} {returns : ℕ → ReadReturn}

/-! ### The code -/

/-- Where `http_Fgets_s` is: `ptr` is an offset from `buffer`. -/
structure FgetsCursor (n : ℕ) where
  ptr : ℕ
  nleft : ℤ
  c : UInt8
  buffer : CArray n

namespace FgetsCursor

/-- `*ptr = 0;` and the return of `ptr - buffer`. -/
def finish (s : FgetsCursor n) : Checked IoFault (FgetsCursor n ⊕ ℤ × CArray n) :=
  (s.buffer.store IoFault.index s.ptr 0).map fun buffer ↦ .inr (s.ptr, buffer)

/-- `*ptr++ = c; nleft--;` and the end of the round. -/
def push (s : FgetsCursor n) : Checked IoFault (FgetsCursor n ⊕ ℤ × CArray n) :=
  (s.buffer.store IoFault.index s.ptr s.c).bind fun buffer ↦
    let s' : FgetsCursor n :=
      { s with ptr := s.ptr + 1, nleft := sizeT (s.nleft - 1), buffer := buffer }
    if s.c = newline then s'.finish else .ok (.inl s')

/-- What `http_Fgets_s` does after a `read`. `read_cnt` is a `size_t`. -/
def after (s : FgetsCursor n) (a : RecvAnswer) :
    Checked IoFault (FgetsCursor n ⊕ ℤ × CArray n) :=
  let readCnt := sizeT a.value
  if readCnt < 0 then if a.errno = some .eintr then s.push else .ok (.inr (-1, s.buffer))
  else if readCnt = 0 then s.finish
  else s.push

/-- The round of the `while (nleft > 0)`. A `read` that gets nothing leaves `c` as it is. -/
def round (s : FgetsCursor n) : Code Input IoFault (FgetsCursor n ⊕ ℤ × CArray n) :=
  if 0 < s.nleft then do
    let a ← readStream 1
    liftM ({ s with c := a.data.headD s.c }.after a)
  else liftM s.finish

theorem finish_ne_inl {s s' : FgetsCursor n} : s.finish ≠ .ok (.inl s') := by
  rw [finish]
  rcases s.buffer.store IoFault.index s.ptr 0 with e | buffer <;> nofun

/-- The `while (nleft > 0)` of `http_Fgets_s`. -/
def loop (n : ℕ) :
    Round (fun w : Input ↦ w.returns.length) IoFault (FgetsCursor n) (ℤ × CArray n) where
  run := round
  size_lt {s w s' w'} h := by
    rw [round] at h
    split at h
    · rw [bind_eq_ok_iff] at h
      obtain ⟨a, v, hread, h⟩ := h
      obtain ⟨-, rfl⟩ := lift_eq_ok_iff.1 h
      exact returns_of_readStream hread
    · exact absurd (lift_eq_ok_iff.1 h).1 finish_ne_inl

end FgetsCursor

/-- `http_Fgets_s(fd, buffer, sz)`, where `c` is what the variable holds before it is set. -/
def httpFgetsS (c : UInt8) (buffer : CArray n) (sz : ℕ) : Code Input IoFault (ℤ × CArray n) :=
  (FgetsCursor.loop n).loop ⟨0, sz, c, buffer⟩

/-! ### A run on a schedule -/

/-- The variable `c` after `i` answers. -/
def charAt (stream : ℕ → UInt8) (returns : ℕ → ReadReturn) (c : UInt8) : ℕ → UInt8
  | 0 => c
  | i + 1 => (firstOf (fun j ↦ stream (bytesRead 1 returns i + j))
      ((returns i).amount 1)).headD (charAt stream returns c i)

/-- What `i` rounds have stored: each the `c` of its round. -/
def charsAt (stream : ℕ → UInt8) (returns : ℕ → ReadReturn) (c : UInt8) (i : ℕ) : List UInt8 :=
  firstOf (fun j ↦ charAt stream returns c (j + 1)) i

/-- `http_Fgets_s` after `i` answers that have taken it round again. -/
def fgetsAt (sz : ℕ) (stream : ℕ → UInt8) (returns : ℕ → ReadReturn) (c : UInt8)
    (buffer : CArray n) (i : ℕ) : FgetsCursor n where
  ptr := i
  nleft := (sz - i : ℕ)
  c := charAt stream returns c i
  buffer := CArray.overlay (charsAt stream returns c i) buffer

/-- What it is to return behind `i` bytes. -/
def fgetsResult (stream : ℕ → UInt8) (returns : ℕ → ReadReturn) (c : UInt8) (buffer : CArray sz)
    (i : ℕ) : ℤ × CArray sz :=
  (i, CArray.overlay (charsAt stream returns c i ++ [0]) buffer)

/-- What the next round comes to: the terminator goes behind what is stored. -/
def fgetsTurn (stream : ℕ → UInt8) (returns : ℕ → ReadReturn) (c : UInt8) (buffer : CArray sz)
    (i : ℕ) : Turn (ℤ × CArray sz) :=
  if sz ≤ i then .faults
  else if (returns i).value 1 = 0 then .last (fgetsResult stream returns c buffer i)
  else if charAt stream returns c (i + 1) ≠ newline then .again
  else if i + 1 < sz then .last (fgetsResult stream returns c buffer (i + 1))
  else .faults

section Run

variable {c : UInt8} {buffer : CArray sz} {i m : ℕ} {s : FgetsCursor sz}

@[simp] theorem length_charsAt (stream : ℕ → UInt8) (returns : ℕ → ReadReturn) (c : UInt8)
    (i : ℕ) : (charsAt stream returns c i).length = i := length_firstOf _ i

/-- The next byte goes behind the others. -/
theorem store_charsAt (b : UInt8) (hi : i < sz) :
    (CArray.overlay (charsAt stream returns c i) buffer).store IoFault.index i b =
      .ok (CArray.overlay (charsAt stream returns c i ++ [b]) buffer) := by
  have hlt : (charsAt stream returns c i).length < sz := by rwa [length_charsAt]
  have hstore : (CArray.overlay (charsAt stream returns c i) buffer).store IoFault.index
      (charsAt stream returns c i).length b = _ := CArray.store_overlay hlt
  rwa [length_charsAt] at hstore

/-- What is stored is a line, if the terminator has room, -/
theorem finish_fgetsAt (hi : i < sz) : (fgetsAt sz stream returns c buffer i).finish =
    .ok (.inr (fgetsResult stream returns c buffer i)) := by
  rw [FgetsCursor.finish, fgetsAt, store_charsAt 0 hi]
  rfl

/-- and else the terminator is stored behind the buffer. -/
theorem finish_of_le (h : sz ≤ s.ptr) : ∃ e, s.finish = .error e :=
  ⟨.fault (.index s.ptr), by rw [FgetsCursor.finish, CArray.store_of_le h]; rfl⟩

/-- **A byte is stored** behind the others. -/
theorem push_fgetsAt (sz : BufferSize) {buffer : CArray sz.1} (hi : i < sz.1) :
    ({ fgetsAt sz stream returns c buffer i with
        c := charAt stream returns c (i + 1) } : FgetsCursor sz.1).push =
      if charAt stream returns c (i + 1) = newline then
        (fgetsAt sz stream returns c buffer (i + 1)).finish
      else .ok (.inl (fgetsAt sz stream returns c buffer (i + 1))) := by
  have hnext : ({ ptr := i + 1, nleft := sizeT ((sz.1 - i : ℕ) - 1)
                  c := charAt stream returns c (i + 1)
                  buffer := CArray.overlay
                    (charsAt stream returns c i ++ [charAt stream returns c (i + 1)]) buffer } :
      FgetsCursor sz.1) = fgetsAt sz stream returns c buffer (i + 1) := by
    have hnleft : ((sz.1 - i : ℕ) : ℤ) - 1 = (sz.1 - (i + 1) : ℕ) := by omega
    rw [fgetsAt, hnleft, sizeT_of_lt (by omega) (by omega), charsAt, charsAt, firstOf_succ]
  rw [FgetsCursor.push, fgetsAt, store_charsAt _ hi]
  show (if _ then FgetsCursor.finish _ else Except.ok (Sum.inl _)) = _
  dsimp only
  rw [hnext]

/-- What a `read` of one byte leaves in `c`. -/
theorem headD_answer (stream : ℕ → UInt8) (returns : ℕ → ReadReturn) (c : UInt8) (i m : ℕ) :
    ((returns i).answer (Input.scheduled stream returns (bytesRead 1 returns i) i m) 1).data.headD
      (charAt stream returns c i) = charAt stream returns c (i + 1) := by
  rw [ReadReturn.data_answer, charAt]
  rfl

theorem nleft_fgetsAt_pos_iff :
    0 < (fgetsAt sz stream returns c buffer i).nleft ↔ i < sz := by
  show (0 : ℤ) < (sz - i : ℕ) ↔ _
  omega

/-- A round that waits for its `read`. -/
theorem round_of_nil (hi : i < sz) {w : Input} (hw : w.returns = []) :
    (fgetsAt sz stream returns c buffer i).round w = .error .pending := by
  rw [FgetsCursor.round, if_pos (nleft_fgetsAt_pos_iff.2 hi)]
  exact bind_of_error (readStream_of_nil hw)

/-- **A round of `http_Fgets_s`** on a schedule: the end of the stream, or one more byte. -/
theorem round_fgetsAt (sz : BufferSize) {buffer : CArray sz.1} (hi : i < sz.1) :
    (fgetsAt sz stream returns c buffer i).round
        (Input.scheduled stream returns (bytesRead 1 returns i) i (m + 1)) =
      (liftM (if (returns i).value 1 = 0 then (fgetsAt sz stream returns c buffer i).finish
          else if charAt stream returns c (i + 1) = newline then
            (fgetsAt sz stream returns c buffer (i + 1)).finish
          else .ok (.inl (fgetsAt sz stream returns c buffer (i + 1)))) : Code Input IoFault _)
        (Input.scheduled stream returns (bytesRead 1 returns (i + 1)) (i + 1) m) := by
  have hchar : (((returns i).answer (Input.scheduled stream returns (bytesRead 1 returns i) i
      (m + 1)) 1).data.headD (fgetsAt sz stream returns c buffer i).c) =
        charAt stream returns c (i + 1) := headD_answer stream returns c i (m + 1)
  rw [FgetsCursor.round, if_pos (nleft_fgetsAt_pos_iff.2 hi), bind_of_ok readStream_scheduled,
    hchar, FgetsCursor.after, push_fgetsAt sz hi]
  simp only [ReadReturn.value_answer, if_neg (not_sizeT_neg _),
    sizeT_value_eq_zero_iff ⟨1, by decide⟩]
  rfl

/-- When the buffer is full the loop is over, and the terminator is stored behind it. -/
theorem round_of_full (hfull : sz ≤ i) (w : Input) :
    ∃ e, (fgetsAt sz stream returns c buffer i).round w = .error e := by
  obtain ⟨e, he⟩ := finish_of_le (s := fgetsAt sz stream returns c buffer i) hfull
  refine ⟨e, ?_⟩
  rw [FgetsCursor.round, if_neg (mt nleft_fgetsAt_pos_iff.1 (Nat.not_lt.2 hfull)), he]
  rfl

/-- **`http_Fgets_s` on a schedule.** -/
theorem follows_httpFgetsS (sz : BufferSize) (stream : ℕ → UInt8) (returns : ℕ → ReadReturn)
    (c : UInt8) (buffer : CArray sz.1) :
    (FgetsCursor.loop sz.1).Follows (fgetsAt sz stream returns c buffer)
      (fun i m ↦ Input.scheduled stream returns (bytesRead 1 returns i) i m)
      (fgetsTurn stream returns c buffer) where
  leaves {i b} h m := by
    rw [fgetsTurn] at h
    split_ifs at h
  last {i b} h m := by
    rw [fgetsTurn] at h
    split_ifs at h with hfull heof hnl hlt
    · obtain rfl := Turn.last.inj h
      refine (round_fgetsAt sz (Nat.lt_of_not_le hfull)).trans ?_
      rw [if_pos heof, finish_fgetsAt (Nat.lt_of_not_le hfull)]
      rfl
    · obtain rfl := Turn.last.inj h
      refine (round_fgetsAt sz (Nat.lt_of_not_le hfull)).trans ?_
      rw [if_neg heof, if_pos (not_not.1 hnl), finish_fgetsAt hlt]
      rfl
  again {i} h m := by
    rw [fgetsTurn] at h
    split_ifs at h with hfull heof hnl hlt
    refine (round_fgetsAt sz (Nat.lt_of_not_le hfull)).trans ?_
    rw [if_neg heof, if_neg hnl]
    rfl
  faults {i} h m := by
    rw [fgetsTurn] at h
    split_ifs at h with hfull heof hnl hlt
    · exact round_of_full hfull _
    · match m with
      | 0 => exact ⟨_, round_of_nil (Nat.lt_of_not_le hfull) rfl⟩
      | m + 1 =>
        obtain ⟨e, he⟩ := finish_of_le (s := fgetsAt sz stream returns c buffer (i + 1))
          (Nat.le_of_not_lt hlt)
        refine ⟨e, (round_fgetsAt sz (Nat.lt_of_not_le hfull)).trans ?_⟩
        rw [if_neg heof, if_pos (not_not.1 hnl), he]
        rfl
  waits {i} h := by
    rcases Nat.lt_or_ge i sz with hi | hfull
    · exact ⟨_, round_of_nil hi rfl⟩
    · exact round_of_full hfull _

end Run

/-! ### What it is to do -/

/-- **A line is stored**: the result is how many bytes have come from the stream, they stand at the
start of the buffer with a terminator behind them, and only the last of them may be a newline. They
end with one, or at the end of the stream, or there is no more room. -/
structure LineStored (stream : ℕ → UInt8) (pos : ℕ) (ended : Prop) (r : ℤ)
    (buffer : CArray sz) : Prop where
  result : r = pos
  stored : buffer.bytes.take pos = firstOf stream pos
  terminated : buffer.bytes[pos]? = some 0
  newline_last : ∀ i, i + 1 < pos → stream i ≠ newline
  whole : ended ∨ (∃ i, i + 1 = pos ∧ stream i = newline) ∨ pos + 1 = sz

/-- **`http_Fgets_s` stores one line**: it returns, without a store outside the buffer. A failure
other than `EINTR` gives `-1`, and otherwise a line is stored. -/
def StoresLine (stream : ℕ → UInt8) (returns : ℕ → ReadReturn) (c : UInt8)
    (buffer : CArray sz) : Prop :=
  ∃ k r buffer' w' used,
    httpFgetsS c buffer sz (Input.start stream (firstOf returns k)) = .ok ((r, buffer'), w') ∧
      firstOf returns k = used ++ w'.returns ∧
      ((∃ e ≠ .eintr, .err e ∈ used) → r = -1) ∧
      ((∀ e ≠ .eintr, .err e ∉ used) → LineStored stream w'.pos (.count 0 ∈ used) r buffer')

/-- An answer that gets a byte. -/
def ReadReturn.Gets (a : ReadReturn) : Prop := ∃ n, 0 < n ∧ a = .count n

/-- The first `k` answers are a byte each, none of them a newline; then comes the end of the stream,
or a newline that leaves room for the terminator. -/
def LineFits (sz : ℕ) (stream : ℕ → UInt8) (returns : ℕ → ReadReturn) (k : ℕ) : Prop :=
  (∀ i < k, (returns i).Gets ∧ stream i ≠ newline) ∧
    (k < sz ∧ returns k = .count 0 ∨ k + 1 < sz ∧ (returns k).Gets ∧ stream k = newline)

/-! ### Bytes and failures -/

theorem ReadReturn.gets_iff {a : ReadReturn} : a.Gets ↔ a.value 1 ≠ 0 ∧ ∀ e, a ≠ .err e := by
  constructor
  · rintro ⟨n, hn, rfl⟩
    refine ⟨?_, fun e he ↦ by cases he⟩
    rw [value]
    omega
  · rintro ⟨hvalue, hsound⟩
    rcases a with n | e
    · rw [value] at hvalue
      exact ⟨n, by omega, rfl⟩
    · exact absurd rfl (hsound e)

theorem ReadReturn.Gets.amount_eq {a : ReadReturn} (h : a.Gets) : a.amount 1 = 1 := by
  obtain ⟨n, hn, rfl⟩ := h
  exact Nat.min_eq_right hn

section Count

variable {c : UInt8} {i : ℕ}

theorem readFailures_eq_zero_iff :
    readFailures returns i = 0 ↔ ∀ j < i, ∀ e, returns j ≠ .err e := by
  induction i with
  | zero => exact iff_of_true rfl fun j hj ↦ absurd hj (Nat.not_lt_zero j)
  | succ i ih =>
    rw [readFailures, Nat.add_eq_zero_iff, ih, Nat.forall_lt_succ_right]
    refine and_congr_right fun _ ↦ ?_
    rcases returns i with k | e
    · exact iff_of_true rfl fun e he ↦ by cases he
    · exact iff_of_false Nat.one_ne_zero fun h ↦ h e rfl

/-- **What was stored** was read, or there was a failure. -/
theorem bytesRead_add_readFailures (h : ∀ j < i, (returns j).value 1 ≠ 0) :
    bytesRead 1 returns i + readFailures returns i = i := by
  induction i with
  | zero => rfl
  | succ i ih =>
    have hi := h i (Nat.lt_succ_self i)
    have hbefore := ih fun j hj ↦ h j (Nat.lt_succ_of_lt hj)
    rw [bytesRead, readFailures]
    rcases hreturn : returns i with k | e <;> rw [hreturn, ReadReturn.value] at hi
    · simp only [ReadReturn.amount]
      omega
    · simp only [ReadReturn.amount]
      omega

/-- When as many bytes were read as were stored, there was none. -/
theorem gets_of_bytesRead (h : ∀ j < i, (returns j).value 1 ≠ 0)
    (hcount : bytesRead 1 returns i = i) : ∀ j < i, (returns j).Gets := by
  intro j hj
  have hsum := bytesRead_add_readFailures h
  have hnone : readFailures returns i = 0 := by omega
  exact ReadReturn.gets_iff.2 ⟨h j hj, readFailures_eq_zero_iff.1 hnone j hj⟩

theorem bytesRead_of_gets (h : ∀ j < i, (returns j).Gets) : bytesRead 1 returns i = i := by
  induction i with
  | zero => rfl
  | succ i ih =>
    rw [bytesRead, (h i (Nat.lt_succ_self i)).amount_eq,
      ih fun j hj ↦ h j (Nat.lt_succ_of_lt hj)]

/-- As long as each answer gets a byte, `c` is that byte, -/
theorem charAt_of_gets (h : ∀ j ≤ i, (returns j).Gets) :
    charAt stream returns c (i + 1) = stream i := by
  rw [charAt, bytesRead_of_gets fun j hj ↦ h j hj.le, (h i (Nat.le_refl i)).amount_eq]
  rfl

/-- and the stream is what is stored. -/
theorem charsAt_of_gets (h : ∀ j < i, (returns j).Gets) :
    charsAt stream returns c i = firstOf stream i :=
  firstOf_congr fun _ hj ↦ charAt_of_gets fun j' hj' ↦ h j' (hj'.trans_lt hj)

end Count

/-! ### When it does -/

section Exact

variable {c : UInt8} {i k u : ℕ}

theorem httpFgetsS_start (sz : BufferSize) (stream : ℕ → UInt8) (returns : ℕ → ReadReturn)
    (c : UInt8) (buffer : CArray sz.1) (k : ℕ) :
    httpFgetsS c buffer sz (Input.start stream (firstOf returns k)) =
      (FgetsCursor.loop sz.1).loop (fgetsAt sz stream returns c buffer 0)
        (Input.scheduled stream returns (bytesRead 1 returns 0) 0 k) := by
  have hzero : fgetsAt sz stream returns c buffer 0 = ⟨0, sz.1, c, buffer⟩ :=
    congrArg (FgetsCursor.mk _ _ _) (CArray.overlay_nil buffer)
  rw [hzero, httpFgetsS, ← Input.scheduled_zero]
  rfl

theorem fgetsTurn_eq_again_iff {buffer : CArray sz} :
    fgetsTurn stream returns c buffer i = .again ↔
      i < sz ∧ (returns i).value 1 ≠ 0 ∧ charAt stream returns c (i + 1) ≠ newline := by
  rw [fgetsTurn]
  split_ifs with hfull heof hnl hlt <;> simp_all

/-- **How the loop ends**: at the end of the stream, or behind a newline. -/
theorem ends_fgetsTurn_cases {buffer : CArray sz} {b : ℤ × CArray sz}
    (h : Ends (fgetsTurn stream returns c buffer) i u b) :
    u = i + 1 ∧ (i < sz ∧ (returns i).value 1 = 0 ∧ b = fgetsResult stream returns c buffer i ∨
      i + 1 < sz ∧ (returns i).value 1 ≠ 0 ∧ charAt stream returns c (i + 1) = newline ∧
        b = fgetsResult stream returns c buffer (i + 1)) := by
  have hleaving := h.leaving
  rw [fgetsTurn] at hleaving
  split_ifs at hleaving with hfull heof hnl hlt <;> simp_all

/-- Where the loop ends behind bytes of the stream alone, a line is stored. -/
theorem storesLine_of_ends {sz : BufferSize} {buffer : CArray sz.1} (hk : k < sz.1)
    (hends : Ends (fgetsTurn stream returns c buffer) i u (fgetsResult stream returns c buffer k))
    (hgets : ∀ j < k, (returns j).Gets) (hpos : bytesRead 1 returns u = k)
    (hclean : ∀ e, .err e ∉ firstOf returns u) (hnl : ∀ j, j + 1 < k → stream j ≠ newline)
    (hwhole : .count 0 ∈ firstOf returns u ∨ ∃ j, j + 1 = k ∧ stream j = newline) :
    StoresLine stream returns c buffer := by
  have hrun := (follows_httpFgetsS sz stream returns c buffer).loop_of_ends hends 0
  refine ⟨_, _, _, _, firstOf returns u, (httpFgetsS_start sz stream returns c buffer _).trans hrun,
    (List.append_nil _).symm, fun ⟨e, _, he⟩ ↦ absurd he (hclean e), fun _ ↦ ?_⟩
  have hlength : (charsAt stream returns c k ++ [0]).length ≤ sz.1 := by
    rw [List.length_append, length_charsAt]
    exact hk
  have hbytes := CArray.bytes_overlay buffer hlength
  show LineStored stream (bytesRead 1 returns u) _ _ _
  rw [hpos]
  refine ⟨rfl, ?_, ?_, hnl, hwhole.imp_right Or.inl⟩
  · rw [hbytes, List.append_assoc, List.take_left' (length_charsAt stream returns c k),
      charsAt_of_gets hgets]
  · rw [hbytes, List.append_assoc, List.getElem?_append_right (length_charsAt _ _ _ _).le,
      length_charsAt, Nat.sub_self]
    rfl

/-- **A line that fits** is stored. -/
theorem LineFits.storesLine {sz : BufferSize} (h : LineFits sz stream returns k) (c : UInt8)
    (buffer : CArray sz.1) : StoresLine stream returns c buffer := by
  obtain ⟨hplain, hend⟩ := h
  have hgets : ∀ j < k, (returns j).Gets := fun j hj ↦ (hplain j hj).1
  have hk : k < sz.1 := by
    rcases hend with ⟨hk, -⟩ | ⟨hk, -⟩ <;> omega
  have hagain : ∀ j < k, fgetsTurn stream returns c buffer j = .again := by
    intro j hj
    refine fgetsTurn_eq_again_iff.2 ⟨hj.trans hk, (ReadReturn.gets_iff.1 (hgets j hj)).1, ?_⟩
    rw [charAt_of_gets fun j' hj' ↦ hgets j' (hj'.trans_lt hj)]
    exact (hplain j hj).2
  have hbefore : bytesRead 1 returns k = k := bytesRead_of_gets hgets
  have hlast : ∀ e, returns k ≠ .err e := by
    rcases hend with ⟨-, heof⟩ | ⟨-, hget, -⟩
    · rw [heof]
      nofun
    · exact (ReadReturn.gets_iff.1 hget).2
  have hall : ∀ j < k + 1, ∀ e, returns j ≠ .err e :=
    Nat.forall_lt_succ_right.2 ⟨fun j hj ↦ (ReadReturn.gets_iff.1 (hgets j hj)).2, hlast⟩
  have hclean : ∀ e, .err e ∉ firstOf returns (k + 1) := by
    rintro e he
    obtain ⟨j, hj, hreturn⟩ := (mem_firstOf returns).1 he
    exact hall j hj e hreturn
  rcases hend with ⟨-, heof⟩ | ⟨hroom, hget, hnl⟩
  · have hturn : fgetsTurn stream returns c buffer k = .last _ :=
      (if_neg (Nat.not_le.2 hk)).trans (if_pos (by rw [heof]; rfl))
    refine storesLine_of_ends hk (ends_of_last hagain hturn) hgets ?_ hclean
      (fun j hj ↦ (hplain j (Nat.lt_of_succ_lt hj)).2) (Or.inl ?_)
    · rw [bytesRead, hbefore, heof]
      rfl
    · exact (mem_firstOf returns).2 ⟨k, Nat.lt_succ_self k, heof⟩
  · have hall : ∀ j < k + 1, (returns j).Gets := Nat.forall_lt_succ_right.2 ⟨hgets, hget⟩
    have hchar : charAt stream returns c (k + 1) = newline :=
      (charAt_of_gets fun j hj ↦ hall j (Nat.lt_succ_of_le hj)).trans hnl
    have hturn : fgetsTurn stream returns c buffer k = .last _ :=
      ((if_neg (Nat.not_le.2 hk)).trans (if_neg (ReadReturn.gets_iff.1 hget).1)).trans
        ((if_neg (not_not.2 hchar)).trans (if_pos hroom))
    exact storesLine_of_ends hroom (ends_of_last hagain hturn) hall (bytesRead_of_gets hall) hclean
      (fun j hj ↦ (hplain j (Nat.lt_of_succ_lt_succ hj)).2) (Or.inr ⟨k, rfl, hnl⟩)

/-- **A line that is stored** fits: every `c` of it was read. -/
theorem StoresLine.exists_lineFits (sz : BufferSize) {buffer : CArray sz.1}
    (h : StoresLine stream returns c buffer) : ∃ k, LineFits sz stream returns k := by
  obtain ⟨k, r, buffer', w', used, hrun, hused, hfailed, hline⟩ := h
  rw [httpFgetsS_start] at hrun
  obtain ⟨i, u, m, hends, rfl, rfl⟩ :=
    (follows_httpFgetsS sz stream returns c buffer).loop_eq_ok_iff.1 hrun
  obtain rfl := eq_firstOf_of_append returns hused
  obtain ⟨rfl, hcases⟩ := ends_fgetsTurn_cases hends
  have hagain : ∀ j < i, (returns j).value 1 ≠ 0 ∧ charAt stream returns c (j + 1) ≠ newline :=
    fun j hj ↦ (fgetsTurn_eq_again_iff.1 (hends.again j hj)).2
  -- the result is not negative, and so there was no failure other than `EINTR`
  have hr : r = bytesRead 1 returns (i + 1) := by
    refine (hline fun e he hmem ↦ ?_).result
    have hneg := hfailed ⟨e, he, hmem⟩
    rcases hcases with ⟨-, -, hb⟩ | ⟨-, -, -, hb⟩ <;>
      obtain ⟨rfl, -⟩ := Prod.mk.inj hb <;> omega
  rcases hcases with ⟨hi, hvalue, hb⟩ | ⟨hi, hvalue, hnl, hb⟩
  · have heof : returns i = .count 0 := ReadReturn.eq_of_value_eq_zero Nat.one_pos hvalue
    obtain ⟨rfl, -⟩ := Prod.mk.inj hb
    rw [bytesRead, heof, Int.natCast_inj] at hr
    have hgets := gets_of_bytesRead (fun j hj ↦ (hagain j hj).1) hr.symm
    have hchar : ∀ j < i, charAt stream returns c (j + 1) = stream j := fun j hj ↦
      charAt_of_gets fun j' hj' ↦ hgets j' (hj'.trans_lt hj)
    exact ⟨i, fun j hj ↦ ⟨hgets j hj, hchar j hj ▸ (hagain j hj).2⟩, Or.inl ⟨hi, heof⟩⟩
  · obtain ⟨rfl, -⟩ := Prod.mk.inj hb
    rw [Int.natCast_inj] at hr
    have hgets : ∀ j < i + 1, (returns j).Gets :=
      gets_of_bytesRead (Nat.forall_lt_succ_right.2 ⟨fun j hj ↦ (hagain j hj).1, hvalue⟩) hr.symm
    have hchar : ∀ j ≤ i, charAt stream returns c (j + 1) = stream j := fun j hj ↦
      charAt_of_gets fun j' hj' ↦ hgets j' (Nat.lt_succ_of_le (hj'.trans hj))
    refine ⟨i, fun j hj ↦ ⟨hgets j (Nat.lt_succ_of_lt hj), ?_⟩,
      Or.inr ⟨hi, hgets i (Nat.lt_succ_self i), hchar i (Nat.le_refl i) ▸ hnl⟩⟩
    exact hchar j hj.le ▸ (hagain j hj).2

end Exact

/-- **When `http_Fgets_s` stores one line.** For every stream, every size from one on, every buffer
of that size, whatever the variable `c` holds at first, and every schedule of answers: exactly when
the answers are bytes up to a newline, or up to the end of the stream, and what they bring fits into
the buffer together with the terminator. -/
theorem storesLine_iff (sz : BufferSize) (stream : ℕ → UInt8) (returns : ℕ → ReadReturn)
    (c : UInt8) (buffer : CArray sz.1) :
    StoresLine stream returns c buffer ↔ ∃ k, LineFits sz stream returns k :=
  ⟨StoresLine.exists_lineFits sz, fun ⟨_, hfits⟩ ↦ hfits.storesLine c buffer⟩

/-- The first `read` fails, and the next one meets the end of the stream. -/
def failsThenEnds (i : ℕ) : ReadReturn := if i = 0 then .err .eagain else .count 0

/-- The failure stores what the variable `c` happens to hold, and the result is one. -/
theorem not_storesLine_failsThenEnds :
    (httpFgetsS 7 (CArray.fill 4 2) 4
        (Input.start (fun _ ↦ newline) (firstOf failsThenEnds 2))).map
        (fun p ↦ (p.1.1, p.1.2.bytes)) = .ok (1, [7, 0, 2, 2]) ∧
      ¬ StoresLine (fun _ ↦ newline) failsThenEnds 7 (CArray.fill 4 2) := by
  refine ⟨rfl, fun h ↦ ?_⟩
  obtain ⟨k, hplain, hend⟩ := StoresLine.exists_lineFits ⟨4, by decide⟩ h
  have hnone : ¬ (failsThenEnds 0).Gets := fun ⟨n, _, hn⟩ ↦ by cases hn
  rcases Nat.eq_zero_or_pos k with rfl | hk
  · rcases hend with ⟨-, heof⟩ | ⟨-, hget, -⟩
    · cases heof
    · exact hnone hget
  · exact hnone (hplain 0 hk).1

end PreforkHttpd
