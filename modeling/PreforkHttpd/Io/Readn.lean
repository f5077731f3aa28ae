import Mathlib.Data.Nat.ModEq
import PreforkHttpd.Io.ReadPrefix

/-!
# When `http_Readn` reads the prefix

`http_Readn` of `utils/http_io.c` has the purpose of `Read_s`, and goes on after `EINTR`. It
advances a pointer that it does not use: **each `read` stores at the start of the buffer**, and asks
for the whole length again. And its result is unsigned, so that a failure is no failure for it: it
counts as a `read` of `-1` bytes, whatever `errno` says.

`follows_httpReadn` is its run on a schedule. After `i` answers `nleft` is the length less the bytes
and plus the failures, modulo `2 ^ 64`, and the buffer has been stored into from its start again and
again. `readsExactly_iff` says when that is the prefix all the same: the bytes have come by one
`read`, and the failures are not more than these, or bytes and failures cancel and the result is
zero. For any other schedule there is a stream that shows the difference.
-/

open Answered

namespace PreforkHttpd

variable {n len : ℕ} {stream : ℕ → UInt8} {returns : ℕ → ReadReturn}

/-! ### The code -/

/-- Where `http_Readn` is: `ptr` is an offset from `buffer`. -/
structure ReadnCursor (n : ℕ) where
  nleft : ℤ
  ptr : ℤ
  buffer : CArray n

namespace ReadnCursor

/-- `nleft -= nread; ptr += nread;` -/
def advance (s : ReadnCursor n) (nread : ℤ) : ReadnCursor n :=
  { s with nleft := sizeT (s.nleft - nread), ptr := s.ptr + ssize nread }

/-- What `http_Readn` does after a `read`: go on, or return. -/
def after (len : ℕ) (s : ReadnCursor n) (a : RecvAnswer) : ReadnCursor n ⊕ ℤ × CArray n :=
  let nread := sizeT a.value
  if nread < 0 then
    -- never, for `nread` is a `size_t`
    if a.errno = some .eintr then .inl (s.advance 0) else .inr (ssize (len - s.nleft), s.buffer)
  else if nread = 0 then .inr (ssize (len - s.nleft), s.buffer)
  else .inl (s.advance nread)

/-- The round of the `while (nleft > 0)` of `http_Readn`. -/
def round (len : ℕ) (s : ReadnCursor n) :
    Code Input IoFault (ReadnCursor n ⊕ ℤ × CArray n) :=
  if 0 < s.nleft then do
    let p ← readInto s.buffer 0 len
    pure ({ s with buffer := p.2 }.after len p.1)
  else pure (.inr (ssize (len - s.nleft), s.buffer))

/-- The `while (nleft > 0)` of `http_Readn`. -/
def loop (n len : ℕ) :
    Round (fun w : Input ↦ w.returns.length) IoFault (ReadnCursor n) (ℤ × CArray n) where
  run := round len
  size_lt {s w s' w'} h := by
    rw [round] at h
    split at h
    · rw [bind_eq_ok_iff] at h
      obtain ⟨p, v, hread, h⟩ := h
      obtain ⟨-, rfl⟩ := Prod.mk.inj (Except.ok.inj h)
      exact returns_of_readInto hread
    · cases h

end ReadnCursor

/-- `http_Readn(fd, buffer, len)`: the value returned, and the buffer. -/
def httpReadn (buffer : CArray n) (len : ℕ) : Code Input IoFault (ℤ × CArray n) :=
  (ReadnCursor.loop n len).loop ⟨sizeT len, 0, buffer⟩

/-! ### What the answers come to -/

/-- How many bytes the first `i` answers are, each to a `read` of up to `len` bytes. -/
def bytesRead (len : ℕ) (returns : ℕ → ReadReturn) : ℕ → ℕ
  | 0 => 0
  | i + 1 => bytesRead len returns i + (returns i).amount len

/-- How many of the first `i` answers are failures. -/
def readFailures (returns : ℕ → ReadReturn) : ℕ → ℕ
  | 0 => 0
  | i + 1 => readFailures returns i + match returns i with
    | .count _ => 0
    | .err _ => 1

/-- Bytes less failures are what the calls have returned, all in all. -/
theorem bytesRead_sub_readFailures (len : ℕ) (returns : ℕ → ReadReturn) (i : ℕ) :
    (bytesRead len returns (i + 1) : ℤ) - readFailures returns (i + 1) =
      bytesRead len returns i - readFailures returns i + (returns i).value len := by
  rw [bytesRead, readFailures]
  rcases returns i with k | e
  · simp only [ReadReturn.amount, ReadReturn.value]
    omega
  · simp only [ReadReturn.amount, ReadReturn.value]
    omega

/-- What `nleft` is after `i` answers. -/
def readnLeft (len : ℕ) (returns : ℕ → ReadReturn) (i : ℕ) : ℤ :=
  sizeT (len + readFailures returns i - bytesRead len returns i)

/-- The buffer after `i` answers: what each of them brings is stored at its start. -/
def readnBuffer (len : ℕ) (stream : ℕ → UInt8) (returns : ℕ → ReadReturn) (buffer : CArray n) :
    ℕ → CArray n
  | 0 => buffer
  | i + 1 => CArray.overlay
      (firstOf (fun j ↦ stream (bytesRead len returns i + j)) ((returns i).amount len))
      (readnBuffer len stream returns buffer i)

/-- `http_Readn` after `i` answers. -/
def readnAt (len : ℕ) (stream : ℕ → UInt8) (returns : ℕ → ReadReturn) (buffer : CArray n)
    (i : ℕ) : ReadnCursor n where
  nleft := readnLeft len returns i
  ptr := bytesRead len returns i - readFailures returns i
  buffer := readnBuffer len stream returns buffer i

/-- What its next round comes to. -/
def readnTurn (len : ℕ) (stream : ℕ → UInt8) (returns : ℕ → ReadReturn) (buffer : CArray n)
    (i : ℕ) : Turn (ℤ × CArray n) :=
  let result : ℤ × CArray n :=
    (ssize (bytesRead len returns i - readFailures returns i),
      readnBuffer len stream returns buffer i)
  if readnLeft len returns i = 0 then .leaves result
  else if (returns i).value len = 0 then .last result else .again

section Run

variable {buffer : CArray n} {i m : ℕ}

/-- What is returned. -/
theorem ssize_sub_readnLeft (len : ℕ) (returns : ℕ → ReadReturn) (i : ℕ) :
    ssize (len - readnLeft len returns i) =
      ssize (bytesRead len returns i - readFailures returns i) := by
  rw [readnLeft, ssize_sub_sizeT]
  congr 1
  omega

/-- What a `read` returns is kept by its conversion to a `size_t` and back. -/
theorem ssize_sizeT_value (len : Size) (a : ReadReturn) :
    ssize (sizeT (a.value len)) = a.value len := by
  have hamount := a.amount_le len
  rw [ssize_sizeT]
  obtain ⟨k, -, hvalue⟩ | ⟨e, -, hvalue⟩ := a.value_cases len
  · exact ssize_of_lt (by omega) (by omega)
  · exact ssize_of_lt (by omega) (by omega)

theorem sizeT_value_eq_zero_iff (len : Size) (a : ReadReturn) :
    sizeT (a.value len) = 0 ↔ a.value len = 0 := by
  refine ⟨fun h ↦ ?_, fun h ↦ by rw [h]; rfl⟩
  rw [← ssize_sizeT_value len a, h]
  rfl

/-- **What `http_Readn` makes of an answer**: any but zero takes it round again. -/
theorem after_readnAt (len : Size) (w : Input) (v : CArray n) :
    ({ readnAt len stream returns buffer i with buffer := v } : ReadnCursor n).after len
        ((returns i).answer w len) =
      if (returns i).value len = 0 then
        .inr (ssize (bytesRead len returns i - readFailures returns i), v)
      else .inl { readnAt len stream returns buffer (i + 1) with buffer := v } := by
  have hnleft : sizeT (readnLeft len returns i - sizeT ((returns i).value len)) =
      readnLeft len returns (i + 1) := by
    have hstep := bytesRead_sub_readFailures len returns i
    rw [readnLeft, sizeT_sub_sizeT, readnLeft]
    congr 1
    omega
  rw [ReadnCursor.after]
  simp only [ReadReturn.value_answer, if_neg (not_sizeT_neg _), sizeT_value_eq_zero_iff, readnAt,
    ssize_sub_readnLeft, ReadnCursor.advance, hnleft, ssize_sizeT_value,
    bytesRead_sub_readFailures]

theorem nleft_readnAt_pos_iff :
    0 < (readnAt len stream returns buffer i).nleft ↔ readnLeft len returns i ≠ 0 :=
  sizeT_pos_iff

/-- A round of `http_Readn` on a schedule. -/
theorem round_readnAt (len : Size) (buffer : CArray len.1) (hleft : readnLeft len returns i ≠ 0) :
    ReadnCursor.round len (readnAt len stream returns buffer i)
        (Input.scheduled stream returns (bytesRead len returns i) i (m + 1)) =
      .ok (if (returns i).value len = 0 then
          .inr (ssize (bytesRead len returns i - readFailures returns i),
            readnBuffer len stream returns buffer (i + 1))
        else .inl (readnAt len stream returns buffer (i + 1)),
        Input.scheduled stream returns (bytesRead len returns (i + 1)) (i + 1) m) := by
  have hfit : (returns i).amount len ≤ len := (returns i).amount_le len
  rw [ReadnCursor.round, if_pos (nleft_readnAt_pos_iff.2 hleft), readnAt,
    bind_of_ok (readInto_zero _ hfit)]
  exact congrArg (fun x ↦ Except.ok (x, _)) (after_readnAt len _ _)

/-- **`http_Readn` on a schedule.** -/
theorem follows_httpReadn (len : Size) (stream : ℕ → UInt8) (returns : ℕ → ReadReturn)
    (buffer : CArray len.1) :
    (ReadnCursor.loop len.1 len).Follows (readnAt len stream returns buffer)
      (fun i m ↦ Input.scheduled stream returns (bytesRead len returns i) i m)
      (readnTurn len stream returns buffer) where
  leaves {i b} h m := by
    rw [readnTurn] at h
    split_ifs at h with hleft
    obtain rfl := Turn.leaves.inj h
    show ReadnCursor.round len (readnAt len stream returns buffer i) _ = _
    rw [ReadnCursor.round, if_neg (mt nleft_readnAt_pos_iff.1 (not_not.2 hleft)),
      readnAt, ssize_sub_readnLeft]
    rfl
  last {i b} h m := by
    rw [readnTurn] at h
    split_ifs at h with hleft hzero
    obtain rfl := Turn.last.inj h
    have hamount : (returns i).amount len = 0 := by
      obtain ⟨k, -, hvalue⟩ | ⟨e, -, hvalue⟩ := (returns i).value_cases len <;> omega
    refine (round_readnAt len buffer hleft).trans ?_
    rw [if_pos hzero, readnBuffer, hamount]
    exact congrArg (fun v ↦ Except.ok (Sum.inr (_, v), _)) (CArray.overlay_nil _)
  again {i} h m := by
    rw [readnTurn] at h
    split_ifs at h with hleft hzero
    refine (round_readnAt len buffer hleft).trans ?_
    rw [if_neg hzero]
  faults {i} h m := by
    rw [readnTurn] at h
    split_ifs at h
  waits {i} h := by
    have hleft : readnLeft len returns i ≠ 0 := fun hleft ↦ h _ (if_pos hleft)
    refine ⟨.pending, ?_⟩
    show ReadnCursor.round len (readnAt len stream returns buffer i) _ = _
    rw [ReadnCursor.round, if_pos (nleft_readnAt_pos_iff.2 hleft)]
    exact bind_of_error (readInto_of_nil rfl)

end Run

/-! ### When it is the prefix -/

/-- **`http_Readn` reads the prefix**: it returns, without a store outside the buffer, and has
read the prefix unless the end of the stream or a failure other than `EINTR` was met. -/
def ReadsExactly (len : ℕ) (returns : ℕ → ReadReturn) (stream : ℕ → UInt8)
    (buffer : CArray len) : Prop :=
  ∃ k r buffer' w' used,
    httpReadn buffer len (Input.start stream (firstOf returns k)) = .ok ((r, buffer'), w') ∧
      firstOf returns k = used ++ w'.returns ∧
      ReadsPrefix stream (.count 0 ∈ used ∨ ∃ e ≠ .eintr, .err e ∈ used) r buffer'

/-- The loop stops at the `i`-th answer, if not before: nothing seems left, or the `read` returns
zero. -/
def StopsAt (len : ℕ) (returns : ℕ → ReadReturn) (i : ℕ) : Prop :=
  (18446744073709551616 : ℤ) ∣ len + readFailures returns i - bytesRead len returns i ∨
    (returns i).value len = 0

/-- The bytes read and the failures cancel, or one `read` brought all the bytes, and the failures
are no more than these; both modulo `2 ^ 64`. -/
def Harmless (len : ℕ) (returns : ℕ → ReadReturn) (i : ℕ) : Prop :=
  bytesRead len returns i ≡ readFailures returns i [MOD 18446744073709551616] ∨
    (∃ q < i, (returns q).amount len = bytesRead len returns i) ∧
      readFailures returns i % 18446744073709551616 ≤ bytesRead len returns i

instance (len : ℕ) (returns : ℕ → ReadReturn) (i : ℕ) : Decidable (StopsAt len returns i) :=
  inferInstanceAs (Decidable (_ ∨ _))

instance (len : ℕ) (returns : ℕ → ReadReturn) (i : ℕ) : Decidable (Harmless len returns i) :=
  inferInstanceAs (Decidable (_ ∨ _ ∧ _))

section Exact

variable {buffer : CArray len} {i : ℕ}

theorem readnLeft_eq_zero_iff : readnLeft len returns i = 0 ↔
    (18446744073709551616 : ℤ) ∣ len + readFailures returns i - bytesRead len returns i :=
  Int.dvd_iff_emod_eq_zero.symm

theorem readnTurn_eq_again_iff :
    readnTurn len stream returns buffer i = .again ↔ ¬ StopsAt len returns i := by
  rw [StopsAt, ← readnLeft_eq_zero_iff, not_or, readnTurn]
  split
  next hleft => simp [hleft]
  next hleft =>
    split
    next hzero => simp [hzero]
    next hzero => simp [hleft, hzero]

theorem httpReadn_start (len : Size) (returns : ℕ → ReadReturn) (stream : ℕ → UInt8)
    (buffer : CArray n) (k : ℕ) :
    httpReadn buffer len (Input.start stream (firstOf returns k)) =
      (ReadnCursor.loop n len).loop (readnAt len stream returns buffer 0)
        (Input.scheduled stream returns (bytesRead len returns 0) 0 k) := by
  have hzero : readnAt len stream returns buffer 0 = ⟨sizeT len, 0, buffer⟩ := by
    simp [readnAt, readnLeft, bytesRead, readFailures, readnBuffer]
  rw [hzero, httpReadn, ← Input.scheduled_zero]
  rfl

/-- What the loop leaves with. -/
theorem eq_of_ends_readnTurn {u : ℕ} {b : ℤ × CArray len}
    (h : Ends (readnTurn len stream returns buffer) i u b) :
    StopsAt len returns i ∧ b = (ssize (bytesRead len returns i - readFailures returns i),
      readnBuffer len stream returns buffer i) := by
  refine ⟨not_not.1 (mt readnTurn_eq_again_iff.2 h.not_again), ?_⟩
  have hleaving := h.leaving
  rw [readnTurn] at hleaving
  split_ifs at hleaving <;> simp_all

theorem readnLeft_zero (len : Size) (returns : ℕ → ReadReturn) : readnLeft len returns 0 = len := by
  rw [readnLeft, sizeT_of_lt] <;> simp only [readFailures, bytesRead] <;> omega

/-- Where the loop stops, it comes to its end; and it has met the end of the stream when something
is left. -/
theorem exists_ends_readnTurn (len : Size) {buffer : CArray len.1}
    (hagain : ∀ j < i, ¬ StopsAt len returns j) (hstop : StopsAt len returns i) :
    ∃ u b, Ends (readnTurn len stream returns buffer) i u b ∧
      (ssize (bytesRead len returns i - readFailures returns i) < len →
        .count 0 ∈ firstOf returns u) := by
  have hturn : ∀ j < i, readnTurn len stream returns buffer j = .again := fun j hj ↦
    readnTurn_eq_again_iff.2 (hagain j hj)
  rcases eq_or_ne (readnLeft len returns i) 0 with hleft | hleft
  · refine ⟨i, _, ends_of_leaves hturn (if_pos hleft), fun hlt ↦ ?_⟩
    rw [← ssize_sub_readnLeft, hleft, Int.sub_zero, ssize_of_lt (by omega) (by omega)] at hlt
    exact absurd hlt (Int.lt_irrefl _)
  · have hvalue : (returns i).value len = 0 :=
      hstop.resolve_left (mt readnLeft_eq_zero_iff.2 hleft)
    have hpos : 0 < len.1 := by
      refine Nat.pos_of_ne_zero fun hzero ↦ ?_
      have hdone : readnLeft len returns 0 = 0 := by
        rw [readnLeft_zero, hzero]
        rfl
      rcases Nat.eq_zero_or_pos i with rfl | hi
      · exact hleft hdone
      · exact hagain 0 hi (Or.inl (readnLeft_eq_zero_iff.1 hdone))
    have hlast : readnTurn len stream returns buffer i = .last _ :=
      (if_neg hleft).trans (if_pos hvalue)
    refine ⟨i + 1, _, ends_of_last hturn hlast, fun _ ↦ ?_⟩
    exact (mem_firstOf returns).2
      ⟨i, Nat.lt_succ_self i, ReadReturn.eq_of_value_eq_zero hpos hvalue⟩

/-- **How `http_Readn` ends**: at the first answer that stops it, with what the answers before that
have brought. -/
theorem readsExactly_iff_stopsAt (len : Size) (returns : ℕ → ReadReturn) (stream : ℕ → UInt8)
    (buffer : CArray len.1) :
    ReadsExactly len returns stream buffer ↔
      ∃ i, (∀ j < i, ¬ StopsAt len returns j) ∧ StopsAt len returns i ∧
        ReadsPrefix stream True (ssize (bytesRead len returns i - readFailures returns i))
          (readnBuffer len stream returns buffer i) := by
  have hfollows := follows_httpReadn len stream returns buffer
  constructor
  · rintro ⟨k, r, buffer', w', used, hrun, -, hreads⟩
    rw [httpReadn_start] at hrun
    obtain ⟨i, u, m, hends, -, -⟩ := hfollows.loop_eq_ok_iff.1 hrun
    obtain ⟨hstop, hb⟩ := eq_of_ends_readnTurn hends
    obtain ⟨rfl, rfl⟩ := Prod.mk.inj hb
    exact ⟨i, fun j hj ↦ readnTurn_eq_again_iff.1 (hends.again j hj), hstop,
      { hreads with short := fun _ ↦ trivial }⟩
  · rintro ⟨i, hagain, hstop, hreads⟩
    obtain ⟨u, b, hends, hshort⟩ := exists_ends_readnTurn len hagain hstop
    obtain ⟨-, rfl⟩ := eq_of_ends_readnTurn hends
    have hrun := hfollows.loop_of_ends hends 0
    exact ⟨_, _, _, _, firstOf returns u, (httpReadn_start len returns stream buffer _).trans hrun,
      (List.append_nil _).symm, { hreads with short := fun hlt ↦ Or.inl (hshort hlt) }⟩

/-! ### The bytes in the buffer -/

/-- As long as no byte is read, the buffer is as it was. -/
theorem readnBuffer_of_none (h : bytesRead len returns i = 0) :
    readnBuffer len stream returns buffer i = buffer := by
  induction i with
  | zero => rfl
  | succ i ih =>
    rw [bytesRead, Nat.add_eq_zero_iff] at h
    rw [readnBuffer, h.2, ih h.1]
    exact CArray.overlay_nil buffer

theorem amount_le_bytesRead {q : ℕ} (hq : q < i) :
    (returns q).amount len ≤ bytesRead len returns i := by
  induction i with
  | zero => exact absurd hq (Nat.not_lt_zero q)
  | succ i ih =>
    rw [bytesRead]
    rcases Nat.lt_succ_iff_lt_or_eq.1 hq with hlt | rfl
    · exact (ih hlt).trans (Nat.le_add_right _ _)
    · exact Nat.le_add_left _ _

/-- **What the buffer holds**: a later `read` has stored over the first bytes, or one `read` has
brought all of them, and they are where they should be. -/
theorem readnBuffer_cases (len : ℕ) (stream : ℕ → UInt8) (returns : ℕ → ReadReturn)
    (buffer : CArray len) (i : ℕ) :
    (∃ p, 0 < p ∧ p < bytesRead len returns i ∧
        (readnBuffer len stream returns buffer i).bytes[0]? = some (stream p)) ∧
        (∀ q < i, (returns q).amount len < bytesRead len returns i) ∨
      readnBuffer len stream returns buffer i =
          CArray.overlay (firstOf stream (bytesRead len returns i)) buffer ∧
        (i = 0 ∨ ∃ q < i, (returns q).amount len = bytesRead len returns i) := by
  induction i with
  | zero => exact Or.inr ⟨(CArray.overlay_nil buffer).symm, Or.inl rfl⟩
  | succ i ih =>
    rw [bytesRead, readnBuffer]
    rcases Nat.eq_zero_or_pos ((returns i).amount len) with hnone | hgot
    · have hsame : ∀ f : ℕ → UInt8, CArray.overlay (firstOf f 0)
          (readnBuffer len stream returns buffer i) = readnBuffer len stream returns buffer i :=
        fun _ ↦ CArray.overlay_nil _
      rw [hnone, Nat.add_zero, hsame]
      refine ih.imp (fun ⟨hbyte, hless⟩ ↦ ⟨hbyte, fun q hq ↦ ?_⟩) fun ⟨hall, hone⟩ ↦ ⟨hall, ?_⟩
      · obtain ⟨p, -, hp, -⟩ := hbyte
        rcases Nat.lt_succ_iff_lt_or_eq.1 hq with hlt | rfl
        · exact hless q hlt
        · exact hnone.trans_lt ((Nat.zero_le p).trans_lt hp)
      · obtain rfl | ⟨q, hq, heq⟩ := hone
        · exact Or.inr ⟨0, Nat.lt_succ_self 0, hnone⟩
        · exact Or.inr ⟨q, Nat.lt_succ_of_lt hq, heq⟩
    · rcases Nat.eq_zero_or_pos (bytesRead len returns i) with hzero | hpos
      · -- the first bytes of all
        rw [readnBuffer_of_none hzero, hzero, Nat.zero_add]
        simp only [Nat.zero_add, true_and]
        exact Or.inr (Or.inr ⟨i, Nat.lt_succ_self i, rfl⟩)
      · refine Or.inl ⟨⟨_, hpos, Nat.lt_add_of_pos_right hgot, ?_⟩, fun q hq ↦ ?_⟩
        · rw [bytes_overlay_firstOf _ _ ((returns i).amount_le len),
            List.getElem?_append_left (by rwa [length_firstOf]), getElem?_firstOf _ hgot]
          rfl
        · rcases Nat.lt_succ_iff_lt_or_eq.1 hq with hlt | rfl
          · exact (amount_le_bytesRead hlt).trans_lt (Nat.lt_add_of_pos_right hgot)
          · exact Nat.lt_add_of_pos_left hpos

/-! ### The condition -/

theorem ssize_sub_eq_zero_iff {a b : ℕ} :
    ssize (a - b) = 0 ↔ a ≡ b [MOD 18446744073709551616] := by
  have hcases := ssize_cases (a - b)
  rw [Nat.ModEq]
  omega

/-- In the range of an `ssize_t`, the result is not above the bytes when the failures are not, and
then it is what they leave. -/
theorem ssize_sub_eq_iff {a b : ℕ} (ha : a < 9223372036854775808) :
    0 ≤ ssize (a - b) ∧ ssize (a - b) ≤ a ↔ b % 18446744073709551616 ≤ a := by
  have hcases := ssize_cases (a - b)
  omega

/-- **Harmless answers** leave a prefix of the stream in the buffer. -/
theorem Harmless.readsPrefix {len : Size} {buffer : CArray len.1}
    (h : Harmless len returns i) :
    ReadsPrefix stream True (ssize (bytesRead len returns i - readFailures returns i))
      (readnBuffer len stream returns buffer i) := by
  have hlen := len.2
  rcases h with hcancel | ⟨⟨q, hq, hone⟩, hfew⟩
  · rw [ssize_sub_eq_zero_iff.2 hcancel]
    exact ⟨Int.le_refl 0, Int.natCast_nonneg _, rfl, fun _ ↦ trivial⟩
  · have hfit : bytesRead len returns i ≤ len := hone ▸ (returns q).amount_le len
    obtain ⟨hnonneg, hle⟩ := (ssize_sub_eq_iff (hfit.trans_lt hlen)).2 hfew
    obtain ⟨-, hless⟩ | ⟨hall, -⟩ := readnBuffer_cases len stream returns buffer i
    · exact absurd hone (hless q hq).ne
    refine ⟨hnonneg, by omega, ?_, fun _ ↦ trivial⟩
    rw [hall, bytes_overlay_firstOf stream buffer hfit,
      List.take_append_of_le_length (by rw [length_firstOf]; omega), take_firstOf _ (by omega)]

/-- A stream whose first byte is not like the others. -/
def oneThenZeros (t : ℕ) : UInt8 := if t = 0 then 1 else 0

/-- On this stream, and into a buffer of other bytes, only harmless answers leave a prefix. -/
theorem harmless_of_readsPrefix {len : Size}
    (h : ReadsPrefix oneThenZeros True
      (ssize (bytesRead len returns i - readFailures returns i))
      (readnBuffer len oneThenZeros returns (CArray.fill len.1 2) i)) :
    Harmless len returns i := by
  have hlen := len.2
  set r := ssize (bytesRead len returns i - readFailures returns i) with hr
  rcases eq_or_ne r 0 with hzero | hne
  · exact Or.inl (ssize_sub_eq_zero_iff.1 hzero)
  have hnonneg := h.nonneg
  have hle := h.le
  -- the byte of the buffer at an index below the result
  have hbyte : ∀ t : ℕ, t < r → (readnBuffer len oneThenZeros returns
      (CArray.fill len.1 2) i).bytes[t]? = some (oneThenZeros t) := by
    intro t ht
    have hlt : t < r.toNat := by omega
    rw [← List.getElem?_take_of_lt hlt, h.stored, getElem?_firstOf _ hlt]
  obtain ⟨⟨p, hp, -, hover⟩, -⟩ | ⟨hall, hone⟩ :=
    readnBuffer_cases len.1 oneThenZeros returns (CArray.fill len.1 2) i
  · have hfirst := hover.symm.trans (hbyte 0 (by omega))
    rw [oneThenZeros, if_neg hp.ne'] at hfirst
    cases hfirst
  obtain rfl | ⟨q, hq, hone⟩ := hone
  · exact absurd (ssize_sub_eq_zero_iff.2 (Nat.ModEq.refl 0)) hne
  have hfit : bytesRead len returns i ≤ len := hone ▸ (returns q).amount_le len
  refine Or.inr ⟨⟨q, hq, hone⟩, (ssize_sub_eq_iff (hfit.trans_lt hlen)).1 ⟨hnonneg, ?_⟩⟩
  by_contra hmore
  -- behind the bytes that were read, the buffer is as it was
  have hlast := hbyte (bytesRead len returns i) (by omega)
  rw [hall, bytes_overlay_firstOf _ _ hfit, List.getElem?_append_right (length_firstOf _ _).le,
    length_firstOf, Nat.sub_self, CArray.fill, List.drop_replicate,
    List.getElem?_replicate_of_lt (by omega), oneThenZeros] at hlast
  split at hlast <;> cases hlast

/-- **When `http_Readn` reads the prefix.** For every length below `2 ^ 63` and every schedule of
answers: it does so for every stream and into every buffer exactly when some answer stops the loop,
and the answers before the first that does are harmless. -/
theorem readsExactly_iff (len : Size) (returns : ℕ → ReadReturn) :
    (∀ (stream : ℕ → UInt8) (buffer : CArray len.1), ReadsExactly len returns stream buffer) ↔
      ∃ i, (∀ j < i, ¬ StopsAt len returns j) ∧ StopsAt len returns i ∧
        Harmless len returns i := by
  constructor
  · intro h
    obtain ⟨i, hagain, hstop, hreads⟩ :=
      (readsExactly_iff_stopsAt len returns oneThenZeros (CArray.fill len.1 2)).1 (h _ _)
    exact ⟨i, hagain, hstop, harmless_of_readsPrefix hreads⟩
  · rintro ⟨i, hagain, hstop, hharmless⟩ stream buffer
    exact (readsExactly_iff_stopsAt len returns stream buffer).2
      ⟨i, hagain, hstop, hharmless.readsPrefix⟩

/-- The stream comes one byte at a time: the second byte is stored over the first one, and the
result is two. -/
theorem not_readsExactly_oneByOne :
    (httpReadn (CArray.fill 2 2) 2 (Input.start oneThenZeros [.count 1, .count 1])).map
        (fun p ↦ (p.1.1, p.1.2.bytes)) = .ok (2, [0, 2]) ∧
      ¬ ReadsExactly 2 (fun _ ↦ .count 1) oneThenZeros (CArray.fill 2 2) := by
  refine ⟨rfl, fun h ↦ ?_⟩
  obtain ⟨i, hagain, hstop, hreads⟩ := (readsExactly_iff_stopsAt ⟨2, by decide⟩ _ _ _).1 h
  have hharmless := harmless_of_readsPrefix hreads
  obtain hlt | rfl | hgt := Nat.lt_trichotomy i 2
  · obtain rfl | rfl : i = 0 ∨ i = 1 := by omega
    · exact absurd hstop (by decide)
    · exact absurd hstop (by decide)
  · exact absurd hharmless (by decide)
  · exact hagain 2 hgt (by decide)

end Exact

end PreforkHttpd
