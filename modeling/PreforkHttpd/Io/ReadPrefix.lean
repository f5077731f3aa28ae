import PreforkHttpd.Io.Streams

/-!
# Reading until enough is there

`Read_s` (the same text in `sock.h` and `common.h`) fills a buffer with the next bytes of a stream,
however the kernel cuts them up. `ReadsPrefix` says what that is, for any such function.

`Read_s` keeps its pointer, the size that it asks for and the count of what is left in step, and the
result of `read` in a signed variable. `follows_readS` is its run on a schedule: after `i` answers
it has the first `readSPos i` bytes of the stream in its buffer, and asks for all that is left. A
round that goes round again has got a byte, so that the loop ends, and `readS_exact` reads the rest
off the run.
-/

open Answered

namespace PreforkHttpd

/-- **The prefix is read**: the result is in range, so many bytes of the stream are at the start of
the buffer, and it is all that was asked for unless there is an excuse. -/
structure ReadsPrefix {len : ℕ} (stream : ℕ → UInt8) (excuse : Prop) (r : ℤ)
    (buffer : CArray len) : Prop where
  nonneg : 0 ≤ r
  le : r ≤ len
  stored : buffer.bytes.take r.toNat = firstOf stream r.toNat
  short : r < len → excuse

/-- What the first bytes of the stream leave of a buffer when they are stored in it. -/
theorem readsPrefix_overlay {len m : ℕ} {stream : ℕ → UInt8} {excuse : Prop} (buffer : CArray len)
    (hm : m ≤ len) (hshort : m < len → excuse) :
    ReadsPrefix stream excuse m (CArray.overlay (firstOf stream m) buffer) where
  nonneg := Int.natCast_nonneg m
  le := Int.ofNat_le.2 hm
  stored := by
    rw [Int.toNat_natCast, bytes_overlay_firstOf stream buffer hm]
    exact List.take_left' (length_firstOf stream m)
  short h := hshort (Int.ofNat_lt.1 h)

/-! ### `Read_s` -/

variable {n sz : ℕ} {stream : ℕ → UInt8} {returns : ℕ → ReadReturn}

/-- Where `Read_s` is: `buf` has advanced by `ptr` bytes. -/
structure ReadSCursor (n : ℕ) where
  nleft : ℤ
  ptr : ℕ
  buffer : CArray n

namespace ReadSCursor

/-- `nleft -= nread; buf += nread;` -/
def advance (s : ReadSCursor n) (nread : ℤ) : ReadSCursor n :=
  { s with nleft := sizeT (s.nleft - nread), ptr := s.ptr + nread.toNat }

/-- What `Read_s` does after a `read`: go on, or return. -/
def after (sz : ℕ) (s : ReadSCursor n) (a : RecvAnswer) : ReadSCursor n ⊕ ℤ × CArray n :=
  let nread := a.value
  if nread < 0 then
    -- inside the loop `nleft` is not zero
    if s.nleft = 0 then .inr (sizeT (-1), s.buffer) else .inr (sizeT (sz - s.nleft), s.buffer)
  else if nread = 0 then .inr (sizeT (sz - s.nleft), s.buffer)
  else .inl (s.advance nread)

/-- The round of the `while (nleft > 0)` of `Read_s`. -/
def round (sz : ℕ) (s : ReadSCursor n) :
    Code Input IoFault (ReadSCursor n ⊕ ℤ × CArray n) :=
  if 0 < s.nleft then do
    let p ← readInto s.buffer s.ptr s.nleft.toNat
    pure ({ s with buffer := p.2 }.after sz p.1)
  else pure (.inr (sizeT (sz - s.nleft), s.buffer))

/-- The `while (nleft > 0)` of `Read_s`. -/
def loop (n sz : ℕ) :
    Round (fun w : Input ↦ w.returns.length) IoFault (ReadSCursor n) (ℤ × CArray n) where
  run := round sz
  size_lt {s w s' w'} h := by
    rw [round] at h
    split at h
    · rw [bind_eq_ok_iff] at h
      obtain ⟨p, v, hread, h⟩ := h
      obtain ⟨-, rfl⟩ := Prod.mk.inj (Except.ok.inj h)
      exact returns_of_readInto hread
    · cases h

end ReadSCursor

/-- `Read_s(fd, buf, sz)`: the value returned, and the buffer. -/
def readS (buf : CArray n) (sz : ℕ) : Code Input IoFault (ℤ × CArray n) :=
  (ReadSCursor.loop n sz).loop ⟨sizeT sz, 0, buf⟩

/-- How much of the stream `Read_s` has after `i` answers: every `read` asks for what is left. -/
def readSPos (sz : ℕ) (returns : ℕ → ReadReturn) : ℕ → ℕ
  | 0 => 0
  | i + 1 => readSPos sz returns i + (returns i).amount (sz - readSPos sz returns i)

theorem readSPos_le (sz : ℕ) (returns : ℕ → ReadReturn) : ∀ i, readSPos sz returns i ≤ sz
  | 0 => Nat.zero_le sz
  | i + 1 => by
    have ih := readSPos_le sz returns i
    have hamount := (returns i).amount_le (sz - readSPos sz returns i)
    rw [readSPos]
    omega

/-- `Read_s` after `i` answers. -/
def readSAt (sz : ℕ) (stream : ℕ → UInt8) (returns : ℕ → ReadReturn) (buf : CArray n) (i : ℕ) :
    ReadSCursor n where
  nleft := ((sz - readSPos sz returns i : ℕ) : ℤ)
  ptr := readSPos sz returns i
  buffer := CArray.overlay (firstOf stream (readSPos sz returns i)) buf

/-- What its next round comes to: it is done, or the answer is a number of bytes, or it is the
last. -/
def readSTurn (sz : ℕ) (stream : ℕ → UInt8) (returns : ℕ → ReadReturn) (buf : CArray n) (i : ℕ) :
    Turn (ℤ × CArray n) :=
  let result : ℤ × CArray n :=
    (readSPos sz returns i, CArray.overlay (firstOf stream (readSPos sz returns i)) buf)
  if readSPos sz returns i = sz then .leaves result
  else if 0 < (returns i).amount (sz - readSPos sz returns i) then .again else .last result

section ReadS

variable {buf : CArray n} {i m : ℕ}

/-- What is returned, of as much as an `ssize_t` counts. -/
theorem sizeT_sub_readSPos (sz : Size) (returns : ℕ → ReadReturn) (i : ℕ) :
    sizeT (sz - ((sz - readSPos sz returns i : ℕ) : ℤ)) = readSPos sz returns i := by
  have hle := readSPos_le sz returns i
  rw [sizeT_of_lt] <;> omega

theorem nleft_readSAt_pos_iff : 0 < (readSAt sz stream returns buf i).nleft ↔
    readSPos sz returns i ≠ sz := by
  have hle := readSPos_le sz returns i
  show (0 : ℤ) < ((sz - readSPos sz returns i : ℕ) : ℤ) ↔ _
  omega

/-- **What `Read_s` makes of an answer.** -/
theorem after_readSAt (sz : Size) (w : Input) (hpos : readSPos sz returns i ≠ sz)
    (buffer : CArray n) :
    ({ readSAt sz stream returns buf i with buffer := buffer } : ReadSCursor n).after sz
        ((returns i).answer w (sz - readSPos sz returns i)) =
      if 0 < (returns i).amount (sz - readSPos sz returns i) then
        .inl { readSAt sz stream returns buf (i + 1) with buffer := buffer }
      else .inr (readSPos sz returns i, buffer) := by
  have hle := readSPos_le sz returns i
  have hamount := (returns i).amount_le (sz - readSPos sz returns i)
  have hresult := sizeT_sub_readSPos sz returns i
  rw [ReadSCursor.after]
  simp only [readSAt, ReadReturn.value_answer, ReadSCursor.advance, hresult]
  obtain ⟨k, hk, hvalue⟩ | ⟨e, he, hvalue⟩ :=
    (returns i).value_cases (sz - readSPos sz returns i)
  · rw [hvalue, if_neg (by omega)]
    rcases Nat.eq_zero_or_pos ((returns i).amount (sz - readSPos sz returns i)) with hzero | hgot
    · rw [if_pos (by omega), if_neg (by omega)]
    · have hnleft : ((sz - readSPos sz returns i : ℕ) : ℤ) -
          ((returns i).amount (sz - readSPos sz returns i) : ℤ) =
            ((sz - readSPos sz returns (i + 1) : ℕ) : ℤ) := by
        rw [readSPos]
        omega
      rw [if_neg (by omega), if_pos hgot, hnleft, Int.toNat_natCast,
        sizeT_of_lt (by omega) (by omega), readSPos]
  · rw [hvalue, if_pos (by decide), if_neg (by omega), he]
    rfl

/-- A round of `Read_s` on a schedule. -/
theorem round_readSAt (sz : Size) (buf : CArray sz.1) (hpos : readSPos sz returns i ≠ sz) :
    ReadSCursor.round sz (readSAt sz stream returns buf i)
        (Input.scheduled stream returns (readSPos sz returns i) i (m + 1)) =
      .ok (if 0 < (returns i).amount (sz - readSPos sz returns i) then
          .inl (readSAt sz stream returns buf (i + 1))
        else .inr (readSPos sz returns i,
          CArray.overlay (firstOf stream (readSPos sz returns (i + 1))) buf),
        Input.scheduled stream returns (readSPos sz returns (i + 1)) (i + 1) m) := by
  have hfit : readSPos sz returns i + (returns i).amount (sz - readSPos sz returns i) ≤ sz :=
    readSPos_le sz returns (i + 1)
  rw [ReadSCursor.round, if_pos (nleft_readSAt_pos_iff.2 hpos), readSAt, Int.toNat_natCast,
    bind_of_ok (readInto_behind buf hfit)]
  exact congrArg (fun x ↦ Except.ok (x, _)) (after_readSAt sz _ hpos _)

/-- **`Read_s` on a schedule.** -/
theorem follows_readS (sz : Size) (stream : ℕ → UInt8) (returns : ℕ → ReadReturn)
    (buf : CArray sz.1) :
    (ReadSCursor.loop sz.1 sz).Follows (readSAt sz stream returns buf)
      (fun i m ↦ Input.scheduled stream returns (readSPos sz returns i) i m)
      (readSTurn sz stream returns buf) where
  leaves {i b} h m := by
    rw [readSTurn] at h
    split_ifs at h with hpos
    obtain rfl := Turn.leaves.inj h
    show ReadSCursor.round sz (readSAt sz stream returns buf i) _ = _
    rw [ReadSCursor.round, if_neg (mt nleft_readSAt_pos_iff.1 (not_not.2 hpos)), readSAt,
      sizeT_sub_readSPos]
    rfl
  last {i b} h m := by
    rw [readSTurn] at h
    split_ifs at h with hpos hgot
    obtain rfl := Turn.last.inj h
    have hstay : readSPos sz returns (i + 1) = readSPos sz returns i := by
      rw [readSPos]
      omega
    refine (round_readSAt sz buf hpos).trans ?_
    rw [if_neg hgot, hstay]
  again {i} h m := by
    rw [readSTurn] at h
    split_ifs at h with hpos hgot
    refine (round_readSAt sz buf hpos).trans ?_
    rw [if_pos hgot]
  faults {i} h m := by
    rw [readSTurn] at h
    split_ifs at h
  waits {i} h := by
    have hpos : readSPos sz returns i ≠ sz := fun hpos ↦ h _ (if_pos hpos)
    refine ⟨.pending, ?_⟩
    show ReadSCursor.round sz (readSAt sz stream returns buf i) _ = _
    rw [ReadSCursor.round, if_pos (nleft_readSAt_pos_iff.2 hpos)]
    exact bind_of_error (readInto_of_nil rfl)

theorem readSAt_zero (sz : Size) (stream : ℕ → UInt8) (returns : ℕ → ReadReturn)
    (buf : CArray n) : readSAt sz stream returns buf 0 = ⟨sizeT sz, 0, buf⟩ := by
  rw [readSAt, readSPos, sizeT_of_lt (by omega) (by omega)]
  exact congrArg (ReadSCursor.mk _ _) (CArray.overlay_nil buf)

/-- A round that goes round again has read a byte, and so some round does not. -/
theorem exists_readSTurn_ne_again (sz : ℕ) (stream : ℕ → UInt8) (returns : ℕ → ReadReturn)
    (buf : CArray n) : ∃ i, readSTurn sz stream returns buf i ≠ .again := by
  refine exists_not_of_progress (fun i _ ↦ readSPos_le sz returns i) fun i hagain ↦ ?_
  rw [readSTurn] at hagain
  split_ifs at hagain with hpos hgot
  exact Nat.lt_add_of_pos_right hgot

/-- An answer that ends `Read_s`: the end of the stream, or a failure. -/
def ReadReturn.Stops (a : ReadReturn) : Prop := a = .count 0 ∨ ∃ e, a = .err e

/-- An answer that gets nothing, of a `read` that asks for something, ends `Read_s`. -/
theorem ReadReturn.stops_of_amount {a : ReadReturn} {len : ℕ} (hlen : 0 < len)
    (h : ¬ 0 < a.amount len) : a.Stops := by
  match a with
  | .count k =>
    rw [ReadReturn.amount] at h
    exact Or.inl (congrArg ReadReturn.count (by omega))
  | .err e => exact Or.inr ⟨e, rfl⟩

/-- **`Read_s` reads exactly the prefix.** For every stream, every size that an `ssize_t` holds,
every buffer of that size and every schedule of answers, `Read_s` returns, without a store outside
the buffer. The result is in range, so many bytes of the stream are at the start of the buffer, and
they are all that was asked for unless the end of the stream or a failure was met. -/
theorem readS_exact (sz : Size) (stream : ℕ → UInt8) (returns : ℕ → ReadReturn)
    (buf : CArray sz.1) :
    ∃ k r buf' w' used,
      readS buf sz (Input.start stream (firstOf returns k)) = .ok ((r, buf'), w') ∧
        firstOf returns k = used ++ w'.returns ∧
        ReadsPrefix stream (∃ a ∈ used, a.Stops) r buf' := by
  have hfollows := follows_readS sz stream returns buf
  have hstart : ∀ k, readS buf sz (Input.start stream (firstOf returns k)) =
      (ReadSCursor.loop sz.1 sz).loop (readSAt sz stream returns buf 0)
        (Input.scheduled stream returns (readSPos sz returns 0) 0 k) := fun k ↦ by
    rw [readSAt_zero, readS, ← Input.scheduled_zero]
    rfl
  obtain ⟨i, hagain, hstop⟩ := exists_first_stop (exists_readSTurn_ne_again sz stream returns buf)
  have hle := readSPos_le sz returns i
  rcases eq_or_ne (readSPos sz returns i) sz with hpos | hpos
  · have hrun := hfollows.loop_of_ends (ends_of_leaves hagain (if_pos hpos)) 0
    refine ⟨_, _, _, _, firstOf returns i, (hstart _).trans hrun, (List.append_nil _).symm, ?_⟩
    exact readsPrefix_overlay buf hle fun hlt ↦ absurd hpos hlt.ne
  · have hgot : ¬ 0 < (returns i).amount (sz - readSPos sz returns i) := fun hgot ↦
      hstop ((if_neg hpos).trans (if_pos hgot))
    have hlast : readSTurn sz stream returns buf i = .last _ :=
      (if_neg hpos).trans (if_neg hgot)
    have hrun := hfollows.loop_of_ends (ends_of_last hagain hlast) 0
    refine ⟨_, _, _, _, firstOf returns (i + 1), (hstart _).trans hrun, (List.append_nil _).symm,
      ?_⟩
    refine readsPrefix_overlay buf hle fun _ ↦ ⟨returns i, ?_, ?_⟩
    · exact (mem_firstOf returns).2 ⟨i, Nat.lt_succ_self i, rfl⟩
    · exact ReadReturn.stops_of_amount (by omega) hgot

end ReadS

end PreforkHttpd
