import PreforkHttpd.Io.WriteLoops

/-!
# When `http_Writen` writes the buffer

`http_Writen` of `utils/http_io.c` moves its pointer on after each `write` and asks for the whole
length again, so that a second `write` reaches outside the buffer: past its end, or before its start
when the first one failed, for a failure takes the pointer one byte back. What is there is sent to
the peer.

So `http_Writen` writes the buffer exactly when its first `write` settles the matter
(`writenExactly_iff`).
-/

open Answered

namespace PreforkHttpd

/-! ### The code -/

/-- The loop of `http_Writen`: each `write` asks for `len` bytes. -/
def writenLoop (len : ℕ) : WriteLoop where
  wrap := sizeT
  request _ := len
  negative s a :=
    if a.errno = some .eintr then .ok (.inl s) else .ok (.inr (ssize (len - s.nleft)))
  result s := .ok (ssize (len - s.nleft))

/-- `http_Writen(fd, buffer, len)`. -/
def httpWriten (buffer : List UInt8) (len : ℕ) : Code Output IoFault ℤ :=
  ((writenLoop len).toRound buffer).loop ⟨0, sizeT len⟩

/-! ### What it is to do -/

/-- **`http_Writen` writes the buffer**: it returns, without a `write` that reaches outside, and has
written all of it unless a `write` returned zero or failed for another reason than `EINTR`. -/
def WritenExactly (buffer : List UInt8) (returns : ℕ → SendAnswer) : Prop :=
  ∃ k r w' used,
    httpWriten buffer buffer.length (Output.start (firstOf returns k)) = .ok (r, w') ∧
      firstOf returns k = used ++ w'.returns ∧ WritesPrefix buffer r w'.accepted ∧
      (r = buffer.length ∨ .sent 0 ∈ used ∨ ∃ e ≠ .eintr, .err e ∈ used)

/-- The first `write` takes all of the buffer, or nothing; or there is nothing to write. -/
def TakenAtOnce (buffer : List UInt8) (returns : ℕ → SendAnswer) : Prop :=
  buffer = [] ∨ ∃ n, returns 0 = .sent n ∧ (n = 0 ∨ buffer.length ≤ n)

section Writen

variable {buffer : Block} {returns : ℕ → SendAnswer}

/-- What the first `write` of `http_Writen` returns. -/
def firstWrite (buffer : Block) (returns : ℕ → SendAnswer) : ℤ :=
  ((returns 0).clip buffer.1.length).value

/-- `http_Writen` on a schedule. -/
def writenTurn (buffer : Block) (returns : ℕ → SendAnswer) : ℕ → Turn ℤ :=
  (writenLoop buffer.1.length).turnAt buffer.1 ⟨0, buffer.1.length⟩ returns

theorem firstWrite_of_sent {n : ℕ} (h : returns 0 = .sent n) :
    firstWrite buffer returns = min n buffer.1.length := by
  rw [firstWrite, h, SendAnswer.clip, SendAnswer.value, Int.toNat_natCast]

theorem firstWrite_cases (buffer : Block) (returns : ℕ → SendAnswer) :
    (∃ n : ℕ, returns 0 = .sent n ∧ firstWrite buffer returns = min n buffer.1.length) ∨
      firstWrite buffer returns = -1 := by
  rcases hreturn : returns 0 with n | e
  · exact Or.inl ⟨n, rfl, firstWrite_of_sent hreturn⟩
  · exact Or.inr (by rw [firstWrite, hreturn]; rfl)

/-- Nothing is to be written. -/
theorem writenTurn_nil (h : buffer.1.length = 0) : writenTurn buffer returns 0 = .leaves 0 := by
  rw [writenTurn, WriteLoop.turnAt, WriteLoop.cursorAt, h]
  rfl

/-- The first `write` is inside the buffer. -/
theorem writenTurn_zero (h : 0 < buffer.1.length) :
    writenTurn buffer returns 0 = if firstWrite buffer returns = 0 then .last 0 else .again := by
  have hin : (writenLoop buffer.1.length).Inside buffer.1 ⟨0, buffer.1.length⟩ :=
    ⟨Int.le_refl 0, Int.le_of_eq (Int.zero_add _)⟩
  have hpos : (0 : ℤ) < buffer.1.length := Int.natCast_pos.2 h
  rw [writenTurn, WriteLoop.turnAt, WriteLoop.cursorAt]
  dsimp only
  rw [if_pos hpos, if_pos hin, writenLoop]
  dsimp only
  rw [Int.sub_self]
  rfl

/-- Behind it, `nleft` is what it did not take, and the pointer has moved by what it returned. -/
theorem cursorAt_one (buffer : Block) (returns : ℕ → SendAnswer) :
    (writenLoop buffer.1.length).cursorAt ⟨0, buffer.1.length⟩ returns 1 =
      ⟨firstWrite buffer returns, sizeT (buffer.1.length - firstWrite buffer returns)⟩ := by
  have hrange : ssize (firstWrite buffer returns) = firstWrite buffer returns := by
    obtain ⟨n, -, hfirst⟩ | hfirst := firstWrite_cases buffer returns
    · exact ssize_of_lt (by omega) (by omega)
    · exact ssize_of_lt (by omega) (by omega)
  show WriteCursor.mk (0 + ssize (sizeT (firstWrite buffer returns)))
    (sizeT (buffer.1.length - sizeT (firstWrite buffer returns))) = _
  rw [ssize_sizeT, hrange, Int.zero_add, sizeT_sub_sizeT_right]

/-- **The second `write`** of `http_Writen` is outside the buffer. -/
theorem writenTurn_one (hne : firstWrite buffer returns ≠ 0) :
    writenTurn buffer returns 1 =
      if firstWrite buffer returns = buffer.1.length then .leaves buffer.1.length else .faults := by
  have hrange : -1 ≤ firstWrite buffer returns ∧
      firstWrite buffer returns ≤ buffer.1.length := by
    obtain ⟨n, -, hfirst⟩ | hfirst := firstWrite_cases buffer returns <;> omega
  have hleft : sizeT (buffer.1.length - firstWrite buffer returns) =
      buffer.1.length - firstWrite buffer returns := sizeT_of_lt (by omega) (by omega)
  rw [writenTurn, WriteLoop.turnAt, cursorAt_one, hleft]
  dsimp only
  split
  next hpos =>
    rw [if_neg, if_neg (by omega)]
    rintro ⟨hptr, hend⟩
    dsimp only [writenLoop] at hptr hend
    omega
  next hpos =>
    have hall : firstWrite buffer returns = buffer.1.length := by omega
    rw [if_pos hall, writenLoop, hall, Int.sub_self]
    dsimp only
    rw [Int.sub_zero, ssize_of_lt (by omega) (by omega)]

theorem acceptedAt_one (buffer : Block) (returns : ℕ → SendAnswer) :
    (writenLoop buffer.1.length).acceptedAt buffer.1 ⟨0, buffer.1.length⟩ returns 1 =
      buffer.1.take (firstWrite buffer returns).toNat := rfl

theorem httpWriten_eq (buffer : Block) :
    httpWriten buffer buffer.1.length =
      ((writenLoop buffer.1.length).toRound buffer.1).loop ⟨0, buffer.1.length⟩ := by
  rw [httpWriten, sizeT_of_lt (Int.natCast_nonneg _) (by omega)]

/-- Where the loop ends, `http_Writen` has returned. -/
theorem writenExactly_of_ends {i u : ℕ} {r : ℤ} (hends : Ends (writenTurn buffer returns) i u r)
    (hwrites : WritesPrefix buffer r ((writenLoop buffer.1.length).acceptedAt buffer.1
      ⟨0, buffer.1.length⟩ returns u))
    (hwhole : r = buffer.1.length ∨ .sent 0 ∈ firstOf returns u) :
    WritenExactly buffer returns := by
  have hrun := (WriteLoop.loop_eq_ok_iff buffer.2).2 ⟨i, u, 0, hends, rfl, rfl⟩
  rw [← httpWriten_eq] at hrun
  exact ⟨_, _, _, firstOf returns u, hrun, (List.append_nil _).symm, hwrites,
    hwhole.imp_right Or.inl⟩

/-- A first `write` that is neither all nor nothing makes the second one reach outside. -/
theorem WritenExactly.firstWrite_eq (h : WritenExactly buffer returns)
    (hpos : 0 < buffer.1.length) :
    firstWrite buffer returns = 0 ∨ firstWrite buffer returns = buffer.1.length := by
  obtain ⟨k, r, w', used, hrun, -, -, -⟩ := h
  rw [httpWriten_eq, WriteLoop.loop_eq_ok_iff buffer.2] at hrun
  obtain ⟨i, u, m, hends, -, -⟩ := hrun
  by_contra hpart
  obtain ⟨hnone, hsome⟩ := not_or.1 hpart
  refine not_ends_of_faults (i := 1) (fun j hj ↦ ?_) ?_ hends
  · rw [Nat.lt_one_iff.1 hj]
    exact (writenTurn_zero hpos).trans (if_neg hnone)
  · exact (writenTurn_one hnone).trans (if_neg hsome)

theorem writenTurn_before_zero : ∀ j < 0, writenTurn buffer returns j = .again := fun j hj ↦
  absurd hj (Nat.not_lt_zero j)

/-- There is nothing to write. -/
theorem writenExactly_of_nil (hnil : buffer.1.length = 0) : WritenExactly buffer returns := by
  refine writenExactly_of_ends (ends_of_leaves writenTurn_before_zero (writenTurn_nil hnil)) ?_ ?_
  · exact ⟨Int.le_refl 0, Int.natCast_nonneg _, rfl⟩
  · exact Or.inl (by omega)

/-- The first `write` takes nothing. -/
theorem writenExactly_of_zero (hpos : 0 < buffer.1.length) (hzero : returns 0 = .sent 0) :
    WritenExactly buffer returns := by
  have hfirst : firstWrite buffer returns = 0 := (firstWrite_of_sent hzero).trans (by omega)
  have haccepted := acceptedAt_one buffer returns
  rw [hfirst] at haccepted
  have hturn := (writenTurn_zero hpos).trans (if_pos hfirst)
  refine writenExactly_of_ends (ends_of_last writenTurn_before_zero hturn) ?_ (Or.inr ?_)
  · exact ⟨Int.le_refl 0, Int.natCast_nonneg _, haccepted⟩
  · exact (mem_firstOf returns).2 ⟨0, Nat.one_pos, hzero⟩

/-- The first `write` takes all of the buffer. -/
theorem writenExactly_of_full {n : ℕ} (hpos : 0 < buffer.1.length) (hn : returns 0 = .sent n)
    (hle : buffer.1.length ≤ n) : WritenExactly buffer returns := by
  have hfirst : firstWrite buffer returns = buffer.1.length :=
    (firstWrite_of_sent hn).trans (by omega)
  have hne : firstWrite buffer returns ≠ 0 := by omega
  have hagain : ∀ j < 1, writenTurn buffer returns j = .again := fun j hj ↦ by
    rw [Nat.lt_one_iff.1 hj]
    exact (writenTurn_zero hpos).trans (if_neg hne)
  have haccepted := acceptedAt_one buffer returns
  rw [hfirst] at haccepted
  have hturn := (writenTurn_one hne).trans (if_pos hfirst)
  refine writenExactly_of_ends (ends_of_leaves hagain hturn) ?_ (Or.inl rfl)
  exact ⟨Int.natCast_nonneg _, Int.le_refl _, haccepted⟩

/-- What is written exactly was settled by the first `write`. -/
theorem WritenExactly.takenAtOnce (h : WritenExactly buffer returns) :
    TakenAtOnce buffer returns := by
  rcases Nat.eq_zero_or_pos buffer.1.length with hnil | hpos
  · exact Or.inl (List.eq_nil_of_length_eq_zero hnil)
  have hsettled := h.firstWrite_eq hpos
  obtain ⟨n, hn, hfirst⟩ | hfirst := firstWrite_cases buffer returns
  · exact Or.inr ⟨n, hn, by omega⟩
  · omega

end Writen

/-- **When `http_Writen` writes the buffer.** For every buffer of less than `2 ^ 63` bytes and
every schedule of answers: exactly when there is nothing to write, or the first `write` takes all of
it, or takes nothing. -/
theorem writenExactly_iff (buffer : Block) (returns : ℕ → SendAnswer) :
    WritenExactly buffer returns ↔ TakenAtOnce buffer returns := by
  refine ⟨WritenExactly.takenAtOnce, fun htaken ↦ ?_⟩
  rcases Nat.eq_zero_or_pos buffer.1.length with hnil | hpos
  · exact writenExactly_of_nil hnil
  obtain ⟨n, hn, rfl | hle⟩ := htaken.resolve_left (List.ne_nil_of_length_pos hpos)
  · exact writenExactly_of_zero hpos hn
  · exact writenExactly_of_full hpos hn hle

/-- The kernel takes three bytes of five, and the next `write` asks for five bytes from there. -/
theorem not_writenExactly_hello :
    httpWriten (ascii "hello") 5 (Output.start [.sent 3, .sent 2]) =
        .error (.fault (.outside 5)) ∧
      ¬ WritenExactly (ascii "hello") (fun _ ↦ .sent 3) := by
  refine ⟨rfl, fun h ↦ ?_⟩
  let buffer : Block := ⟨ascii "hello", by decide⟩
  have hexact : WritenExactly buffer.1 (fun _ ↦ .sent 3) := h
  exact absurd (hexact.firstWrite_eq (by decide)) (by decide)

end PreforkHttpd
