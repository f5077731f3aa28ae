import PreforkHttpd.Io.WriteLoops

/-!
# When `Write_s` writes the buffer and stops on failure

`Write_s` (the same text in `sock.h` and `common.h`) asks for what is left, and as long as each
`write` takes something, or returns zero, its pointer and its count are in step. A failure is to end
it. But the result is a `size_t`: the count grows by one, the pointer goes back by one, and the next
`write` sends a byte again, or the one before the buffer.

After `i` answers without a failure `Write_s` is behind the first `sentBefore i` bytes
(`cursorAt_eq`). So it keeps its promise exactly when on the schedule no failure comes before a
`write` that returns zero, or before everything is written (`writesExactly_iff`).
-/

open Answered

namespace PreforkHttpd

/-! ### The code -/

/-- `sz - nleft` as an `ssize_t`, which is returned as a `size_t`. -/
def writeSResult (sz : ℕ) (s : WriteCursor) : Checked IoFault ℤ :=
  if -9223372036854775808 ≤ sz - s.nleft ∧ sz - s.nleft < 9223372036854775808 then
    .ok (sizeT (sz - s.nleft))
  else .error (.fault .overflow)

/-- The loop of `Write_s`: each `write` asks for what is left. -/
def writeSLoop (sz : ℕ) : WriteLoop where
  wrap := ssize
  request s := s.nleft
  negative s _ :=
    if s.nleft = 0 then .ok (.inr (sizeT (-1))) else (writeSResult sz s).map .inr
  result := writeSResult sz

@[simp] theorem writeSLoop_request (sz : ℕ) (s : WriteCursor) :
    (writeSLoop sz).request s = s.nleft := rfl

@[simp] theorem writeSLoop_result (sz : ℕ) : (writeSLoop sz).result = writeSResult sz := rfl

/-- `Write_s(fd, buf, sz)`. -/
def writeS (buf : List UInt8) (sz : ℕ) : Code Output IoFault ℤ :=
  ((writeSLoop sz).toRound buf).loop ⟨0, sz⟩

/-! ### What it is to do -/

/-- An answer that is to end `Write_s`. -/
def SendAnswer.Refuses (a : SendAnswer) : Prop := a = .sent 0 ∨ ∃ e, a = .err e

theorem SendAnswer.exists_of_not_refuses {a : SendAnswer} (h : ¬ a.Refuses) :
    ∃ n, 0 < n ∧ a = .sent n := by
  match a with
  | .sent 0 => exact absurd (Or.inl rfl) h
  | .sent (n + 1) => exact ⟨n + 1, n.succ_pos, rfl⟩
  | .err e => exact absurd (Or.inr ⟨e, rfl⟩) h

/-- **`Write_s` writes the buffer and stops on failure**: it returns, without a `write` that reaches
outside, a refusal is the last answer it uses, and without one everything is written. -/
def WritesExactly (buf : List UInt8) (returns : ℕ → SendAnswer) : Prop :=
  ∃ k r w' used, writeS buf buf.length (Output.start (firstOf returns k)) = .ok (r, w') ∧
    firstOf returns k = used ++ w'.returns ∧ WritesPrefix buf r w'.accepted ∧
    (∀ j a, used[j]? = some a → a.Refuses → j + 1 = used.length) ∧
    (r < buf.length → ∃ a ∈ used, a.Refuses)

/-- What the first `i` answers add up to. -/
def sentBefore (returns : ℕ → SendAnswer) : ℕ → ℕ
  | 0 => 0
  | i + 1 => sentBefore returns i + match returns i with
    | .sent n => n
    | .err _ => 0

theorem sentBefore_mono (returns : ℕ → SendAnswer) {j i : ℕ} (h : j ≤ i) :
    sentBefore returns j ≤ sentBefore returns i := by
  induction h with
  | refl => exact Nat.le_refl _
  | step _ ih => exact ih.trans (Nat.le_add_right _ _)

/-- A failure comes only behind a `write` that returns zero, or when the answers before it have
added up to the size. -/
def NoFailure (sz : ℕ) (returns : ℕ → SendAnswer) : Prop :=
  ∀ i e, returns i = .err e → (∃ j < i, returns j = .sent 0) ∨ sz ≤ sentBefore returns i

section WriteS

variable {buf : Block} {returns : ℕ → SendAnswer} {i : ℕ} {r : ℤ}

/-- `Write_s` on a schedule. -/
def writeSTurn (buf : Block) (returns : ℕ → SendAnswer) : ℕ → Turn ℤ :=
  (writeSLoop buf.1.length).turnAt buf.1 ⟨0, buf.1.length⟩ returns

theorem writeS_eq (buf : Block) :
    writeS buf buf.1.length =
      ((writeSLoop buf.1.length).toRound buf.1).loop ⟨0, buf.1.length⟩ := rfl

/-- **Without a failure** the cursor is behind what was sent, and that is what has been taken. -/
theorem cursorAt_eq (buf : Block) (hsent : ∀ j < i, ∃ n, returns j = .sent n) :
    (writeSLoop buf.1.length).cursorAt ⟨0, buf.1.length⟩ returns i =
        ⟨(min (sentBefore returns i) buf.1.length : ℕ),
          (buf.1.length - min (sentBefore returns i) buf.1.length : ℕ)⟩ ∧
      (writeSLoop buf.1.length).acceptedAt buf.1 ⟨0, buf.1.length⟩ returns i =
        buf.1.take (sentBefore returns i) := by
  induction i with
  | zero => exact ⟨by rw [sentBefore, Nat.zero_min]; rfl, List.take_zero.symm⟩
  | succ i ih =>
    obtain ⟨hcursor, haccepted⟩ := ih fun j hj ↦ hsent j (Nat.lt_succ_of_lt hj)
    obtain ⟨n, hn⟩ := hsent i (Nat.lt_succ_self i)
    -- what this answer takes
    obtain ⟨k, hk⟩ : ∃ k, k = min n (buf.1.length - min (sentBefore returns i) buf.1.length) :=
      ⟨_, rfl⟩
    have hnext : sentBefore returns (i + 1) = sentBefore returns i + n := by
      rw [sentBefore, hn]
    have hvalue : ((returns i).clip ((writeSLoop buf.1.length).request
        ((writeSLoop buf.1.length).cursorAt ⟨0, buf.1.length⟩ returns i))).value = k := by
      rw [hn, hcursor, SendAnswer.clip, SendAnswer.value, hk]
      rfl
    constructor
    · rw [WriteLoop.cursorAt, hvalue, hcursor, WriteLoop.advance, hnext, ssize_sizeT,
        ssize_of_lt (by omega) (by omega)]
      dsimp only [writeSLoop]
      rw [ssize_sub_sizeT, ssize_of_lt (by omega) (by omega), WriteCursor.mk.injEq]
      omega
    · rw [WriteLoop.acceptedAt, hvalue, hcursor, haccepted, hnext, Int.toNat_natCast,
        Int.toNat_natCast, List.take_eq_take_min (i := sentBefore returns i), ← List.take_add,
        List.take_eq_take_min (i := sentBefore returns i + n)]
      congr 1
      omega

/-- What is returned behind `m` bytes. -/
theorem writeSResult_eq {sz m : ℕ} (hsz : sz < 9223372036854775808) (hm : m ≤ sz) (ptr : ℤ) :
    writeSResult sz ⟨ptr, (sz - m : ℕ)⟩ = .ok (m : ℤ) := by
  have hdiff : (sz : ℤ) - ((sz - m : ℕ) : ℤ) = m := by omega
  rw [writeSResult]
  dsimp only
  rw [hdiff, if_pos (by omega), sizeT_of_lt (by omega) (by omega)]

/-- **Its rounds**, as long as there was no failure. -/
theorem writeSTurn_eq (buf : Block) (hsent : ∀ j < i, ∃ n, returns j = .sent n) :
    writeSTurn buf returns i =
      if buf.1.length ≤ sentBefore returns i then .leaves buf.1.length
      else if returns i = .sent 0 then .last (sentBefore returns i) else .again := by
  have hbuf := buf.2
  obtain ⟨hcursor, -⟩ := cursorAt_eq buf hsent
  rw [writeSTurn, WriteLoop.turnAt, hcursor]
  simp only [writeSLoop_request, writeSLoop_result, writeSResult_eq hbuf (Nat.min_le_right _ _)]
  split
  next hleft =>
    have hlt : sentBefore returns i < buf.1.length := by omega
    have hin : (writeSLoop buf.1.length).Inside buf.1
        ⟨sentBefore returns i, (buf.1.length - sentBefore returns i : ℕ)⟩ := by
      refine ⟨Int.natCast_nonneg _, ?_⟩
      rw [writeSLoop_request]
      dsimp only
      omega
    have hzero : ((returns i).clip ((buf.1.length - sentBefore returns i : ℕ) : ℤ)).value = 0 ↔
        returns i = .sent 0 := by
      rcases returns i with n | e
      · rw [SendAnswer.clip, SendAnswer.value, SendAnswer.sent.injEq]
        omega
      · exact iff_of_false (fun h ↦ by cases h) fun h ↦ by cases h
    simp only [Nat.min_eq_left hlt.le]
    simp only [if_pos hin, hzero, if_neg (Nat.not_le.2 hlt)]
  next hleft =>
    rw [if_pos (by omega), Nat.min_eq_right (by omega)]

/-- **Behind a failure** the loop does not end before its next `write`: something is left, or the
count has overflowed. -/
theorem writeSTurn_of_err {e : Errno} (hsent : ∀ j < i, ∃ n, returns j = .sent n)
    (hlt : sentBefore returns i < buf.1.length) (he : returns i = .err e) (r : ℤ) :
    writeSTurn buf returns (i + 1) ≠ .leaves r := by
  obtain ⟨hcursor, -⟩ := cursorAt_eq buf hsent
  have hnleft : ((writeSLoop buf.1.length).cursorAt ⟨0, buf.1.length⟩ returns (i + 1)).nleft =
      ssize (buf.1.length - sentBefore returns i + 1) := by
    rw [WriteLoop.cursorAt, hcursor, he]
    show ssize ((buf.1.length - min (sentBefore returns i) buf.1.length : ℕ) - sizeT (-1)) = _
    rw [ssize_sub_sizeT]
    congr 1
    omega
  intro hturn
  rw [writeSTurn, WriteLoop.turnAt] at hturn
  split_ifs at hturn with hpos hin hzero
  · split at hturn <;> cases hturn
  · -- the count was the greatest `ssize_t` before
    have hcases := ssize_cases (buf.1.length - sentBefore returns i + 1)
    have hover : writeSResult buf.1.length
        ((writeSLoop buf.1.length).cursorAt ⟨0, buf.1.length⟩ returns (i + 1)) =
          .error (.fault .overflow) := if_neg (by rw [hnleft] at hpos ⊢; omega)
    rw [writeSLoop_result, hover] at hturn
    cases hturn

/-- Where nothing is refused, each answer is a number of bytes. -/
theorem exists_sent_of_not_refuses (hgoes : ∀ j < i, ¬ (returns j).Refuses) :
    ∀ j < i, ∃ n, returns j = .sent n := fun j hj ↦
  (SendAnswer.exists_of_not_refuses (hgoes j hj)).imp fun _ ↦ And.right

/-- The loop goes on as long as nothing is refused and not all is written. -/
theorem writeSTurn_again (hgoes : ∀ j < i, ¬ (returns j).Refuses)
    (hpart : ∀ j < i, sentBefore returns j < buf.1.length) :
    ∀ j < i, writeSTurn buf returns j = .again := by
  intro j hj
  have hsent : ∀ j' < j, ∃ n, returns j' = .sent n := fun j' hj' ↦
    exists_sent_of_not_refuses hgoes j' (hj'.trans hj)
  rw [writeSTurn_eq buf hsent, if_neg (Nat.not_le.2 (hpart j hj)),
    if_neg fun hzero ↦ hgoes j hj (Or.inl hzero)]

/-- **A failure is not the end**: the loop goes on, and uses another answer if it returns at all. -/
theorem not_writesExactly_of_err {e : Errno}
    (hgoes : ∀ j < i, ¬ (returns j).Refuses)
    (hlt : sentBefore returns i < buf.1.length) (he : returns i = .err e) :
    ¬ WritesExactly buf.1 returns := by
  rintro ⟨k, r, w', used, hrun, hused, -, hlast, -⟩
  rw [writeS_eq, WriteLoop.loop_eq_ok_iff buf.2] at hrun
  obtain ⟨i', u, m, hends, rfl, rfl⟩ := hrun
  have hsent : ∀ j < i, ∃ n, returns j = .sent n := exists_sent_of_not_refuses hgoes
  -- the failure, too, takes it round again
  have hfailed : writeSTurn buf returns i = .again := by
    rw [writeSTurn_eq buf hsent, if_neg (Nat.not_le.2 hlt), if_neg (by rw [he]; nofun)]
  have hpart : ∀ j < i, sentBefore returns j < buf.1.length := fun j hj ↦
    (sentBefore_mono returns hj.le).trans_lt hlt
  have hagain : ∀ j < i + 1, writeSTurn buf returns j = .again :=
    Nat.forall_lt_succ_right.2 ⟨writeSTurn_again hgoes hpart, hfailed⟩
  have hlater : i < i' := Nat.lt_of_not_le fun hle ↦
    hends.not_again (hagain i' (Nat.lt_succ_of_le hle))
  obtain rfl := eq_firstOf_of_append returns hused
  have hiu : i < u := by
    rcases hends.used with rfl | rfl <;> omega
  have hnext := hlast i (returns i) (getElem?_firstOf returns hiu) (Or.inr ⟨e, he⟩)
  rw [length_firstOf] at hnext
  rcases hends.leaving with ⟨hleaves, hu⟩ | ⟨-, hu⟩
  · obtain rfl : i' = i + 1 := by omega
    exact writeSTurn_of_err hsent hlt he r hleaves
  · omega

/-- As long as nothing is refused each answer has taken a byte, and so all is written in the end or
something is refused. -/
theorem exists_full_or_refuses (sz : ℕ) (returns : ℕ → SendAnswer) :
    ∃ i, sz ≤ sentBefore returns i ∨ (returns i).Refuses := by
  have hstop : ∃ i, ¬ (sentBefore returns i < sz ∧ ¬ (returns i).Refuses) := by
    refine exists_not_of_progress (fun _ hgoes ↦ hgoes.1.le) fun i hgoes ↦ ?_
    obtain ⟨n, hpos, hn⟩ := SendAnswer.exists_of_not_refuses hgoes.2
    rw [sentBefore, hn]
    exact Nat.lt_add_of_pos_right hpos
  simpa only [not_and_or, not_lt, not_not] using hstop

/-- Where the loop ends, `Write_s` has returned. -/
theorem writesExactly_of_ends {u : ℕ} (hends : Ends (writeSTurn buf returns) i u r)
    (hsent : ∀ j < u, ∃ n, returns j = .sent n) (hr : r = min (sentBefore returns u) buf.1.length)
    (hlast : ∀ j < u, (returns j).Refuses → j + 1 = u)
    (hshort : r < buf.1.length → ∃ j < u, (returns j).Refuses) :
    WritesExactly buf.1 returns := by
  obtain ⟨-, haccepted⟩ := cursorAt_eq buf hsent
  have hrun := (WriteLoop.loop_eq_ok_iff buf.2).2 ⟨i, u, 0, hends, rfl, rfl⟩
  rw [← writeS_eq] at hrun
  refine ⟨_, _, _, firstOf returns u, hrun, (List.append_nil _).symm,
    ⟨by omega, by omega, haccepted.trans ?_⟩, fun j a hj hrefuses ↦ ?_, fun hlt ↦ ?_⟩
  · rw [hr, List.take_eq_take_min]
    congr 1
  · obtain ⟨hju, -⟩ := List.getElem?_eq_some_iff.1 hj
    rw [length_firstOf] at hju ⊢
    rw [getElem?_firstOf returns hju] at hj
    exact hlast j hju (Option.some.inj hj ▸ hrefuses)
  · obtain ⟨j, hju, hrefuses⟩ := hshort hlt
    exact ⟨returns j, (mem_firstOf returns).2 ⟨j, hju, rfl⟩, hrefuses⟩

/-- All is written before anything is refused. -/
theorem writesExactly_of_full (hgoes : ∀ j < i, ¬ (returns j).Refuses)
    (hpart : ∀ j < i, sentBefore returns j < buf.1.length)
    (hfull : buf.1.length ≤ sentBefore returns i) : WritesExactly buf.1 returns := by
  have hsent := exists_sent_of_not_refuses hgoes
  have hturn := (writeSTurn_eq buf hsent).trans (if_pos hfull)
  refine writesExactly_of_ends (ends_of_leaves (writeSTurn_again hgoes hpart) hturn) hsent
    (by omega) (fun j hj hrefuses ↦ absurd hrefuses (hgoes j hj)) fun hlt ↦ ?_
  exact absurd hlt (Int.lt_irrefl _)

/-- The first refusal is a zero. -/
theorem writesExactly_of_zero (hgoes : ∀ j < i, ¬ (returns j).Refuses)
    (hlt : sentBefore returns i < buf.1.length) (hzero : returns i = .sent 0) :
    WritesExactly buf.1 returns := by
  have hsent := exists_sent_of_not_refuses hgoes
  have hpart : ∀ j < i, sentBefore returns j < buf.1.length := fun j hj ↦
    (sentBefore_mono returns hj.le).trans_lt hlt
  have hturn := ((writeSTurn_eq buf hsent).trans (if_neg (Nat.not_le.2 hlt))).trans (if_pos hzero)
  have hall : ∀ j < i + 1, ∃ n, returns j = .sent n :=
    Nat.forall_lt_succ_right.2 ⟨hsent, 0, hzero⟩
  have hlast : ∀ j < i + 1, (returns j).Refuses → j + 1 = i + 1 :=
    Nat.forall_lt_succ_right.2 ⟨fun j hj hrefuses ↦ absurd hrefuses (hgoes j hj), fun _ ↦ rfl⟩
  have hsame : sentBefore returns (i + 1) = sentBefore returns i := by
    rw [sentBefore, hzero]
    rfl
  exact writesExactly_of_ends (ends_of_last (writeSTurn_again hgoes hpart) hturn) hall (by omega)
    hlast fun _ ↦ ⟨i, Nat.lt_succ_self i, Or.inl hzero⟩

/-- Where no failure comes too early, `Write_s` does what it is to do. -/
theorem NoFailure.writesExactly (hno : NoFailure buf.1.length returns) :
    WritesExactly buf.1 returns := by
  classical
  obtain ⟨i, hstop, hbefore⟩ := Nat.findX (exists_full_or_refuses buf.1.length returns)
  have hgoes : ∀ j < i, ¬ (returns j).Refuses := fun j hj hrefuses ↦
    hbefore j hj (Or.inr hrefuses)
  rcases Nat.lt_or_ge (sentBefore returns i) buf.1.length with hlt | hfull
  · rcases hstop.resolve_left (Nat.not_le.2 hlt) with hzero | ⟨e, he⟩
    · exact writesExactly_of_zero hgoes hlt hzero
    · -- a failure would come too early
      rcases hno i e he with ⟨j, hj, hzero⟩ | hle
      · exact absurd (Or.inl hzero) (hgoes j hj)
      · exact absurd hle (Nat.not_le.2 hlt)
  · exact writesExactly_of_full hgoes
      (fun j hj ↦ Nat.lt_of_not_le fun hle ↦ hbefore j hj (Or.inl hle)) hfull

/-- Where `Write_s` does what it is to do, the first refusal of the schedule is no failure that
comes too early, and so none does. -/
theorem WritesExactly.noFailure (hexact : WritesExactly buf.1 returns) :
    NoFailure buf.1.length returns := by
  classical
  intro i e he
  by_contra hnot
  obtain ⟨hzero, hlt⟩ := not_or.1 hnot
  have hexists : ∃ i, (returns i).Refuses := ⟨i, Or.inr ⟨e, he⟩⟩
  obtain ⟨i₀, hrefuses, hgoes⟩ := Nat.findX hexists
  have hle : i₀ ≤ i := Nat.le_of_not_lt fun hi ↦ hgoes i hi (Or.inr ⟨e, he⟩)
  have hlt₀ := (sentBefore_mono returns hle).trans_lt (Nat.lt_of_not_le hlt)
  rcases hrefuses with hsent | ⟨e₀, he₀⟩
  · rcases hle.lt_or_eq with hi | rfl
    · exact hzero ⟨i₀, hi, hsent⟩
    · rw [he] at hsent
      cases hsent
  · exact not_writesExactly_of_err hgoes hlt₀ he₀ hexact

/-- **When `Write_s` writes the buffer and stops on failure.** For every buffer whose size an
`ssize_t` holds and every schedule of answers: exactly when no failure comes before a `write`
returns zero, or before everything is written. -/
theorem writesExactly_iff (buf : Block) (returns : ℕ → SendAnswer) :
    WritesExactly buf.1 returns ↔ NoFailure buf.1.length returns :=
  ⟨WritesExactly.noFailure, NoFailure.writesExactly⟩

end WriteS

/-- The kernel takes three bytes, fails, and takes three again. -/
def failsSecond (i : ℕ) : SendAnswer := if i = 1 then .err .eagain else .sent 3

/-- `Write_s` goes on after the failure, from one byte further back, and a byte is sent twice. -/
theorem not_writesExactly_failsSecond :
    writeS (ascii "hello") 5 (Output.start (firstOf failsSecond 3)) =
        .ok (5, ⟨[], ascii "helllo"⟩) ∧
      ¬ WritesExactly (ascii "hello") failsSecond := by
  let buf : Block := ⟨ascii "hello", by decide⟩
  suffices hnot : ¬ WritesExactly buf.1 failsSecond from ⟨rfl, hnot⟩
  refine not_writesExactly_of_err (i := 1) (fun j hj ↦ ?_) (by decide) rfl
  obtain rfl := Nat.lt_one_iff.1 hj
  rintro (hzero | ⟨e, he⟩)
  · cases hzero
  · cases he

end PreforkHttpd
