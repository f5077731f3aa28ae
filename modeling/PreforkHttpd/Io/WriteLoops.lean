import PreforkHttpd.Io.Streams

/-!
# Loops that write until all is gone

`http_Writen` of `utils/http_io.c` and `Write_s` (the same text in `sock.h` and `common.h`) write a
buffer, however little of it the kernel takes at a time. They are one loop with different parts, a
`WriteLoop`: the type of the count of what is left, the size that each `write` asks for, and what is
returned. Both keep the result of `write` in a `size_t`. So their branch for a failure is never
taken, and a failure counts as a `write` of `2 ^ 64 - 1` bytes, which takes the pointer one byte
**back**.

`WriteLoop.follows` is the run of such a loop on a schedule, and `WriteLoop.loop_eq_ok_iff` says how
it ends. `WritesPrefix` is what a writer is to have done when it returns.
-/

open Answered

namespace PreforkHttpd

/-- A buffer whose size an `ssize_t` holds. -/
abbrev Block := { xs : List UInt8 // xs.length < 9223372036854775808 }

/-! ### The loops -/

/-- Where a writer is: `ptr` is an offset from its buffer. -/
structure WriteCursor where
  ptr : ℤ
  nleft : ℤ
deriving DecidableEq

/-- The parts in which the two loops differ. -/
structure WriteLoop where
  /-- The type of `nleft`. -/
  wrap : ℤ → ℤ
  /-- The size that a `write` asks for. -/
  request : WriteCursor → ℤ
  /-- The branch for `nwrite < 0`. -/
  negative : WriteCursor → SendAnswer → Checked IoFault (WriteCursor ⊕ ℤ)
  /-- What is returned behind the loop. -/
  result : WriteCursor → Checked IoFault ℤ

namespace WriteLoop

/-- `nleft -= nwrite;` and the pointer moves on by `nwrite`. -/
def advance (p : WriteLoop) (s : WriteCursor) (nwrite : ℤ) : WriteCursor where
  ptr := s.ptr + ssize nwrite
  nleft := p.wrap (s.nleft - nwrite)

/-- What the loop does after a `write`: go on, or return. `nwrite` is a `size_t`. -/
def after (p : WriteLoop) (s : WriteCursor) (a : SendAnswer) : Checked IoFault (WriteCursor ⊕ ℤ) :=
  let nwrite := sizeT a.value
  if nwrite < 0 then p.negative s a
  else if nwrite = 0 then (p.result s).map .inr
  else .ok (.inl (p.advance s nwrite))

/-- The round of the `while (nleft > 0)`. -/
def body (p : WriteLoop) (buf : List UInt8) (s : WriteCursor) :
    Code Output IoFault (WriteCursor ⊕ ℤ) :=
  if 0 < s.nleft then do
    let a ← writeFrom buf s.ptr (p.request s)
    liftM (p.after s a)
  else liftM ((p.result s).map .inr)

/-- The `while (nleft > 0)`. -/
def toRound (p : WriteLoop) (buf : List UInt8) :
    Round (fun w : Output ↦ w.returns.length) IoFault WriteCursor ℤ where
  run := p.body buf
  size_lt {s w s' w'} h := by
    rw [body] at h
    split at h
    · rw [bind_eq_ok_iff] at h
      obtain ⟨a, v, hwrite, h⟩ := h
      obtain ⟨-, rfl⟩ := lift_eq_ok_iff.1 h
      exact returns_of_writeFrom hwrite
    · obtain ⟨hleave, -⟩ := lift_eq_ok_iff.1 h
      rcases hresult : p.result s with e | r <;> rw [hresult] at hleave <;> cases hleave

end WriteLoop

/-! ### A run on a schedule -/

namespace WriteLoop

variable (p : WriteLoop) (buf : List UInt8) (start : WriteCursor) (returns : ℕ → SendAnswer)

/-- The cursor after `i` answers. -/
def cursorAt : ℕ → WriteCursor
  | 0 => start
  | i + 1 => p.advance (cursorAt i) (sizeT ((returns i).clip (p.request (cursorAt i))).value)

/-- What the kernel has taken after `i` answers. -/
def acceptedAt : ℕ → List UInt8
  | 0 => []
  | i + 1 => acceptedAt i ++ (buf.drop (p.cursorAt start returns i).ptr.toNat).take
      ((returns i).clip (p.request (p.cursorAt start returns i))).value.toNat

/-- The next `write` keeps to the buffer. -/
def Inside (s : WriteCursor) : Prop := 0 ≤ s.ptr ∧ s.ptr + p.request s ≤ buf.length

instance (s : WriteCursor) : Decidable (p.Inside buf s) := inferInstanceAs (Decidable (_ ∧ _))

/-- What the next round comes to. -/
def turnAt (i : ℕ) : Turn ℤ :=
  let s := p.cursorAt start returns i
  if 0 < s.nleft then
    if p.Inside buf s then
      if ((returns i).clip (p.request s)).value = 0 then
        match p.result s with
        | .ok r => .last r
        | .error _ => .faults
      else .again
    else .faults
  else
    match p.result s with
    | .ok r => .leaves r
    | .error _ => .faults

variable {p buf start returns} {i m : ℕ} {s : WriteCursor}

/-- **What the loop makes of an answer** of a `write` inside the buffer: any but zero takes it round
again. -/
theorem after_clip (hbuf : buf.length < 9223372036854775808) (hin : p.Inside buf s)
    (a : SendAnswer) :
    p.after s (a.clip (p.request s)) =
      if (a.clip (p.request s)).value = 0 then (p.result s).map .inr
      else .ok (.inl (p.advance s (sizeT (a.clip (p.request s)).value))) := by
  obtain ⟨hptr, hend⟩ := hin
  have hzero : sizeT (a.clip (p.request s)).value = 0 ↔ (a.clip (p.request s)).value = 0 := by
    rcases a with n | e
    · rw [SendAnswer.clip, SendAnswer.value, sizeT_of_lt] <;> omega
    · rw [SendAnswer.clip, SendAnswer.value]
      exact iff_of_false (by decide) (by decide)
  rw [after]
  simp only [if_neg (not_sizeT_neg _), hzero]

/-- A round that makes a `write` inside the buffer. -/
theorem body_of_inside (hbuf : buf.length < 9223372036854775808)
    (hleft : 0 < (p.cursorAt start returns i).nleft)
    (hin : p.Inside buf (p.cursorAt start returns i)) :
    p.body buf (p.cursorAt start returns i)
        (Output.scheduled returns (p.acceptedAt buf start returns i) i (m + 1)) =
      (liftM (if ((returns i).clip (p.request (p.cursorAt start returns i))).value = 0 then
          (p.result (p.cursorAt start returns i)).map .inr
        else .ok (.inl (p.cursorAt start returns (i + 1)))) : Code Output IoFault _)
        (Output.scheduled returns (p.acceptedAt buf start returns (i + 1)) (i + 1) m) := by
  rw [body, if_pos hleft, bind_of_ok (writeFrom_scheduled hin), after_clip hbuf hin]
  rfl

/-- A round that has no answer to its `write`, -/
theorem body_of_nil (hleft : 0 < s.nleft) {w : Output} (hw : w.returns = []) :
    ∃ e, p.body buf s w = .error e := by
  obtain ⟨e, he⟩ := writeFrom_of_nil buf s.ptr (p.request s) hw
  exact ⟨e, by rw [body, if_pos hleft, bind_of_error he]⟩

/-- or makes one outside the buffer. -/
theorem body_of_outside (hleft : 0 < s.nleft) (hout : ¬ p.Inside buf s) (w : Output) :
    ∃ e, p.body buf s w = .error e := by
  obtain ⟨f, hf⟩ := writeFrom_outside hout w
  exact ⟨.fault f, by rw [body, if_pos hleft, bind_of_error hf]⟩

/-- With nothing left it returns, -/
theorem body_of_done (hdone : ¬ 0 < s.nleft) {r : ℤ} (hresult : p.result s = .ok r) (w : Output) :
    p.body buf s w = .ok (.inr r, w) := by
  rw [body, if_neg hdone, hresult]
  rfl

/-- or has nothing to return. -/
theorem body_of_done_error (hdone : ¬ 0 < s.nleft) {e : Stop IoFault}
    (hresult : p.result s = .error e) (w : Output) : p.body buf s w = .error e := by
  rw [body, if_neg hdone, hresult]
  rfl

/-- **The loop on a schedule.** -/
theorem follows (p : WriteLoop) {buf : List UInt8} (hbuf : buf.length < 9223372036854775808)
    (start : WriteCursor) (returns : ℕ → SendAnswer) :
    (p.toRound buf).Follows (p.cursorAt start returns)
      (fun i m ↦ Output.scheduled returns (p.acceptedAt buf start returns i) i m)
      (p.turnAt buf start returns) where
  leaves {i b} h m := by
    rw [turnAt] at h
    split_ifs at h with hleft hin hzero
    · split at h <;> cases h
    · split at h
      next r hresult =>
        obtain rfl := Turn.leaves.inj h
        exact body_of_done hleft hresult _
      next => cases h
  last {i b} h m := by
    rw [turnAt] at h
    split_ifs at h with hleft hin hzero
    · split at h
      next r hresult =>
        obtain rfl := Turn.last.inj h
        refine (body_of_inside hbuf hleft hin).trans ?_
        rw [if_pos hzero, hresult]
        rfl
      next => cases h
    · split at h <;> cases h
  again {i} h m := by
    rw [turnAt] at h
    split_ifs at h with hleft hin hzero
    · split at h <;> cases h
    · refine (body_of_inside hbuf hleft hin).trans ?_
      rw [if_neg hzero]
      rfl
    · split at h <;> cases h
  faults {i} h m := by
    rw [turnAt] at h
    split_ifs at h with hleft hin hzero
    · split at h
      next => cases h
      next e hresult =>
        cases m with
        | zero => exact body_of_nil hleft rfl
        | succ m =>
          refine ⟨e, (body_of_inside hbuf hleft hin).trans ?_⟩
          rw [if_pos hzero, hresult]
          rfl
    · exact body_of_outside hleft hin _
    · split at h
      next => cases h
      next e hresult => exact ⟨e, body_of_done_error hleft hresult _⟩
  waits {i} h := by
    by_cases hleft : 0 < (p.cursorAt start returns i).nleft
    · exact body_of_nil hleft rfl
    · rcases hresult : p.result (p.cursorAt start returns i) with e | r
      · exact ⟨e, body_of_done_error hleft hresult _⟩
      · refine absurd ?_ (h r)
        rw [turnAt, if_neg hleft, hresult]

/-- **How the loop ends**, with `u` answers used. -/
theorem loop_eq_ok_iff (hbuf : buf.length < 9223372036854775808) {k : ℕ} {r : ℤ} {w' : Output} :
    (p.toRound buf).loop start (Output.start (firstOf returns k)) = .ok (r, w') ↔
      ∃ i u m, Ends (p.turnAt buf start returns) i u r ∧ k = u + m ∧
        w' = Output.scheduled returns (p.acceptedAt buf start returns u) u m := by
  rw [← Output.scheduled_zero]
  exact (p.follows hbuf start returns).loop_eq_ok_iff

end WriteLoop

/-- **The beginning is written**: the result is in range, and so many bytes of the buffer have been
taken, and nothing else. -/
structure WritesPrefix (buf : List UInt8) (r : ℤ) (accepted : List UInt8) : Prop where
  nonneg : 0 ≤ r
  le : r ≤ buf.length
  accepted_eq : accepted = buf.take r.toNat

end PreforkHttpd
