import Mathlib.Data.List.TakeDrop
import PreforkHttpd.Dispatch.EventLoop
import PreforkHttpd.Memory.CArray

/-!
# The buffer that `do_write` sends

The event loop of a worker has one buffer, and `do_write` hands the string in it to `write`. The
`memset` behind the call is indented as if it belonged to the `else`, but there are no braces: it
clears the buffer after every `write`, and all of it, however much of the string `write` has taken.

What `write` has accepted and what is still in the buffer are therefore the whole string only as
long as no `write` is short, and after the first `write` the buffer is empty, so that it is the
first that decides (`conserved_iff`).
-/

open LabelledRun

namespace PreforkHttpd

/-- `MAXSIZE`. -/
abbrev maxSize : ℕ := 1024

/-- A worker's event loop, its buffer, and the bytes of it that `write` has accepted. -/
structure Writer where
  loop : EventLoop
  buf : CArray maxSize
  accepted : List UInt8

namespace Writer

/-- `do_write(epollfd, fd, buf)`, where `write` returns `nwrite`, or `none` when it fails. There is
no telling what it does without a NUL in the buffer. -/
def step (fd : Fd) (w : Writer) (nwrite : Option ℕ) : Option Writer :=
  if 0 ∈ w.buf.bytes ∧ ∀ n ∈ nwrite, n ≤ w.buf.cstr.length then
    (w.loop.step (.doWrite fd nwrite)).map fun loop ↦
      { loop := loop
        -- the `memset` is behind both branches, but not behind an `exit`
        buf := if loop.exited then w.buf else CArray.fill maxSize 0
        accepted := w.accepted ++ w.buf.cstr.take (nwrite.getD 0) }
  else none

/-- Nothing of `content` is lost: what was accepted, and behind it what is still in the buffer. -/
def Conserved (content : List UInt8) (w : Writer) : Prop := w.accepted ++ w.buf.cstr = content

instance (content : List UInt8) : DecidablePred (Conserved content) := fun w ↦
  inferInstanceAs (Decidable (w.accepted ++ w.buf.cstr = content))

/-! ### One call -/

variable {fd : Fd} {w w' : Writer} {n : ℕ}

/-- A `write` that does not fail leaves the process running, and `epollfd` open. -/
theorem running_of_doWrite {s s' : EventLoop} (hself : s.kernel.self ≠ none)
    (h : s.step (.doWrite fd (some n)) = some s') :
    s'.exited = false ∧ s'.kernel.self ≠ none := by
  obtain ⟨⟨halive, c, hc, hregistered⟩, h⟩ := Option.ite_none_right_eq_some.1 h
  obtain rfl := Option.some.inj h
  obtain ⟨kernel, hk⟩ := Interests.exists_ctlMod hself hc hregistered EpollMask.epollin
  simp only [EventLoop.run, EventLoop.doWrite, EventLoop.modifyEvent, EventLoop.epollCtl, hk]
  exact ⟨halive, (Interests.Changes.of_ctlMod hk).self_eq ▸ hself⟩

/-- **What a call does** when its `write` does not fail: it takes `n` bytes, and clears the
buffer. -/
theorem step_some (hself : w.loop.kernel.self ≠ none) (h : step fd w (some n) = some w') :
    w'.loop.kernel.self ≠ none ∧ n ≤ w.buf.cstr.length ∧ w'.buf = CArray.fill maxSize 0 ∧
      w'.accepted = w.accepted ++ w.buf.cstr.take n := by
  obtain ⟨⟨-, hn⟩, h⟩ := Option.ite_none_right_eq_some.1 h
  obtain ⟨loop, hloop, rfl⟩ := Option.map_eq_some_iff.1 h
  obtain ⟨halive, hself'⟩ := running_of_doWrite hself hloop
  refine ⟨hself', hn n rfl, if_neg ?_, rfl⟩
  exact Bool.eq_false_iff.1 halive

/-! ### Calls whose `write` does not fail -/

/-- A call whose `write` takes `n` bytes. -/
def stepTaking (fd : Fd) (w : Writer) (n : ℕ) : Option Writer := w.step fd (some n)

/-- The `write` takes the whole string in the buffer. -/
def TakesAll (w : Writer) (n : ℕ) : Prop := n = w.buf.cstr.length

theorem cstr_cleared : (CArray.fill maxSize 0).cstr = [] := rfl

/-- A call conserves what was conserved if and only if its `write` takes all. -/
theorem conserved_step_iff {content : List UInt8} (hself : w.loop.kernel.self ≠ none)
    (hw : Conserved content w) (h : stepTaking fd w n = some w') :
    Conserved content w' ↔ TakesAll w n := by
  obtain ⟨-, hn, hbuf, haccepted⟩ := step_some hself h
  rw [Conserved, hbuf, cstr_cleared, haccepted, List.append_nil, ← hw, List.append_right_inj,
    List.take_eq_self_iff]
  exact ⟨fun hle ↦ le_antisymm hn hle, fun heq ↦ heq.ge⟩

/-- What the calls keep whose `write` takes all: `epollfd` is open, and nothing is lost. -/
def Intact (content : List UInt8) (w : Writer) : Prop :=
  w.loop.kernel.self ≠ none ∧ Conserved content w

theorem Intact.step {content : List UInt8} (hw : Intact content w) (hall : TakesAll w n)
    (h : stepTaking fd w n = some w') : Intact content w' :=
  ⟨(step_some hw.1 h).1, (conserved_step_iff hw.1 hw.2 h).2 hall⟩

theorem Intact.not_conserved {content : List UInt8} (hw : Intact content w)
    (hshort : ¬ TakesAll w n) (h : stepTaking fd w n = some w') : ¬ Conserved content w' :=
  mt (conserved_step_iff hw.1 hw.2 h).1 hshort

/-- Once the buffer is empty, every `write` takes all there is. -/
theorem along_takesAll_of_cleared : ∀ {counts : List ℕ} {w t : Writer},
    w.loop.kernel.self ≠ none → w.buf = CArray.fill maxSize 0 →
      runFrom (stepTaking fd) w counts = some t → Along (stepTaking fd) TakesAll w counts
  | [], _, _, _, _, _ => trivial
  | n :: counts, w, t, hself, hbuf, hrun => by
    obtain ⟨w', hstep, hrest⟩ := runFrom_cons_eq_some_iff.1 hrun
    obtain ⟨hself', hn, hbuf', -⟩ := step_some hself hstep
    refine (along_cons_iff hstep).2 ⟨?_, along_takesAll_of_cleared hself' hbuf' hrest⟩
    rw [hbuf, cstr_cleared, List.length_nil] at hn
    rw [TakesAll, hbuf, cstr_cleared]
    exact Nat.le_zero.1 hn

/-- The first `write` decides whether all of them take all. -/
theorem along_takesAll_iff {counts : List ℕ} {t : Writer} (hself : w.loop.kernel.self ≠ none)
    (hrun : runFrom (stepTaking fd) w counts = some t) :
    Along (stepTaking fd) TakesAll w counts ↔ ∀ n ∈ counts.head?, n = w.buf.cstr.length := by
  match counts with
  | [] => exact iff_of_true trivial nofun
  | n :: counts =>
    obtain ⟨w', hstep, hrest⟩ := runFrom_cons_eq_some_iff.1 hrun
    obtain ⟨hself', -, hbuf', -⟩ := step_some hself hstep
    rw [along_cons_iff hstep, and_iff_left (along_takesAll_of_cleared hself' hbuf' hrest)]
    exact ⟨fun h m hm ↦ (Option.mem_some_iff.1 hm) ▸ h, fun h ↦ h n rfl⟩

/-- **When `do_write` loses no bytes.** For every string in the buffer, and every run of calls on a
registered descriptor whose `write`s do not fail, what was accepted and what is still in the buffer
make up the string after each call if and only if the first `write` takes all of it. -/
theorem conserved_iff {counts : List ℕ} {t : Writer} (hself : w.loop.kernel.self ≠ none)
    (hstart : w.accepted = []) (hrun : runFrom (stepTaking fd) w counts = some t) :
    Throughout (stepTaking fd) (Conserved w.buf.cstr) w counts ↔
      ∀ n ∈ counts.head?, n = w.buf.cstr.length := by
  have hw : Conserved w.buf.cstr w := by rw [Conserved, hstart, List.nil_append]
  rw [← along_takesAll_iff hself hrun]
  exact throughout_iff_along Intact.step And.right Intact.not_conserved hrun ⟨hself, hw⟩

/-- A worker with one client registered for writing, and `hello` in its buffer. -/
def helloWriter : Writer where
  loop := EventLoop.start 4 [(5, 0)] (by decide) [] |>.addEvent 5 .epollout
  buf := (CArray.fill maxSize 0).overlay [104, 101, 108, 108, 111, 0]
  accepted := []

/-- The whole string is taken by the first call, and nothing by the second. -/
theorem conserved_iff_hello :
    Throughout (stepTaking 5) (Conserved helloWriter.buf.cstr) helloWriter [5, 0] := by
  have hrun : runFrom (stepTaking 5) helloWriter [5, 0] = some _ := rfl
  exact (conserved_iff (by decide) rfl hrun).2 (by decide)

/-- A `write` that takes two bytes of five loses the others. -/
theorem not_conserved_hello :
    ¬ Throughout (stepTaking 5) (Conserved helloWriter.buf.cstr) helloWriter [2] := by
  intro h
  have hrun : runFrom (stepTaking 5) helloWriter [2] = some _ := rfl
  exact absurd (h [2] _ (List.prefix_refl _) hrun) (by decide)

end Writer

end PreforkHttpd
