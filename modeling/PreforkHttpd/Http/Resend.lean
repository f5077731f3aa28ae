import PreforkHttpd.Http.Response
import PreforkHttpd.Http.SendLoops

/-!
# Sending a chunk again

The transfer of a file repeats `http_send` on the whole chunk while it returns `-1`. That result
says nothing about how much of the chunk the socket had accepted before the failure, so the next
call starts from the beginning of the chunk and the client gets those bytes twice.

`exists_again` follows the loop: what it has accepted is the chunk, after whatever the failed calls
had accepted. `repeatsNothing_iff` is the consequence: the chunk is sent exactly once if and only if
no failure came after an answer that accepted something.
-/

open Answered Drain

namespace PreforkHttpd

/-- `while ((write_cnt = http_send(clientfd, buf, BUFFSIZE)) == -1) continue;`, with the value of
`write_cnt` that it leaves. -/
def resend (buf : CArray buffSize) : Round (fun w : Calls ↦ w.sends.length) Fault Unit ℤ where
  run _ := do
    let r ← httpSend buf.bytes buffSize
    pure (if r = -1 then .inl () else .inr r)
  size_lt {s w s' w'} h := by
    rw [bind_eq_ok_iff] at h
    obtain ⟨r, v, hsend, h⟩ := h
    have hlt := sends_of_httpSend (by decide) hsend
    obtain ⟨-, rfl⟩ := Prod.mk.inj (Except.ok.inj h)
    exact hlt

/-- The loop of the transfer is this loop, whose `write_cnt` nobody reads. -/
theorem sendChunk_loop_eq (buf : CArray buffSize) (w : Calls) :
    (sendChunk buf).loop () w = ((resend buf).loop () w).map fun p ↦ ((), p.2) := by
  refine (resend buf).loop_map (sendChunk buf) (fun _ ↦ ()) (fun s w ↦ ?_) () w
  show (httpSend buf.bytes buffSize >>= _) w = ((httpSend buf.bytes buffSize >>= _) w).map _
  rw [bind_pure_eq_map, bind_pure_eq_map]
  rcases httpSend buf.bytes buffSize w with e | ⟨r, v⟩
  · rfl
  · rw [Except.map, Except.map, Except.map]
    split <;> rfl

/-- No failure comes after an answer that accepted something. -/
def FailsFirst (used : List SendAnswer) : Prop :=
  used.Pairwise fun a b ↦ b.Fails → a.uptake.amount = 0

instance (used : List SendAnswer) : Decidable (FailsFirst used) :=
  inferInstanceAs (Decidable (used.Pairwise _))

variable {buf : CArray buffSize} {w w' : Calls} {used : List SendAnswer}

/-- One call of the loop. -/
theorem exists_attempt {x : Unit ⊕ ℤ} {v : Calls} (h : (resend buf).run () w = .ok (x, v)) :
    ∃ first d, w.sends = first ++ v.sends ∧ Exact SendAnswer.uptake buf.bytes first d ∧
      v.accepted = w.accepted ++ d.accepted ∧
      x = if d.failed then .inl () else .inr ↑d.accepted.length := by
  obtain ⟨r, v', hsend, h⟩ := bind_eq_ok_iff.1 h
  obtain ⟨rfl, rfl⟩ := Prod.mk.inj (Except.ok.inj h)
  have htake : buf.bytes.take buffSize = buf.bytes := List.take_of_length_le buf.length_bytes.le
  rw [httpSend_eq buf.length_bytes.ge, htake] at hsend
  match hd : drain SendAnswer.uptake w.sends buf.bytes with
  | none =>
    rw [hd] at hsend
    cases hsend
  | some d =>
    rw [hd] at hsend
    obtain ⟨rfl, rfl⟩ := Prod.mk.inj (Except.ok.inj hsend)
    obtain ⟨first, hfirst, hexact⟩ := exact_of_drain hd
    refine ⟨first, d, hfirst, hexact, rfl, ?_⟩
    cases hfailed : d.failed with
    | true => simp [sentResult, hfailed]
    | false =>
      rw [if_neg Bool.false_ne_true, sentResult, hfailed, if_neg Bool.false_ne_true,
        if_neg (by omega)]
      simp

/-- After a failed call, no failure has come after progress if the call made none and none of the
later ones does. -/
theorem failsFirst_append_iff {data : List UInt8} {first rest : List SendAnswer}
    {d : Drained SendAnswer UInt8} (hdata : data ≠ []) (h : Exact SendAnswer.uptake data first d)
    (hfailed : d.failed = true) :
    FailsFirst (first ++ rest) ↔ d.accepted = [] ∧ FailsFirst rest := by
  rw [FailsFirst, List.pairwise_append, h.accepted_eq_nil_iff hdata]
  refine ⟨fun ⟨hfirst, hrest, _⟩ ↦ ⟨fun b hb ↦ ?_, hrest⟩, fun ⟨hzero, hrest⟩ ↦ ?_⟩
  · -- the failure is the last answer of the call
    obtain ⟨before, a, rfl, ha⟩ := h.last hfailed
    rcases List.mem_append.1 hb with hb | hb
    · exact (List.pairwise_append.1 hfirst).2.2 b hb a (List.mem_singleton_self a)
        (SendAnswer.uptake_eq_failed_iff.1 ha)
    · rw [List.mem_singleton.1 hb, ha]
      rfl
  · exact ⟨List.pairwise_of_forall_mem_list fun a ha _ _ _ ↦ hzero a ha, hrest,
      fun a ha _ _ _ ↦ hzero a ha⟩

/-- A call that does not fail has met no failure. -/
theorem failsFirst_of_not_failed {data : List UInt8} {d : Drained SendAnswer UInt8}
    (h : Exact SendAnswer.uptake data used d) (hfailed : d.failed = false) : FailsFirst used := by
  refine List.pairwise_of_forall_mem_list fun _ _ b hb hfails ↦ ?_
  have hfailed' : d.failed = true :=
    h.failed_iff.2 ⟨b, hb, SendAnswer.uptake_eq_failed_iff.2 hfails⟩
  rw [hfailed] at hfailed'
  cases hfailed'

/-- **What the loop has accepted**: what the failed calls got through, and then the chunk. -/
theorem exists_again (hrun : (resend buf).loop () w = .ok (↑buffSize, w'))
    (hused : w.sends = used ++ w'.sends) :
    ∃ again, w'.accepted = w.accepted ++ (again ++ buf.bytes) ∧ (again = [] ↔ FailsFirst used) := by
  have hne : buf.bytes ≠ [] := List.ne_nil_of_length_pos (buf.length_bytes.symm ▸ by decide)
  induction hsize : w.sends.length using Nat.strongRecOn generalizing w used with
  | ind n ih =>
    obtain hlast | ⟨⟨⟩, v, hround, hloop⟩ := (resend buf).loop_eq_ok hrun
    · obtain ⟨first, d, hfirst, hexact, haccepted, hx⟩ := exists_attempt hlast
      obtain rfl : used = first := List.append_cancel_right (hused.symm.trans hfirst)
      cases hfailed : d.failed with
      | true =>
        rw [hfailed, if_pos rfl] at hx
        cases hx
      | false =>
        rw [hfailed, if_neg Bool.false_ne_true] at hx
        have hlength : d.accepted.length = buffSize := by
          have heq : ((buffSize : ℕ) : ℤ) = ↑d.accepted.length := by injection hx
          omega
        have hwhole : d.accepted = buf.bytes := by
          have hprefix : d.accepted <+: buf.bytes := hexact.accepted_eq ▸ List.take_prefix _ _
          exact hprefix.eq_of_length (hlength.trans buf.length_bytes.symm)
        exact ⟨[], by rw [haccepted, hwhole]; rfl,
          iff_of_true rfl (failsFirst_of_not_failed hexact hfailed)⟩
    · obtain ⟨first, d, hfirst, hexact, haccepted, hx⟩ := exists_attempt hround
      have hfailed : d.failed = true := by
        by_contra hnot
        rw [if_neg hnot] at hx
        cases hx
      -- the rest of the answers is used by the calls after this one
      obtain ⟨later, hlater⟩ : ∃ later, v.sends = later ++ w'.sends := by
        obtain ⟨later, hlater⟩ : w'.sends <:+ v.sends := (Calls.Later.sends
          ((resend buf).forward_loop (fun _ ↦ (forward_httpSend _ _).bind fun _ ↦ forward_pure _)
            () hloop))
        exact ⟨later, hlater.symm⟩
      obtain rfl : used = first ++ later := by
        refine (List.append_left_inj w'.sends).1 ?_
        rw [← hused, hfirst, hlater, List.append_assoc]
      obtain ⟨again, hagain, hiff⟩ :=
        ih _ (hsize ▸ (resend buf).size_lt hround) hloop hlater rfl
      refine ⟨d.accepted ++ again, ?_, ?_⟩
      · rw [hagain, haccepted, List.append_assoc, List.append_assoc]
      · rw [List.append_eq_nil_iff, hiff, failsFirst_append_iff hne hexact hfailed]

/-- **When a retry repeats nothing.** For every chunk and every list of answers on which the loop
ends with the whole chunk sent: the socket has accepted the chunk exactly once if and only if no
failure came after an answer that accepted something. -/
theorem repeatsNothing_iff (hrun : (resend buf).loop () w = .ok (↑buffSize, w'))
    (hused : w.sends = used ++ w'.sends) :
    w'.accepted = w.accepted ++ buf.bytes ↔ FailsFirst used := by
  obtain ⟨again, haccepted, hiff⟩ := exists_again hrun hused
  rw [haccepted, ← hiff, List.append_cancel_left_eq]
  exact List.append_left_eq_self

/-- A chunk of one byte all over. -/
def chunkOfA : CArray buffSize := CArray.fill _ 97

/-- A socket with no answers to come, which has accepted these bytes. -/
def afterwards (accepted : List UInt8) (handed : List (List UInt8)) : Calls :=
  { Calls.sending [] with accepted := accepted, handed := handed }

/-- A failure before anything is sent, and an interruption in the middle, do no harm. -/
theorem repeatsNothing_iff_failsFirst :
    ∃ w', (resend chunkOfA).loop ()
        (Calls.sending [.err .eagain, .sent 512, .err .eintr, .sent 512]) = .ok (↑buffSize, w') ∧
      w'.accepted = [] ++ chunkOfA.bytes := by
  have hrun : (resend chunkOfA).loop ()
      (Calls.sending [.err .eagain, .sent 512, .err .eintr, .sent 512]) =
      .ok (↑buffSize, afterwards chunkOfA.bytes [chunkOfA.bytes, chunkOfA.bytes,
        chunkOfA.bytes.drop 512, chunkOfA.bytes.drop 512]) := by
    decide +kernel
  exact ⟨_, hrun, (repeatsNothing_iff hrun (List.append_nil _).symm).2 (by decide)⟩

/-- Half a chunk, then a failure, then the whole chunk: the client gets the first half twice. -/
theorem not_repeatsNothing_of_progress :
    ∃ w', (resend chunkOfA).loop () (Calls.sending [.sent 512, .err .eagain, .sent 1024]) =
        .ok (↑buffSize, w') ∧
      w'.accepted = chunkOfA.bytes.take 512 ++ chunkOfA.bytes ∧
      w'.accepted ≠ [] ++ chunkOfA.bytes := by
  refine ⟨afterwards (chunkOfA.bytes.take 512 ++ chunkOfA.bytes)
    [chunkOfA.bytes, chunkOfA.bytes.drop 512, chunkOfA.bytes], ?_, rfl, ?_⟩
  · decide +kernel
  · intro heq
    have hlength := congrArg List.length heq
    rw [List.nil_append, CArray.length_bytes] at hlength
    revert hlength
    decide +kernel

end PreforkHttpd
