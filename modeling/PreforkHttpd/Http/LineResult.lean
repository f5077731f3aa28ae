import PreforkHttpd.Http.Readline

/-!
# What the result of `readline` tells

`readline` is meant to return how many bytes it stored, not counting the newline. `intendedLine` is
that intention, read off the answers alone: the bytes up to the first newline, up to the end of the
stream, or as many as there is room for, with interruptions passed over.

What the code returns is `i - 1`, where `i` counts the rounds of its loop that were completed. The
round of the newline is not completed, so `i` is already the number of bytes before it, and the
result is one too small — unless **exactly one** round was spent on an interruption. The rounds are
bounded as well, so that interruptions use up the room for bytes.

`tellsWhatItStored_iff` is exact: over all initial contents of the buffer, result and buffer are as
intended if and only if a failure comes in time, or the line ends and there was exactly one
interruption.
-/

open Answered

namespace PreforkHttpd

/-- A `size_t`. -/
abbrev SizeT := { k : ℕ // k < 18446744073709551616 }

/-! ### The intention -/

/-- What a call of `readline` is meant to come to. -/
inductive LineIntent
  | failed
  | line (bytes : List UInt8)
deriving DecidableEq

/-- What the answers are meant to give with room for `maxlen` bytes, `acc` having been stored. -/
def intendedLine (maxlen : ℕ) : List ReadAnswer → List UInt8 → Option LineIntent
  | [], acc => if acc.length = maxlen then some (.line acc) else none
  | a :: rest, acc =>
    if acc.length = maxlen then some (.line acc)
    else
      match a with
      | .byte c =>
        if c = newline then some (.line (acc ++ [c])) else intendedLine maxlen rest (acc ++ [c])
      | .eof => some (.line acc)
      | .err e => if e = .eintr then intendedLine maxlen rest acc else some .failed

/-- The call does what is meant, whatever the buffer holds before: `-1` for a failure, and otherwise
the number of bytes stored without the newline, with the bytes and a NUL in the buffer. -/
def TellsWhatItStored (n maxlen : ℕ) (answers : List ReadAnswer) : LineIntent → Prop
  | .failed => ∀ buf : CArray n, ∃ buf' w',
    readline buf maxlen (Calls.reading answers) = .ok ((-1, buf'), w')
  | .line bytes => ∀ buf : CArray n, ∃ buf' w',
    readline buf maxlen (Calls.reading answers) =
        .ok ((↑(bytes.countP fun c ↦ decide (c ≠ newline)), buf'), w') ∧
      bytes ++ [0] <+: buf'.bytes

/-! ### The part before the end -/

instance : DecidablePred ReadAnswer.Carries
  | .byte c => inferInstanceAs (Decidable (c ≠ newline))
  | .eof => inferInstanceAs (Decidable False)
  | .err e => inferInstanceAs (Decidable (e = .eintr))

/-- What an answer stores. -/
def ReadAnswer.stored : ReadAnswer → List UInt8
  | .byte c => [c]
  | .eof | .err _ => []

/-- What the answers store. -/
def storedBy (answers : List ReadAnswer) : List UInt8 := answers.flatMap ReadAnswer.stored

/-- The answers before the one that ends the line or fails. -/
def carried (answers : List ReadAnswer) : List ReadAnswer :=
  answers.takeWhile fun a ↦ decide a.Carries

/-- How many of the answers are interruptions. -/
def interruptions (answers : List ReadAnswer) : ℕ := answers.count (.err .eintr)

/-- What makes the result right. A failure comes within `maxlen` rounds. A line ends within `maxlen`
rounds, after exactly one interruption. Or the stream ends with room to spare for one byte, after
exactly one interruption in the first `maxlen` rounds. And the number of bytes is an `ssize_t`. -/
def InTime (maxlen : ℕ) (answers : List ReadAnswer) : Prop :=
  match (answers.dropWhile fun a ↦ decide a.Carries).head? with
  | none => False
  | some (.err _) => (carried answers).length < maxlen
  | some (.byte _) => (carried answers).length < maxlen ∧ interruptions (carried answers) = 1 ∧
      (storedBy (carried answers)).length < 9223372036854775808
  | some .eof => (storedBy (carried answers)).length < maxlen ∧
      interruptions ((carried answers).take maxlen) = 1 ∧
      (storedBy (carried answers)).length < 9223372036854775808

variable {n maxlen : ℕ} {xs ys : List ReadAnswer} {acc : List UInt8}

theorem ReadAnswer.length_stored {a : ReadAnswer} (h : a.Carries) :
    a.stored.length + [a].count (.err .eintr) = 1 := by
  cases a with
  | byte c => rfl
  | eof => exact h.elim
  | err e =>
    obtain rfl : e = .eintr := h
    rfl

/-- Every answer that the call goes on after is a byte or an interruption. -/
theorem length_storedBy (h : ∀ a ∈ xs, a.Carries) :
    (storedBy xs).length + interruptions xs = xs.length := by
  induction xs with
  | nil => rfl
  | cons a xs ih =>
    obtain ⟨ha, hxs⟩ := List.forall_mem_cons.1 h
    have hcons : interruptions ([a] ++ xs) = [a].count (.err .eintr) + interruptions xs :=
      List.count_append
    have hhead := ReadAnswer.length_stored ha
    have htail := ih hxs
    rw [storedBy, List.flatMap_cons, List.length_append, ← List.singleton_append, hcons,
      List.length_append, List.length_singleton]
    rw [storedBy] at htail
    omega

/-- There is no newline among what is stored before the end. -/
theorem newline_notMem_storedBy (h : ∀ a ∈ xs, a.Carries) : newline ∉ storedBy xs := by
  intro hmem
  obtain ⟨a, ha, hstored⟩ := List.mem_flatMap.1 hmem
  have hcarries := h a ha
  cases a with
  | byte c => exact hcarries (List.mem_singleton.1 hstored).symm
  | eof => exact hcarries
  | err e => cases hstored

/-! ### What the code does -/

/-- The end of a call. -/
theorem readlineEnd_eq {i : ℕ} (under : CArray n) (hacc : acc.length < n) (w : Calls) :
    readlineEnd i acc.length (under.overlay acc) w =
      .ok ((ssize (i - 1), under.overlay (acc ++ [0])), w) := by
  rw [readlineEnd, bind_of_ok (lift_of_ok (CArray.store_overlay hacc) w), pure_run]

/-- The end of a call that has filled the buffer. -/
theorem readlineEnd_fault {i cur : ℕ} (buf : CArray n) (hcur : n ≤ cur) (w : Calls) :
    readlineEnd i cur buf w = .error (.fault (.index .buf cur)) := by
  rw [readlineEnd, bind_of_error (lift_of_error (CArray.store_of_le hcur) w)]

/-- **The rounds before the end** store their bytes, one round for each answer. -/
theorem readlineFrom_append (under : CArray n) (ys : List ReadAnswer) :
    ∀ {xs : List ReadAnswer} {left i : ℕ} {acc : List UInt8}, (∀ a ∈ xs, a.Carries) →
      xs.length ≤ left → acc.length + (storedBy xs).length ≤ n →
      readlineFrom left i acc.length (under.overlay acc) (Calls.reading (xs ++ ys)) =
        readlineFrom (left - xs.length) (i + xs.length) (acc ++ storedBy xs).length
          (under.overlay (acc ++ storedBy xs)) (Calls.reading ys)
  | [], left, i, acc, _, _, _ => by
    rw [storedBy, List.flatMap_nil, List.append_nil, List.length_nil]
    rfl
  | a :: xs, 0, i, acc, _, hleft, _ => absurd hleft (Nat.not_succ_le_zero _)
  | a :: xs, left + 1, i, acc, hcarries, hleft, hfits => by
    obtain ⟨ha, hxs⟩ := List.forall_mem_cons.1 hcarries
    rw [List.length_cons] at hleft ⊢
    have hnext : left + 1 - (xs.length + 1) = left - xs.length := by omega
    have hround : i + (xs.length + 1) = i + 1 + xs.length := by omega
    have hread : readByte (Calls.reading (a :: xs ++ ys)) = .ok (a, Calls.reading (xs ++ ys)) := rfl
    have hstored : storedBy (a :: xs) = a.stored ++ storedBy xs := List.flatMap_cons
    rw [hstored, List.length_append] at hfits
    rw [readlineFrom, bind_of_ok hread, hnext, hround, hstored, ← List.append_assoc]
    cases a with
    | byte c =>
      have hlength : (acc ++ [c]).length = acc.length + 1 := by
        rw [List.length_append, List.length_singleton]
      have hroom : acc.length + 1 + (storedBy xs).length ≤ n := by
        rw [ReadAnswer.stored, List.length_singleton] at hfits
        omega
      dsimp only
      rw [bind_of_ok (lift_of_ok (CArray.store_overlay (by omega)) _), if_neg ha, ← hlength]
      exact readlineFrom_append under ys hxs (by omega) (by rwa [hlength])
    | eof => exact ha.elim
    | err e =>
      have he : e = .eintr := ha
      dsimp only
      rw [if_pos he, ReadAnswer.stored, List.append_nil]
      rw [ReadAnswer.stored, List.length_nil, Nat.zero_add] at hfits
      exact readlineFrom_append under ys hxs (by omega) hfits

/-! ### What is meant -/

theorem intendedLine_full (answers : List ReadAnswer) (h : acc.length = maxlen) :
    intendedLine maxlen answers acc = some (.line acc) := by
  cases answers <;> exact if_pos h

/-- **The answers before the end** are meant to store their bytes, as long as there is room. -/
theorem intendedLine_append (ys : List ReadAnswer) : ∀ {xs : List ReadAnswer} {acc : List UInt8},
    (∀ a ∈ xs, a.Carries) → acc.length + (storedBy xs).length ≤ maxlen →
      intendedLine maxlen (xs ++ ys) acc = intendedLine maxlen ys (acc ++ storedBy xs)
  | [], acc, _, _ => by
    rw [storedBy, List.flatMap_nil, List.append_nil]
    rfl
  | a :: xs, acc, hcarries, hroom => by
    obtain ⟨ha, hxs⟩ := List.forall_mem_cons.1 hcarries
    have hstored : storedBy (a :: xs) = a.stored ++ storedBy xs := List.flatMap_cons
    rw [hstored] at hroom ⊢
    rcases eq_or_ne acc.length maxlen with hfull | hfull
    · have hnil : a.stored ++ storedBy xs = [] := List.eq_nil_of_length_eq_zero (by omega)
      rw [hnil, List.append_nil, intendedLine_full _ hfull, intendedLine_full _ hfull]
    rw [List.length_append] at hroom
    rw [List.cons_append, ← List.append_assoc]
    cases a with
    | byte c =>
      have hlength : (acc ++ [c]).length = acc.length + 1 := by
        rw [List.length_append, List.length_singleton]
      rw [ReadAnswer.stored, List.length_singleton] at hroom
      rw [intendedLine, if_neg hfull, if_neg ha]
      exact intendedLine_append ys hxs (by omega)
    | eof => exact ha.elim
    | err e =>
      have he : e = .eintr := ha
      rw [intendedLine, if_neg hfull, if_pos he, ReadAnswer.stored, List.append_nil]
      rw [ReadAnswer.stored, List.length_nil, Nat.zero_add] at hroom
      exact intendedLine_append ys hxs hroom

/-- The answers before the end are enough to fill the room. -/
theorem intendedLine_of_ge (ys : List ReadAnswer) : ∀ {xs : List ReadAnswer} {acc : List UInt8},
    (∀ a ∈ xs, a.Carries) → acc.length ≤ maxlen → maxlen ≤ acc.length + (storedBy xs).length →
      intendedLine maxlen (xs ++ ys) acc = some (.line ((acc ++ storedBy xs).take maxlen))
  | [], acc, _, hle, hge => by
    have hfull : acc.length = maxlen := le_antisymm hle hge
    rw [storedBy, List.flatMap_nil, List.append_nil, intendedLine_full _ hfull,
      List.take_of_length_le hle]
  | a :: xs, acc, hcarries, hle, hge => by
    obtain ⟨ha, hxs⟩ := List.forall_mem_cons.1 hcarries
    have hstored : storedBy (a :: xs) = a.stored ++ storedBy xs := List.flatMap_cons
    rcases eq_or_lt_of_le hle with hfull | hroom
    · rw [intendedLine_full _ hfull, ← hfull, List.take_left]
    rw [hstored, List.length_append] at hge
    rw [hstored, List.cons_append, ← List.append_assoc]
    cases a with
    | byte c =>
      have hlength : (acc ++ [c]).length = acc.length + 1 := by
        rw [List.length_append, List.length_singleton]
      rw [ReadAnswer.stored, List.length_singleton] at hge
      rw [intendedLine, if_neg hroom.ne, if_neg ha]
      exact intendedLine_of_ge ys hxs (by omega) (by omega)
    | eof => exact ha.elim
    | err e =>
      have he : e = .eintr := ha
      rw [intendedLine, if_neg hroom.ne, if_pos he, ReadAnswer.stored, List.append_nil]
      rw [ReadAnswer.stored, List.length_nil, Nat.zero_add] at hge
      exact intendedLine_of_ge ys hxs hle hge

/-! ### Comparing the two -/

/-- The result counts the bytes when there was one interruption, and the count is an `ssize_t`. -/
theorem ssize_eq_iff {b e : ℕ} (h : b + e < 18446744073709551616) :
    ssize (↑(b + e) - 1) = ↑b ↔ e = 1 ∧ b < 9223372036854775808 := by
  rw [ssize, Int.bmod]
  split <;> omega

/-- **A call that ends on its own** tells the truth when it has stored what was meant, and its
result is the number of these bytes. -/
theorem tellsWhatItStored_line_iff {answers : List ReadAnswer} {stored bytes : List UInt8} {k : ℤ}
    {w' : Calls} (hrun : ∀ buf : CArray n, readline buf maxlen (Calls.reading answers) =
      .ok ((k, buf.overlay (stored ++ [0])), w')) (hfits : stored.length < n)
    (hstart : stored <+: bytes) :
    TellsWhatItStored n maxlen answers (.line bytes) ↔
      stored = bytes ∧ k = ↑(bytes.countP fun c ↦ decide (c ≠ newline)) := by
  have hlength : (stored ++ [0]).length ≤ n := CArray.length_concat_le hfits
  refine ⟨fun h ↦ ?_, fun ⟨hstored, hk⟩ buf ↦ ?_⟩
  · -- a buffer without zeros of its own shows where the NUL was stored
    obtain ⟨buf', w'', hrun', hbuf⟩ := h (CArray.fill n 1)
    have hresult := Except.ok.inj ((hrun _).symm.trans hrun')
    obtain ⟨hk, rfl⟩ := Prod.mk.inj (Prod.mk.inj hresult).1
    refine ⟨?_, hk⟩
    obtain ⟨more, rfl⟩ := hstart
    rcases more with - | ⟨c, more⟩
    · exact (List.append_nil _).symm
    rw [CArray.bytes_overlay _ hlength, List.append_assoc, List.append_assoc,
      List.prefix_append_right_inj, List.cons_append, List.singleton_append] at hbuf
    obtain ⟨t, ht⟩ := hbuf
    have hdrop : more ++ [0] ++ t = (CArray.fill n 1).bytes.drop (stored ++ [0]).length :=
      (List.cons.inj ht).2
    have hzero : (0 : UInt8) ∈ (CArray.fill n 1).bytes := by
      refine List.mem_of_mem_drop (i := (stored ++ [0]).length) ?_
      rw [← hdrop]
      exact List.mem_append_left _ (List.mem_append_right _ (List.mem_singleton_self 0))
    exact absurd (List.eq_of_mem_replicate hzero) (by decide)
  · subst hstored
    exact ⟨_, _, hk ▸ hrun buf, CArray.prefix_bytes_overlay buf hlength⟩

/-- A call that faults does not tell the truth. -/
theorem not_tellsWhatItStored_of_fault {answers : List ReadAnswer} {e : Stop Fault}
    {o : LineIntent} (hrun : readline (CArray.fill n 1) maxlen (Calls.reading answers) = .error e) :
    ¬ TellsWhatItStored n maxlen answers o := by
  intro h
  cases o with
  | failed =>
    obtain ⟨buf', w', hrun'⟩ := h (CArray.fill n 1)
    rw [hrun] at hrun'
    cases hrun'
  | line bytes =>
    obtain ⟨buf', w', hrun', -⟩ := h (CArray.fill n 1)
    rw [hrun] at hrun'
    cases hrun'

/-! ### The ways out -/

theorem carries_take (hxs : ∀ a ∈ xs, a.Carries) : ∀ a ∈ xs.take maxlen, a.Carries :=
  fun a ha ↦ hxs a (List.mem_of_mem_take ha)

/-- What the first `maxlen` answers store begins what all of them store. -/
theorem isPrefix_storedBy_take : storedBy (xs.take maxlen) <+: storedBy xs := by
  have h : storedBy xs = storedBy (xs.take maxlen) ++ storedBy (xs.drop maxlen) := by
    rw [storedBy, storedBy, storedBy, ← List.flatMap_append, List.take_append_drop]
  rw [h]
  exact List.prefix_append _ _

theorem length_storedBy_take_le (maxlen : ℕ) (xs : List ReadAnswer) :
    (storedBy (xs.take maxlen)).length ≤ (storedBy xs).length :=
  isPrefix_storedBy_take.length_le

/-- The first rounds of a call. -/
theorem readline_append (hxs : ∀ a ∈ xs, a.Carries) (hleft : xs.length ≤ maxlen)
    (hfits : (storedBy xs).length ≤ n) (buf : CArray n) :
    readline buf maxlen (Calls.reading (xs ++ ys)) =
      readlineFrom (maxlen - xs.length) xs.length (storedBy xs).length
        (buf.overlay (storedBy xs)) (Calls.reading ys) := by
  have h : readlineFrom maxlen 0 ([] : List UInt8).length (buf.overlay [])
      (Calls.reading (xs ++ ys)) = _ :=
    readlineFrom_append buf ys hxs hleft (by simpa using hfits)
  rw [CArray.overlay_nil, Nat.zero_add, List.nil_append] at h
  exact h

/-- The call has used up its rounds. -/
theorem readline_of_ge (hxs : ∀ a ∈ xs, a.Carries) (hused : maxlen ≤ xs.length)
    (hfits : (storedBy (xs.take maxlen)).length ≤ n) (buf : CArray n) :
    readline buf maxlen (Calls.reading (xs ++ ys)) =
      readlineEnd maxlen (storedBy (xs.take maxlen)).length
        (buf.overlay (storedBy (xs.take maxlen))) (Calls.reading (xs.drop maxlen ++ ys)) := by
  have hlength : (xs.take maxlen).length = maxlen := by rw [List.length_take, min_eq_left hused]
  have h : readline buf maxlen (Calls.reading (xs.take maxlen ++ (xs.drop maxlen ++ ys))) = _ :=
    readline_append (carries_take hxs) hlength.le hfits buf
  rw [← List.append_assoc, List.take_append_drop, hlength, Nat.sub_self] at h
  exact h

/-- The call has used up its rounds, and there is room for the NUL. -/
theorem readline_used_up (hxs : ∀ a ∈ xs, a.Carries) (hused : maxlen ≤ xs.length)
    (hroom : (storedBy (xs.take maxlen)).length < n) (buf : CArray n) :
    readline buf maxlen (Calls.reading (xs ++ ys)) =
      .ok ((ssize (maxlen - 1), buf.overlay (storedBy (xs.take maxlen) ++ [0])),
        Calls.reading (xs.drop maxlen ++ ys)) :=
  (readline_of_ge hxs hused hroom.le buf).trans (readlineEnd_eq buf hroom _)

/-- The call has a round for the answer that ends the line. -/
theorem exists_readline_round {a : ReadAnswer} (hxs : ∀ a ∈ xs, a.Carries)
    (hleft : xs.length < maxlen) (hfits : (storedBy xs).length ≤ n) (buf : CArray n) :
    ∃ left, readline buf maxlen (Calls.reading (xs ++ a :: ys)) =
      readlineFrom (left + 1) xs.length (storedBy xs).length (buf.overlay (storedBy xs))
        (Calls.reading (a :: ys)) := by
  obtain ⟨left, hleft'⟩ : ∃ left, maxlen - xs.length = left + 1 :=
    ⟨maxlen - xs.length - 1, by omega⟩
  exact ⟨left, hleft' ▸ readline_append hxs hleft.le hfits buf⟩

/-- That answer is a failure. -/
theorem readline_err {e : Errno} (he : e ≠ .eintr) (hxs : ∀ a ∈ xs, a.Carries)
    (hleft : xs.length < maxlen) (hfits : (storedBy xs).length ≤ n) (buf : CArray n) :
    readline buf maxlen (Calls.reading (xs ++ .err e :: ys)) =
      .ok ((-1, buf.overlay (storedBy xs)), Calls.reading ys) := by
  obtain ⟨left, hround⟩ := exists_readline_round hxs hleft hfits buf
  rw [hround, readlineFrom, bind_of_ok (readByte_of_cons rfl)]
  dsimp only
  rw [if_neg he, pure_run]
  rfl

/-- That answer is the newline, which is stored as well. -/
theorem readline_newline (hxs : ∀ a ∈ xs, a.Carries) (hleft : xs.length < maxlen)
    (hroom : (storedBy xs).length < n) (buf : CArray n) :
    readline buf maxlen (Calls.reading (xs ++ .byte newline :: ys)) =
      readlineEnd xs.length (storedBy xs ++ [newline]).length
        (buf.overlay (storedBy xs ++ [newline])) (Calls.reading ys) := by
  obtain ⟨left, hround⟩ := exists_readline_round hxs hleft hroom.le buf
  rw [hround, readlineFrom, bind_of_ok (readByte_of_cons rfl)]
  dsimp only
  rw [bind_of_ok (lift_of_ok (CArray.store_overlay hroom) _), if_pos rfl, List.length_append,
    List.length_singleton]
  rfl

/-- That answer is the end of the stream: the NUL is stored twice. -/
theorem readline_eof (hxs : ∀ a ∈ xs, a.Carries) (hleft : xs.length < maxlen)
    (hroom : (storedBy xs).length < n) (buf : CArray n) :
    readline buf maxlen (Calls.reading (xs ++ .eof :: ys)) =
      .ok ((ssize (xs.length - 1), buf.overlay (storedBy xs ++ [0])), Calls.reading ys) := by
  obtain ⟨left, hround⟩ := exists_readline_round hxs hleft hroom.le buf
  rw [hround, readlineFrom, bind_of_ok (readByte_of_cons rfl)]
  dsimp only
  rw [bind_of_ok (lift_of_ok (CArray.store_overlay hroom) _), readlineEnd,
    bind_of_ok (lift_of_ok (CArray.store_overlay_last hroom) _)]
  rfl

/-! ### What each way out tells -/

theorem countP_storedBy (hxs : ∀ a ∈ xs, a.Carries) :
    (storedBy xs).countP (fun c ↦ decide (c ≠ newline)) = (storedBy xs).length :=
  List.countP_eq_length.2 fun _ hc ↦
    decide_eq_true fun heq ↦ newline_notMem_storedBy hxs (heq ▸ hc)

/-- The number of rounds less one is the number of bytes when one round was an interruption. -/
theorem ssize_rounds_iff {k : ℕ} (hxs : ∀ a ∈ xs, a.Carries) (hk : xs.length = k)
    (hword : k < 18446744073709551616) :
    ssize (k - 1) = ↑(storedBy xs).length ↔
      interruptions xs = 1 ∧ (storedBy xs).length < 9223372036854775808 := by
  have hrounds := length_storedBy hxs
  rw [← hk, ← hrounds]
  exact ssize_eq_iff (by omega)

/-- **The buffer is meant to be filled**, and then the result is wrong, if there is any. -/
theorem not_tellsWhatItStored_full (hxs : ∀ a ∈ xs, a.Carries) (hmaxlen : maxlen ≤ n)
    (hword : maxlen < 18446744073709551616) (hfull : maxlen ≤ (storedBy xs).length) :
    ¬ TellsWhatItStored n maxlen (xs ++ ys) (.line ((storedBy xs).take maxlen)) := by
  have htake : ∀ a ∈ xs.take maxlen, a.Carries := carries_take hxs
  have hlength := length_storedBy hxs
  have hused : maxlen ≤ xs.length := by omega
  have hk : (xs.take maxlen).length = maxlen := by rw [List.length_take, min_eq_left hused]
  have hrounds := length_storedBy htake
  rcases Nat.lt_or_ge (storedBy (xs.take maxlen)).length n with hlt | hge
  · have hstart : storedBy (xs.take maxlen) <+: (storedBy xs).take maxlen :=
      List.prefix_take_iff.2 ⟨isPrefix_storedBy_take, by omega⟩
    rw [tellsWhatItStored_line_iff (readline_used_up hxs hused hlt) hlt hstart]
    rintro ⟨hbytes, hresult⟩
    -- as many bytes as rounds leave no round for an interruption
    rw [← hbytes, countP_storedBy htake, ssize_rounds_iff htake hk hword] at hresult
    have hall := congrArg List.length hbytes
    rw [List.length_take, min_eq_left hfull] at hall
    omega
  · exact not_tellsWhatItStored_of_fault ((readline_of_ge hxs hused (by omega) _).trans
      (readlineEnd_fault _ hge _))

/-- **A failure** makes the result `-1` when there is a round for it. -/
theorem tellsWhatItStored_err_iff {e : Errno} (he : e ≠ .eintr) (hxs : ∀ a ∈ xs, a.Carries)
    (hmaxlen : maxlen ≤ n) (hword : maxlen < 18446744073709551616)
    (hroom : (storedBy xs).length < maxlen) :
    TellsWhatItStored n maxlen (xs ++ .err e :: ys) .failed ↔ xs.length < maxlen := by
  refine ⟨fun h ↦ ?_, fun hlt buf ↦ ?_⟩
  · by_contra hge
    have hle := length_storedBy_take_le maxlen xs
    obtain ⟨buf', w', hrun⟩ := h (CArray.fill n 1)
    rw [readline_used_up hxs (not_lt.1 hge) (by omega)] at hrun
    have hresult : ssize (maxlen - 1) = -1 :=
      (Prod.mk.inj (Prod.mk.inj (Except.ok.inj hrun)).1).1
    rw [ssize, Int.bmod] at hresult
    split at hresult <;> omega
  · exact ⟨_, _, readline_err he hxs hlt (by omega) buf⟩

/-- **A newline** makes the result right when there is a round for it and one interruption. -/
theorem tellsWhatItStored_newline_iff (hxs : ∀ a ∈ xs, a.Carries)
    (hmaxlen : maxlen ≤ n) (hword : maxlen < 18446744073709551616)
    (hroom : (storedBy xs).length < maxlen) :
    TellsWhatItStored n maxlen (xs ++ .byte newline :: ys) (.line (storedBy xs ++ [newline])) ↔
      xs.length < maxlen ∧ interruptions xs = 1 ∧
        (storedBy xs).length < 9223372036854775808 := by
  have hcount : (storedBy xs ++ [newline]).countP (fun c ↦ decide (c ≠ newline)) =
      (storedBy xs).length := by
    rw [List.countP_append, countP_storedBy hxs]
    rfl
  have hlength : (storedBy xs ++ [newline]).length = (storedBy xs).length + 1 := by
    rw [List.length_append, List.length_singleton]
  rcases Nat.lt_or_ge xs.length maxlen with hlt | hge
  · have hend : ∀ buf : CArray n,
        readline buf maxlen (Calls.reading (xs ++ .byte newline :: ys)) = _ :=
      readline_newline hxs hlt (by omega)
    rcases Nat.lt_or_ge (storedBy xs ++ [newline]).length n with hfits | hover
    · rw [tellsWhatItStored_line_iff (fun buf ↦ (hend buf).trans (readlineEnd_eq buf hfits _)) hfits
        (List.prefix_refl _), hcount, ssize_rounds_iff hxs rfl (by omega), and_iff_right rfl,
        and_iff_right hlt]
    · -- the newline has taken the last place of the buffer
      have hrounds := length_storedBy hxs
      refine iff_of_false ?_ (by omega)
      exact not_tellsWhatItStored_of_fault ((hend _).trans (readlineEnd_fault _ hover _))
  · have hle := length_storedBy_take_le maxlen xs
    refine iff_of_false (fun h ↦ ?_) fun h ↦ absurd h.1 (not_lt.2 hge)
    rw [tellsWhatItStored_line_iff (readline_used_up hxs hge (by omega)) (by omega)
      (isPrefix_storedBy_take.trans (List.prefix_append _ _))] at h
    have hmem : newline ∈ storedBy (xs.take maxlen) := by
      rw [h.1]
      exact List.mem_append_right _ (List.mem_singleton_self _)
    exact newline_notMem_storedBy (carries_take hxs) hmem

/-- **The end of the stream** makes the result right when one of the rounds was an interruption. -/
theorem tellsWhatItStored_eof_iff (hxs : ∀ a ∈ xs, a.Carries)
    (hmaxlen : maxlen ≤ n) (hword : maxlen < 18446744073709551616)
    (hroom : (storedBy xs).length < maxlen) :
    TellsWhatItStored n maxlen (xs ++ .eof :: ys) (.line (storedBy xs)) ↔
      interruptions (xs.take maxlen) = 1 ∧ (storedBy xs).length < 9223372036854775808 := by
  rcases Nat.lt_or_ge xs.length maxlen with hlt | hge
  · rw [tellsWhatItStored_line_iff (readline_eof hxs hlt (by omega)) (by omega)
      (List.prefix_refl _), countP_storedBy hxs, ssize_rounds_iff hxs rfl (by omega),
      List.take_of_length_le hlt.le, and_iff_right rfl]
  · have hk : (xs.take maxlen).length = maxlen := by rw [List.length_take, min_eq_left hge]
    have htake : ∀ a ∈ xs.take maxlen, a.Carries := carries_take hxs
    have hrounds := length_storedBy htake
    have hle := length_storedBy_take_le maxlen xs
    have hresult := ssize_rounds_iff htake hk hword
    rw [tellsWhatItStored_line_iff (readline_used_up hxs hge (by omega)) (by omega)
      isPrefix_storedBy_take, countP_storedBy hxs]
    refine ⟨?_, ?_⟩
    · rintro ⟨hbytes, heq⟩
      rw [hbytes] at hresult
      exact hresult.1 heq
    · rintro ⟨hone, hsmall⟩
      -- all the bytes came in the rounds before the last
      have hbytes : storedBy (xs.take maxlen) = storedBy xs :=
        isPrefix_storedBy_take.eq_of_length (by omega)
      rw [hbytes] at hresult
      exact ⟨hbytes, hresult.2 ⟨hone, hsmall⟩⟩

/-! ### The whole call -/

/-- **The answers split** where the line ends or a `read` fails. -/
theorem exists_carried_append (answers : List ReadAnswer) :
    ∃ xs ys, xs = carried answers ∧ ys = answers.dropWhile (fun a ↦ decide a.Carries) ∧
      answers = xs ++ ys ∧ (∀ a ∈ xs, a.Carries) ∧ ∀ a ∈ ys.head?, ¬ a.Carries := by
  refine ⟨_, _, rfl, rfl, List.takeWhile_append_dropWhile.symm, fun a ha ↦ ?_,
    fun a ha hcarries ↦ ?_⟩
  · exact of_decide_eq_true (List.mem_takeWhile_imp (p := fun a : ReadAnswer ↦ decide a.Carries) ha)
  · have hnot := List.head?_dropWhile_not (fun a : ReadAnswer ↦ decide a.Carries) answers
    rw [Option.mem_def.1 ha] at hnot
    exact absurd (decide_eq_true hcarries) (Bool.eq_false_iff.1 hnot)

/-- **When the result tells what was stored**: for every buffer with room for `maxlen` bytes and all
answers that are enough to say what is meant, exactly when the line is over in time. -/
theorem tellsWhatItStored_iff (maxlen : SizeT) (hmaxlen : maxlen ≤ n) {answers : List ReadAnswer}
    {o : LineIntent} (h : intendedLine maxlen answers [] = some o) :
    TellsWhatItStored n maxlen answers o ↔ InTime maxlen answers := by
  obtain ⟨xs, ys, hcarried, hrest, hsplit, hxs, hstop⟩ := exists_carried_append answers
  rw [InTime, ← hcarried, ← hrest]
  rw [hsplit] at h ⊢
  have hlength := length_storedBy hxs
  rcases Nat.lt_or_ge (storedBy xs).length maxlen with hroom | hfull
  · rw [intendedLine_append ys hxs (by simpa using hroom.le), List.nil_append] at h
    rcases ys with - | ⟨a, ys⟩
    · rw [intendedLine, if_neg hroom.ne] at h
      cases h
    have ha := hstop a rfl
    cases a with
    | byte c =>
      obtain rfl : c = newline := not_not.1 ha
      rw [intendedLine, if_neg hroom.ne, if_pos rfl] at h
      obtain rfl := Option.some.inj h
      exact tellsWhatItStored_newline_iff hxs hmaxlen maxlen.2 hroom
    | eof =>
      rw [intendedLine, if_neg hroom.ne] at h
      obtain rfl := Option.some.inj h
      exact (tellsWhatItStored_eof_iff hxs hmaxlen maxlen.2 hroom).trans (and_iff_right hroom).symm
    | err e =>
      have he : e ≠ .eintr := ha
      rw [intendedLine, if_neg hroom.ne, if_neg he] at h
      obtain rfl := Option.some.inj h
      exact tellsWhatItStored_err_iff he hxs hmaxlen maxlen.2 hroom
  · rw [intendedLine_of_ge ys hxs (Nat.zero_le _) (by simpa using hfull), List.nil_append] at h
    obtain rfl := Option.some.inj h
    refine iff_of_false (not_tellsWhatItStored_full hxs hmaxlen maxlen.2 hfull) ?_
    have hlate : ¬ xs.length < maxlen := by omega
    rcases ys with - | ⟨- | - | -, ys⟩
    · exact id
    · exact fun h ↦ hlate h.1
    · exact fun h ↦ not_lt.2 hfull h.1
    · exact hlate

/-- One interruption in `GE\n` makes up for the missing one. -/
theorem tellsWhatItStored_iff_interrupted :
    TellsWhatItStored 8 8 [.byte 71, .err .eintr, .byte 69, .byte newline]
      (.line [71, 69, newline]) :=
  (tellsWhatItStored_iff (n := 8) ⟨8, by decide⟩ (le_refl 8) rfl).2 ⟨by decide, rfl, by decide⟩

/-- The line `GET\n` is reported one too short, and an empty line as a failure. -/
theorem not_tellsWhatItStored_get :
    (intendedLine 8 [.byte 71, .byte 69, .byte 84, .byte newline] [] =
        some (.line [71, 69, 84, newline]) ∧
      ¬ TellsWhatItStored 8 8 [.byte 71, .byte 69, .byte 84, .byte newline]
        (.line [71, 69, 84, newline])) ∧
    intendedLine 8 [.byte newline] [] = some (.line [newline]) ∧
      ¬ TellsWhatItStored 8 8 [.byte newline] (.line [newline]) := by
  refine ⟨⟨rfl, fun h ↦ ?_⟩, rfl, fun h ↦ ?_⟩
  · have hone := ((@tellsWhatItStored_newline_iff 8 8 [.byte 71, .byte 69, .byte 84] []
      (by decide) (by decide) (by decide) (by decide)).1 h).2.1
    exact absurd hone (by decide)
  · have hone := ((@tellsWhatItStored_newline_iff 8 8 [] []
      (by decide) (by decide) (by decide) (by decide)).1 h).2.1
    exact absurd hone (by decide)

end PreforkHttpd
