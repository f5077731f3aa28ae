import PreforkHttpd.Io.Lines
import PreforkHttpd.Transition.PartialRun

/-!
# When `http_Fgets` agrees with `fgets`

`http_Fgets` of `utils/http_io.c` is written as `fgets` is specified, byte by byte. It keeps the
result of `getc` in a `char`, and that is what it compares with `EOF`. The byte `255` as a `char` is
`-1`, which is `EOF`, so the function takes this byte for the end of the stream: it consumes it,
does not store it, and leaves the rest of the line for the next call. And at the end of the stream
it stores an empty string, where `fgets` leaves the buffer as it is.

Two readers with a stream and a buffer each are followed side by side, one that calls `fgets` and
one that calls `http_Fgets`. As long as they agree, the streams are the same and so are the strings
in the buffers, and `agrees_iff_plain` is exact for the next call. `along_agrees_iff` is the same
for any number of calls.
-/

open Answered LabelledRun

namespace PreforkHttpd

/-! ### The code -/

/-- A byte as a `char`, which is signed. -/
def toChar (b : UInt8) : ℤ := Int.bmod b.toNat 256

/-- `EOF`. -/
def eof : ℤ := -1

/-- `*pc = 0;` and the return. -/
def fgetsReturn {m : ℕ} (c : ℤ) (pc : ℕ) (buffer : CArray m) (stream : List UInt8) :
    Checked IoFault (Fetched m) := do
  let buffer ← buffer.store IoFault.index pc 0
  return ⟨buffer, stream, c = eof ∧ pc = 0⟩

/-- The loop of `http_Fgets`, and what follows it: `pc` is an offset from `buffer`. -/
def httpFgetsLoop {m : ℕ} :
    List UInt8 → ℤ → ℤ → ℕ → CArray m → Checked IoFault (Fetched m)
  | stream, n, c, pc, buffer =>
    if 0 < sizeT (n - 1) then
      match stream with
      | [] => fgetsReturn eof pc buffer []
      | b :: stream =>
        let c := toChar b
        if c = eof then fgetsReturn c pc buffer stream
        else do
          let buffer ← buffer.store IoFault.index pc b
          if c = toChar newline then
            let buffer ← buffer.store IoFault.index (pc + 1) 0
            fgetsReturn c (pc + 1) buffer stream
          else httpFgetsLoop stream (sizeT (n - 1)) c (pc + 1) buffer
    else fgetsReturn c pc buffer stream

/-- `http_Fgets(buffer, n, fp)`, where `c` is what the variable holds before it is set. -/
def httpFgets {m : ℕ} (c : ℤ) (buffer : CArray m) (n : ℕ) (stream : List UInt8) :
    Checked IoFault (Fetched m) :=
  httpFgetsLoop stream n c 0 buffer

/-! ### What it does -/

theorem toChar_inj {a b : UInt8} : toChar a = toChar b ↔ a = b := by
  refine ⟨fun h ↦ UInt8.toNat_inj.1 ?_, congrArg toChar⟩
  have ha := a.toNat_lt
  have hb := b.toNat_lt
  unfold toChar at h
  rw [Int.bmod_def, Int.bmod_def] at h
  split at h <;> split at h <;> omega

/-- **The byte `255` is taken for `EOF`**, and no other byte is. -/
theorem toChar_eq_eof_iff {b : UInt8} : toChar b = eof ↔ b = 255 := by
  have heof : eof = toChar 255 := by decide
  rw [heof, toChar_inj]

/-- What `http_Fgets` stores of the bytes that `fgets` takes. -/
def shown (chunk : List UInt8) : List UInt8 := chunk.takeWhile (· ≠ 255)

/-- How many of them it takes: the byte `255` is taken too. -/
def charsTaken (chunk : List UInt8) : ℕ :=
  (shown chunk).length + if 255 ∈ chunk then 1 else 0

variable {m k n : ℕ} {b : UInt8} {bs done chunk : List UInt8} {buffer : CArray m} {c : ℤ}

theorem shown_cons_eof (chunk : List UInt8) : shown (255 :: chunk) = [] := rfl

theorem charsTaken_cons_eof (chunk : List UInt8) : charsTaken (255 :: chunk) = 1 := by
  rw [charsTaken, shown_cons_eof, if_pos List.mem_cons_self]
  rfl

theorem shown_cons (hb : b ≠ 255) (chunk : List UInt8) : shown (b :: chunk) = b :: shown chunk :=
  List.takeWhile_cons_of_pos (decide_eq_true hb)

theorem charsTaken_cons (hb : b ≠ 255) (chunk : List UInt8) :
    charsTaken (b :: chunk) = charsTaken chunk + 1 := by
  have hmem : 255 ∈ b :: chunk ↔ 255 ∈ chunk := by
    rw [List.mem_cons, or_iff_right (Ne.symm hb)]
  rw [charsTaken, charsTaken, shown_cons hb, List.length_cons, if_congr hmem rfl rfl]
  omega

/-- The NUL goes behind what is stored. -/
theorem fgetsReturn_overlay (h : done.length < m) :
    fgetsReturn c done.length (CArray.overlay done buffer) bs =
      .ok ⟨CArray.overlay (done ++ [0]) buffer, bs, c = eof ∧ done = []⟩ := by
  rw [fgetsReturn, CArray.store_overlay h]
  show Except.ok (Fetched.mk _ bs (decide (c = eof ∧ done.length = 0))) = _
  simp only [List.length_eq_zero_iff]

/-- A line that ends gets its NUL twice. -/
theorem fgetsReturn_newline (h : done.length < m) (hdone : done ≠ []) :
    ((CArray.overlay done buffer).store IoFault.index done.length 0 >>= fun buffer ↦
      fgetsReturn c done.length buffer bs) =
      .ok ⟨CArray.overlay (done ++ [0]) buffer, bs, false⟩ := by
  rw [checked_bind_of_ok (CArray.store_overlay h), fgetsReturn,
    checked_bind_of_ok (CArray.store_overlay_last h)]
  show Except.ok (Fetched.mk _ bs (decide (c = eof ∧ done.length = 0))) = _
  simp [hdone]

/-- **The loop**, with `done` stored and room for `k` bytes. The last value of `c` matters only when
nothing is stored. -/
theorem httpFgetsLoop_overlay (c : ℤ) (buffer : CArray m) (bs done : List UInt8)
    (hk : k + 1 < 18446744073709551616) (hm : done.length + k < m)
    (hdone : done ≠ [] ∨ 0 < k) :
    httpFgetsLoop bs ((k + 1 : ℕ) : ℤ) c done.length (CArray.overlay done buffer) =
      .ok ⟨CArray.overlay (done ++ shown (lineChunk k bs) ++ [0]) buffer,
        bs.drop (charsTaken (lineChunk k bs)), done ++ shown (lineChunk k bs) = []⟩ := by
  induction k generalizing bs done c with
  | zero =>
    have hn : ¬ 0 < sizeT (((0 + 1 : ℕ) : ℤ) - 1) := by decide
    have hdone : done ≠ [] := hdone.resolve_right (lt_irrefl 0)
    unfold httpFgetsLoop
    rw [if_neg hn, fgetsReturn_overlay hm]
    simp [lineChunk, shown, charsTaken, hdone]
  | succ k ih =>
    have hn : sizeT (((k + 1 + 1 : ℕ) : ℤ) - 1) = ((k + 1 : ℕ) : ℤ) := by
      rw [sizeT_of_lt (by omega) (by omega)]
      omega
    unfold httpFgetsLoop
    rw [hn, if_pos (by omega)]
    cases bs with
    | nil =>
      rw [fgetsReturn_overlay (by omega)]
      simp [shown, charsTaken]
    | cons b bs =>
      by_cases heof : b = 255
      · -- the byte is taken for the end of the stream
        subst heof
        rw [lineChunk_cons k bs (by decide), shown_cons_eof, charsTaken_cons_eof, List.append_nil,
          List.drop_one, List.tail_cons]
        dsimp only
        rw [if_pos (by decide), fgetsReturn_overlay (by omega)]
        simp [toChar_eq_eof_iff]
      · have hstore : (CArray.overlay done buffer).store IoFault.index done.length b =
            .ok (CArray.overlay (done ++ [b]) buffer) := CArray.store_overlay (by omega)
        dsimp only
        rw [if_neg (toChar_eq_eof_iff.not.2 heof), checked_bind_of_ok hstore]
        have hlength : (done ++ [b]).length = done.length + 1 := by
          rw [List.length_append, List.length_singleton]
        by_cases hline : b = newline
        · subst hline
          rw [if_pos rfl, lineChunk_newline, shown_cons heof, charsTaken_cons heof, ← hlength,
            fgetsReturn_newline (by omega) (by simp)]
          simp [shown, charsTaken]
        · rw [if_neg (toChar_inj.not.2 hline), lineChunk_cons k bs hline, shown_cons heof,
            charsTaken_cons heof, ← hlength, ih _ _ _ (by omega) (by omega) (Or.inl (by simp))]
          simp

/-- **What a call leaves**: of the bytes that `fgets` takes, those before a byte `255`. -/
theorem httpFgets_eq (c : ℤ) (buffer : CArray m) (bs : List UInt8) (hn : 2 ≤ n) (hm : n ≤ m)
    (hlt : n < 18446744073709551616) :
    httpFgets c buffer n bs = .ok ⟨CArray.overlay (shown (lineChunk (n - 1) bs) ++ [0]) buffer,
      bs.drop (charsTaken (lineChunk (n - 1) bs)), shown (lineChunk (n - 1) bs) = []⟩ := by
  obtain ⟨k, rfl⟩ := Nat.exists_eq_add_of_le' hn
  have hloop := httpFgetsLoop_overlay c buffer bs [] (k := k + 1) (by omega)
    (by rw [List.length_nil]; omega) (Or.inr (Nat.succ_pos k))
  rwa [CArray.overlay_nil] at hloop

/-! ### When it takes a chunk as `fgets` does -/

theorem shown_of_not_mem (h : 255 ∉ chunk) : shown chunk = chunk :=
  List.takeWhile_eq_self_iff.2 fun _ hb ↦ decide_eq_true fun heq ↦ h (heq ▸ hb)

theorem charsTaken_of_not_mem (h : 255 ∉ chunk) : charsTaken chunk = chunk.length := by
  rw [charsTaken, shown_of_not_mem h, if_neg h, Nat.add_zero]

theorem shown_append_eof (h : 255 ∉ done) (bs : List UInt8) : shown (done ++ 255 :: bs) = done := by
  rw [shown, List.takeWhile_append_of_pos, List.takeWhile_cons_of_neg (by decide), List.append_nil]
  exact fun _ hb ↦ decide_eq_true fun heq ↦ h (heq ▸ hb)

theorem charsTaken_append_eof (h : 255 ∉ done) (bs : List UInt8) :
    charsTaken (done ++ 255 :: bs) = done.length + 1 := by
  rw [charsTaken, shown_append_eof h, if_pos (List.mem_append_right _ List.mem_cons_self)]

theorem charsTaken_le (chunk : List UInt8) : charsTaken chunk ≤ chunk.length := by
  by_cases h : 255 ∈ chunk
  · obtain ⟨done, bs, rfl, hdone⟩ := List.eq_append_cons_of_mem h
    rw [charsTaken_append_eof hdone, List.length_append, List.length_cons]
    omega
  · exact (charsTaken_of_not_mem h).le

/-- A last byte does not show if and only if the string ends before it. -/
theorem takeWhile_concat_eq_iff (done : List UInt8) :
    done.takeWhile (· ≠ 0) = (done ++ [255]).takeWhile (· ≠ 0) ↔ 0 ∈ done := by
  induction done with
  | nil => decide
  | cons b done ih =>
    rw [List.cons_append, List.takeWhile_cons, List.takeWhile_cons, List.mem_cons]
    by_cases hb : b = 0
    · simp [hb]
    · rw [if_pos (decide_eq_true hb), if_pos (decide_eq_true hb), List.cons_inj_right, ih]
      exact (or_iff_right (Ne.symm hb)).symm

/-- **A chunk of which nothing is lost**: the byte `255` is at most its last byte, and behind a
NUL. -/
theorem shown_iff (hchunk : chunk ≠ []) :
    (shown chunk ≠ [] ∧ charsTaken chunk = chunk.length ∧
      (shown chunk).takeWhile (· ≠ 0) = chunk.takeWhile (· ≠ 0)) ↔
      ∀ before after, chunk = before ++ 255 :: after → after = [] ∧ 0 ∈ before := by
  by_cases h : 255 ∈ chunk
  · obtain ⟨done, bs, rfl, hdone⟩ := List.eq_append_cons_of_mem h
    rw [shown_append_eof hdone, charsTaken_append_eof hdone, List.length_append, List.length_cons]
    refine ⟨?_, fun hall ↦ ?_⟩
    · rintro ⟨-, hlength, hstring⟩ before after heq
      obtain rfl : bs = [] := List.length_eq_zero_iff.1 (by omega)
      have hzero := (takeWhile_concat_eq_iff done).1 hstring
      -- the last byte of the chunk is its only byte `255`
      rcases List.eq_nil_or_concat after with rfl | ⟨after, b, rfl⟩
      · obtain ⟨rfl, -⟩ := List.append_inj' heq rfl
        exact ⟨rfl, hzero⟩
      · rw [List.concat_eq_append, ← List.cons_append, ← List.append_assoc] at heq
        obtain ⟨rfl, -⟩ := List.append_inj' heq rfl
        exact absurd (List.mem_append_right _ List.mem_cons_self) hdone
    · obtain ⟨rfl, hzero⟩ := hall done bs rfl
      exact ⟨List.ne_nil_of_mem hzero, rfl, (takeWhile_concat_eq_iff done).2 hzero⟩
  · rw [shown_of_not_mem h, charsTaken_of_not_mem h]
    refine iff_of_true ⟨hchunk, rfl, rfl⟩ fun before after heq ↦ absurd ?_ h
    exact heq ▸ List.mem_append_right _ List.mem_cons_self

/-! ### Side by side -/

/-- A reader that calls `fgets`, and a reader that calls `http_Fgets`. -/
structure Readers (m : ℕ) where
  iso : Fetched m
  own : Fetched m

/-- The sizes that a buffer of `m` bytes may be given to hold: room for a byte and its NUL. -/
abbrev FgetsSize (m : ℕ) := { n : ℕ // 2 ≤ n ∧ n ≤ m ∧ n < 18446744073709551616 }

namespace Readers

/-- Both have the same stream before them and the same buffer. -/
def start (buffer : CArray m) (stream : List UInt8) : Readers m :=
  ⟨⟨buffer, stream, false⟩, ⟨buffer, stream, false⟩⟩

/-- Each makes its call. -/
def step (c : ℤ) (s : Readers m) (n : FgetsSize m) : Option (Readers m) :=
  match fgets IoFault.index s.iso.buffer n s.iso.stream,
    httpFgets c s.own.buffer n s.own.stream with
  | .ok iso, .ok own => some ⟨iso, own⟩
  | _, _ => none

/-- **The calls agree**: the same result, the same string, the same rest of the stream. -/
structure Same (s : Readers m) : Prop where
  null : s.iso.null = s.own.null
  stream : s.iso.stream = s.own.stream
  string : s.iso.buffer.cstr = s.own.buffer.cstr

/-- The call of `fgets` that comes next is a **plain** one: at the end of the stream the buffer
holds the empty string, and a byte `255` is taken only as the last byte of a chunk that has a NUL
before it. -/
structure Plain (s : Readers m) (n : FgetsSize m) : Prop where
  atEnd : s.iso.stream = [] → s.iso.buffer.cstr = []
  lastEof : ∀ before after, lineChunk (n - 1) s.iso.stream = before ++ 255 :: after →
    after = [] ∧ 0 ∈ before

variable {s s' : Readers m} {sz : FgetsSize m} {stream : List UInt8} {sizes : List (FgetsSize m)}

/-- What is left of the stream tells how much was taken. -/
theorem drop_eq_drop_iff {i j : ℕ} (hi : i ≤ bs.length) (hj : j ≤ bs.length) :
    bs.drop i = bs.drop j ↔ i = j := by
  refine ⟨fun h ↦ ?_, fun h ↦ h ▸ rfl⟩
  have hlength := congrArg List.length h
  rw [List.length_drop, List.length_drop] at hlength
  omega

theorem step_of_ok {iso own : Fetched m}
    (hiso : fgets IoFault.index s.iso.buffer sz s.iso.stream = .ok iso)
    (hown : httpFgets c s.own.buffer sz s.own.stream = .ok own) :
    step c s sz = some ⟨iso, own⟩ := by
  rw [step, hiso, hown]

/-- At the end of the stream both return a null pointer, and `http_Fgets` has emptied its buffer. -/
theorem exists_step_of_nil (c : ℤ) (hs : s.Same) (hstream : s.iso.stream = []) :
    ∃ s', step c s sz = some s' ∧ (s'.Same ↔ s.Plain sz) := by
  obtain ⟨n, hn, hm, hlt⟩ := sz
  have hiso : fgets IoFault.index s.iso.buffer n s.iso.stream = .ok ⟨s.iso.buffer, [], true⟩ := by
    rw [hstream, fgets_nil]
  have hown := httpFgets_eq c s.own.buffer s.own.stream hn hm hlt
  rw [← hs.stream, hstream, lineChunk_nil] at hown
  refine ⟨_, step_of_ok hiso (by rw [← hs.stream, hstream]; exact hown), ?_⟩
  have hempty : (CArray.overlay (shown [] ++ [0]) s.own.buffer).cstr = [] :=
    CArray.cstr_overlay (show 0 < m by omega)
  refine ⟨fun h ↦ ⟨fun _ ↦ h.string.trans hempty, fun before after heq ↦ ?_⟩,
    fun h ↦ ⟨rfl, rfl, (h.atEnd hstream).trans hempty.symm⟩⟩
  rw [hstream, lineChunk_nil] at heq
  exact absurd heq.symm (List.append_ne_nil_of_right_ne_nil _ (List.cons_ne_nil _ _))

/-- Two readers that have taken from the same chunk. -/
theorem same_chunk_iff {isoBuffer ownBuffer : CArray m} (hstream : chunk.length ≤ stream.length)
    (hlength : chunk.length < m) :
    Same ⟨⟨CArray.overlay (chunk ++ [0]) isoBuffer, stream.drop chunk.length, false⟩,
      ⟨CArray.overlay (shown chunk ++ [0]) ownBuffer, stream.drop (charsTaken chunk),
        shown chunk = []⟩⟩ ↔
      shown chunk ≠ [] ∧ charsTaken chunk = chunk.length ∧
        (shown chunk).takeWhile (· ≠ 0) = chunk.takeWhile (· ≠ 0) := by
  have hdrop := drop_eq_drop_iff hstream ((charsTaken_le chunk).trans hstream)
  have hiso : (CArray.overlay (chunk ++ [0]) isoBuffer).cstr = _ := CArray.cstr_overlay hlength
  have hown : (CArray.overlay (shown chunk ++ [0]) ownBuffer).cstr = _ :=
    CArray.cstr_overlay ((List.takeWhile_prefix _).length_le.trans_lt hlength)
  refine ⟨fun h ↦ ⟨?_, ?_, ?_⟩, fun h ↦ ⟨?_, ?_, ?_⟩⟩
  · exact of_decide_eq_false h.null.symm
  · exact (hdrop.1 h.stream).symm
  · exact hown.symm.trans (h.string.symm.trans hiso)
  · exact (decide_eq_false h.1).symm
  · exact hdrop.2 h.2.1.symm
  · exact hiso.trans (h.2.2.symm.trans hown.symm)

/-- Before the end of the stream the two of them take from the same chunk. -/
theorem exists_step_of_ne_nil (c : ℤ) (hs : s.Same) (hstream : s.iso.stream ≠ []) :
    ∃ s', step c s sz = some s' ∧ (s'.Same ↔ s.Plain sz) := by
  obtain ⟨n, hn, hm, hlt⟩ := sz
  have hiso := fgets_of_ne_nil IoFault.index s.iso.buffer (by omega) hm hstream
  have hown := httpFgets_eq c s.own.buffer s.own.stream hn hm hlt
  rw [← hs.stream] at hown
  refine ⟨_, step_of_ok hiso (by rw [← hs.stream]; exact hown), ?_⟩
  have hchunk : lineChunk (n - 1) s.iso.stream ≠ [] := lineChunk_ne_nil (by omega) hstream
  refine (same_chunk_iff (lineChunk_isPrefix _ _).length_le ?_).trans ((shown_iff hchunk).trans
    ⟨fun h ↦ ⟨fun hnil ↦ absurd hnil hstream, h⟩, fun h ↦ h.lastEof⟩)
  exact length_lineChunk_lt (by omega) hm _

/-- **One more call**: neither runs off its buffer, and they agree if and only if the call is a
plain one. -/
theorem agrees_iff_plain (c : ℤ) (hs : s.Same) (sz : FgetsSize m) :
    ∃ s', step c s sz = some s' ∧ (s'.Same ↔ s.Plain sz) := by
  by_cases hstream : s.iso.stream = []
  · exact exists_step_of_nil c hs hstream
  · exact exists_step_of_ne_nil c hs hstream

theorem same_start (buffer : CArray m) (stream : List UInt8) : (start buffer stream).Same :=
  ⟨rfl, rfl, rfl⟩

/-- **When `http_Fgets` agrees with `fgets`.** On any stream, in any buffer and for any number of
calls, all calls return and agree if and only if all of them are plain. -/
theorem throughout_same_iff (c : ℤ) (buffer : CArray m) (stream : List UInt8)
    (sizes : List (FgetsSize m)) :
    ((∃ t, runFrom (step c) (start buffer stream) sizes = some t) ∧
      Throughout (step c) Same (start buffer stream) sizes) ↔
      Along (step c) Plain (start buffer stream) sizes := by
  have hs := same_start buffer stream
  have hiff : ∀ {t}, runFrom (step c) (start buffer stream) sizes = some t →
      (Throughout (step c) Same (start buffer stream) sizes ↔
        Along (step c) Plain (start buffer stream) sizes) := fun hrun ↦ by
    refine throughout_iff_along (fun hs hplain hstep ↦ ?_) (fun hs ↦ hs)
      (fun hs hplain hstep ↦ ?_) hrun hs
    all_goals
      obtain ⟨s', hstep', hiff⟩ := agrees_iff_plain c hs _
      obtain rfl := Option.some.inj (hstep.symm.trans hstep')
    · exact hiff.2 hplain
    · exact hiff.not.2 hplain
  refine ⟨fun ⟨⟨t, hrun⟩, hall⟩ ↦ (hiff hrun).1 hall, fun h ↦ ?_⟩
  obtain ⟨t, hrun⟩ := exists_runFrom_of_along Same (fun hs hplain ↦ by
    obtain ⟨s', hstep, hiff⟩ := agrees_iff_plain c hs _
    exact ⟨s', hstep, hiff.2 hplain⟩) hs h
  exact ⟨⟨t, hrun⟩, (hiff hrun).2 h⟩

/-- Of the bytes `a`, `255`, `b` and a newline, `fgets` delivers the whole line, and `http_Fgets`
one letter. -/
theorem not_throughout_same_of_eof :
    ∃ t, runFrom (step 0) (start (CArray.fill 8 0) [97, 255, 98, 10]) [⟨8, by decide⟩] = some t ∧
      t.iso.buffer.cstr = [97, 255, 98, 10] ∧ t.own.buffer.cstr = [97] ∧
      ¬ Throughout (step 0) Same (start (CArray.fill 8 0) [97, 255, 98, 10]) [⟨8, by decide⟩] := by
  have hrun : runFrom (step 0) (start (CArray.fill 8 0) [97, 255, 98, 10]) [⟨8, by decide⟩] =
    some ⟨⟨⟨[97, 255, 98, 10, 0, 0, 0, 0], rfl⟩, [], false⟩,
      ⟨⟨[97, 0, 0, 0, 0, 0, 0, 0], rfl⟩, [98, 10], false⟩⟩ := by
    rw [runFrom_cons_eq_some_iff]
    exact ⟨_, step_of_ok (by decide) (by decide), rfl⟩
  refine ⟨_, hrun, by decide, by decide, fun h ↦ ?_⟩
  cases (h _ _ (List.prefix_refl _) hrun).stream

end Readers

end PreforkHttpd
