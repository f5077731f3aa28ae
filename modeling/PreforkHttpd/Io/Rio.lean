import PreforkHttpd.Transition.PartialRun
import PreforkHttpd.Http.Calls

/-!
# When buffered reading delivers the stream

`utils/rio_r_w.h` reads a descriptor through a buffer of `RIO_BUFSIZE` bytes. `rio_read` refills the
buffer when it has nothing left, and copies out as much of it as was asked for. The unread bytes are
the `nread` bytes from `ptr` on; `ptr` and `nread` are kept correctly, but the copy is made from
`rio_buffer`, the **start** of the buffer, and not from `ptr`. The first call after a refill gets
the right bytes, and every further call that is served from the same refill gets its bytes from the
start once more: it repeats some and loses others.

The reader is followed together with everything it has stored for its caller. As long as the bytes
at the start of the buffer happen to be those at `ptr` (`Aligned`), what was delivered, what is
unread and what is still to come make up the stream (`Represents`). A call that finds other bytes
there spoils the output for good, so `faithful_iff` is exact.
-/

open LabelledRun

namespace PreforkHttpd

/-- `RIO_BUFSIZE`. -/
abbrev rioBufsize : ℕ := 4096

/-- `rio_t`, without the descriptor: `ptr` is an index of `rio_buffer`. -/
structure Rio where
  nread : ℤ
  ptr : ℕ
  rioBuffer : CArray rioBufsize
deriving DecidableEq

namespace Rio

/-- `rio_readinit`. It leaves the buffer as it finds it. -/
def readinit (rioBuffer : CArray rioBufsize) : Rio where
  nread := 0
  ptr := 0
  rioBuffer := rioBuffer

/-- `read(fd, rio_buffer, sizeof(rio_buffer))`, whose answers to come are `source`: the value
returned, with the buffer and the answers after it. After the last answer the file is at its end. -/
def read (v : CArray rioBufsize) : List RecvAnswer → ℤ × CArray rioBufsize × List RecvAnswer
  | [] => (0, v, [])
  | .received data :: source =>
    ((data.take rioBufsize).length, CArray.overlay (data.take rioBufsize) v, source)
  | .err _ :: source => (-1, v, source)

/-- `errno` after a `read` that failed. -/
def errno : List RecvAnswer → Option Errno
  | .err e :: _ => some e
  | _ => none

/-- `memcpy(usrbuf, src, cnt)`: the bytes stored. A count that is negative, or goes past the end of
the array, has no defined effect. -/
def memcpy (src : CArray rioBufsize) (cnt : ℤ) : Option (List UInt8) :=
  if 0 ≤ cnt ∧ cnt ≤ rioBufsize then some (src.bytes.take cnt.toNat) else none

/-- The `while` loop of `rio_read`: the value that the function returns from inside it, if it does,
with the reader and the answers after it. One turn is enough, for a `read` that returns a positive
number ends the loop and every other one leaves it. -/
def refill (rio : Rio) (source : List RecvAnswer) : Option ℤ × Rio × List RecvAnswer :=
  if 0 < rio.nread then (none, rio, source)
  else
    let r := read rio.rioBuffer source
    let rio' : Rio := { rio with nread := r.1, rioBuffer := r.2.1 }
    if r.1 < 0 then
      -- an interrupted `read` breaks out of the loop with a negative `nread`
      if errno source = some .eintr then (none, rio', r.2.2) else (some (-1), rio', r.2.2)
    else if r.1 = 0 then (some 0, rio', r.2.2)
    else (none, { rio' with ptr := 0 }, r.2.2)

/-- What a call of `rio_read` comes to: the value returned, the bytes stored at `usrbuf`, and the
reader and the answers after it. -/
structure Result where
  value : ℤ
  stored : List UInt8
  rio : Rio
  source : List RecvAnswer

/-- `rio_read(rp, usrbuf, sz)`; `cnt` is an `int`. -/
def rioRead (sz : ℕ) (rio : Rio) (source : List RecvAnswer) : Option Result :=
  match refill rio source with
  | (some value, rio, source) => some ⟨value, [], rio, source⟩
  | (none, rio, source) =>
    let cnt := if rio.nread < Int.bmod sz 4294967296 then rio.nread else Int.bmod sz 4294967296
    (memcpy rio.rioBuffer cnt).map fun stored ↦
      ⟨cnt, stored, { rio with ptr := rio.ptr + cnt.toNat, nread := rio.nread - cnt }, source⟩

end Rio

/-- What one `read` delivers before the end of the file. -/
abbrev Chunk := { data : List UInt8 // 0 < data.length ∧ data.length ≤ rioBufsize }

/-- The answers of `read` for these chunks. -/
def answers (chunks : List Chunk) : List RecvAnswer := chunks.map fun c ↦ .received c.1

/-- The stream that the chunks are cut from. -/
def streamOf (chunks : List Chunk) : List UInt8 := chunks.flatMap Subtype.val

/-- A size from `1` to `INT_MAX`. -/
abbrev RequestSize := { sz : ℕ // 0 < sz ∧ sz ≤ 2147483647 }

/-! ### Runs of the reader -/

/-- A reader with its stream, and what it has done: the bytes it has stored for its caller, and
whether a call has returned `0`. -/
structure Reading where
  rio : Rio
  source : List RecvAnswer
  output : List UInt8
  ended : Bool

namespace Reading

/-- After `rio_readinit`. -/
def start (rioBuffer : CArray rioBufsize) (chunks : List Chunk) : Reading where
  rio := Rio.readinit rioBuffer
  source := answers chunks
  output := []
  ended := false

/-- One call of `rio_read`. -/
def step (s : Reading) (sz : RequestSize) : Option Reading :=
  (Rio.rioRead sz s.rio s.source).map fun r : Rio.Result ↦
    { rio := r.rio
      source := r.source
      output := s.output ++ r.stored
      ended := s.ended || decide (r.value = 0) }

/-- **The stream is delivered**: what was stored is the beginning of the stream, and all of it once
a call has returned `0`. -/
structure Faithful (stream : List UInt8) (s : Reading) : Prop where
  output_prefix : s.output <+: stream
  output_eq : s.ended = true → s.output = stream

/-- How many bytes a call finds in the buffer and copies. -/
def taken (s : Reading) (sz : ℕ) : ℕ := min sz s.rio.nread.toNat

/-- The call refills the buffer, or the bytes it will copy from the start of the buffer are those at
`ptr`. -/
def Aligned (s : Reading) (sz : RequestSize) : Prop :=
  0 < s.rio.nread → s.rio.rioBuffer.bytes.take (s.taken sz) =
    (s.rio.rioBuffer.bytes.drop s.rio.ptr).take (s.taken sz)

instance (s : Reading) (sz : RequestSize) : Decidable (s.Aligned sz) :=
  inferInstanceAs (Decidable (_ → _))

/-! ### What one call does -/

/-- The bytes in the buffer that were not delivered yet. -/
def unread (s : Reading) : List UInt8 :=
  (s.rio.rioBuffer.bytes.drop s.rio.ptr).take s.rio.nread.toNat

/-- The buffer and its indices are in order, and the source has these chunks left. -/
structure Sound (chunks : List Chunk) (s : Reading) : Prop where
  source_eq : s.source = answers chunks
  nread_nonneg : 0 ≤ s.rio.nread
  fits : s.rio.ptr + s.rio.nread.toNat ≤ rioBufsize

/-- The reader after a refill with the chunk `c`. -/
def filled (s : Reading) (c : Chunk) (chunks : List Chunk) : Reading :=
  { s with
    rio := { nread := c.1.length, ptr := 0, rioBuffer := CArray.overlay c.1 s.rio.rioBuffer }
    source := answers chunks }

/-- The reader after a call that is served from the buffer. -/
def served (s : Reading) (sz : ℕ) : Reading :=
  { s with
    rio := { s.rio with ptr := s.rio.ptr + s.taken sz, nread := s.rio.nread - s.taken sz }
    output := s.output ++ s.rio.rioBuffer.bytes.take (s.taken sz) }

variable {s s' : Reading} {chunks : List Chunk} {sz : RequestSize}

/-- A request size is an `int`. -/
theorem bmod_size (sz : RequestSize) : Int.bmod sz.1 4294967296 = sz.1 := by
  have := sz.2
  exact Int.bmod_eq_of_le (by omega) (by omega)

theorem taken_le (sz : RequestSize) (hs : s.Sound chunks) : s.taken sz ≤ rioBufsize :=
  (Nat.min_le_right _ _).trans ((Nat.le_add_left _ _).trans hs.fits)

/-- With unread bytes in the buffer, the call is served from there. -/
theorem step_of_pos (hs : s.Sound chunks) (hpos : 0 < s.rio.nread) :
    s.step sz = some (s.served sz) := by
  have htaken := taken_le sz hs
  have hcnt : (if s.rio.nread < Int.bmod sz.1 4294967296 then s.rio.nread
      else Int.bmod sz.1 4294967296) = s.taken sz := by
    rw [bmod_size, taken]
    split <;> omega
  have hcopy : Rio.memcpy s.rio.rioBuffer (s.taken sz) =
      some (s.rio.rioBuffer.bytes.take (s.taken sz)) :=
    if_pos ⟨Int.natCast_nonneg _, Int.ofNat_le.2 htaken⟩
  have htakenPos : 0 < s.taken sz := by
    rw [taken]
    omega
  have hvalue : decide ((s.taken sz : ℤ) = 0) = false := decide_eq_false (by omega)
  have hrefill : Rio.refill s.rio s.source = (none, s.rio, s.source) := if_pos hpos
  simp only [step, Rio.rioRead, hrefill, hcnt, hcopy, Option.map_some, Int.toNat_natCast, hvalue,
    Bool.or_false, served]

/-- With none, and a chunk to come, the call goes on as if the buffer had held that chunk. -/
theorem step_of_chunk {c : Chunk} (hs : s.Sound (c :: chunks)) (hzero : s.rio.nread = 0) :
    s.step sz = (s.filled c chunks).step sz := by
  have hc := c.2
  have htake : c.1.take rioBufsize = c.1 := List.take_of_length_le hc.2
  have hread : Rio.read s.rio.rioBuffer s.source =
      (↑c.1.length, CArray.overlay c.1 s.rio.rioBuffer, answers chunks) := by
    rw [hs.source_eq]
    show ((↑(c.1.take rioBufsize).length, CArray.overlay (c.1.take rioBufsize) s.rio.rioBuffer,
      answers chunks) : ℤ × CArray rioBufsize × List RecvAnswer) = _
    rw [htake]
  have hrefill : Rio.refill s.rio s.source =
      (none, (s.filled c chunks).rio, (s.filled c chunks).source) := by
    simp only [Rio.refill, hread, hzero, lt_irrefl, if_false, filled]
    rw [if_neg (by omega), if_neg (by omega)]
  have hrefill' : Rio.refill (s.filled c chunks).rio (s.filled c chunks).source =
      (none, (s.filled c chunks).rio, (s.filled c chunks).source) :=
    if_pos (Int.natCast_pos.2 hc.1)
  simp only [step, Rio.rioRead, hrefill, hrefill']
  rfl

/-- With none, and no chunk to come, the call returns `0`. -/
theorem step_of_end (hs : s.Sound []) (hzero : s.rio.nread = 0) :
    s.step sz = some { s with ended := true } := by
  have hrefill : Rio.refill s.rio s.source = (some 0, s.rio, s.source) := by
    obtain ⟨⟨nread, ptr, buffer⟩, source, output, ended⟩ := s
    obtain rfl : nread = 0 := hzero
    obtain rfl : source = [] := hs.source_eq
    rfl
  simp only [step, Rio.rioRead, hrefill, Option.map_some, decide_true, Bool.or_true,
    List.append_nil]

theorem sound_filled (s : Reading) (c : Chunk) (chunks : List Chunk) :
    (s.filled c chunks).Sound chunks where
  source_eq := rfl
  nread_nonneg := Int.natCast_nonneg _
  fits := by
    show 0 + (c.1.length : ℤ).toNat ≤ rioBufsize
    have := c.2.2
    omega

theorem Sound.served (hs : s.Sound chunks) : (s.served sz).Sound chunks where
  source_eq := hs.source_eq
  nread_nonneg := by
    have := hs.nread_nonneg
    show 0 ≤ s.rio.nread - s.taken sz
    rw [taken]
    omega
  fits := by
    have := hs.fits
    have := hs.nread_nonneg
    show s.rio.ptr + s.taken sz + (s.rio.nread - s.taken sz).toNat ≤ rioBufsize
    rw [taken]
    omega

/-- **One call**: it is served from the buffer, from the chunk that refills it, or comes to the end
of the file. -/
theorem Sound.step_cases (hs : s.Sound chunks) (sz : RequestSize) :
    (0 < s.rio.nread ∧ s.step sz = some (s.served sz)) ∨
      (s.rio.nread = 0 ∧ ∃ c rest, chunks = c :: rest ∧
        s.step sz = some ((s.filled c rest).served sz)) ∨
      (s.rio.nread = 0 ∧ chunks = [] ∧ s.step sz = some { s with ended := true }) := by
  rcases hs.nread_nonneg.lt_or_eq with hpos | hzero
  · exact Or.inl ⟨hpos, step_of_pos hs hpos⟩
  rcases chunks with - | ⟨c, rest⟩
  · exact Or.inr (Or.inr ⟨hzero.symm, rfl, step_of_end hs hzero.symm⟩)
  · refine Or.inr (Or.inl ⟨hzero.symm, c, rest, rfl, ?_⟩)
    rw [step_of_chunk hs hzero.symm]
    exact step_of_pos (sound_filled s c rest) (Int.natCast_pos.2 c.2.1)

/-- `rio_read` always returns. -/
theorem Sound.exists_step (hs : s.Sound chunks) (sz : RequestSize) :
    ∃ s' rest, s.step sz = some s' ∧ s'.Sound rest := by
  obtain ⟨-, hstep⟩ | ⟨-, c, rest, rfl, hstep⟩ | ⟨-, -, hstep⟩ := hs.step_cases sz
  · exact ⟨_, chunks, hstep, hs.served⟩
  · exact ⟨_, rest, hstep, (sound_filled s c rest).served⟩
  · exact ⟨_, chunks, hstep, hs.source_eq, hs.nread_nonneg, hs.fits⟩

theorem Sound.exists_runFrom (hs : s.Sound chunks) (sizes : List RequestSize) :
    ∃ t, runFrom step s sizes = some t := by
  induction sizes generalizing s chunks with
  | nil => exact ⟨s, rfl⟩
  | cons sz sizes ih =>
    obtain ⟨s', rest, hstep, hs'⟩ := hs.exists_step sz
    obtain ⟨t, ht⟩ := ih hs'
    exact ⟨t, runFrom_cons_eq_some_iff.2 ⟨s', hstep, ht⟩⟩

/-! ### What is delivered -/

variable {stream : List UInt8}

/-- **The representation**: the output, the unread bytes and the chunks to come make up the stream,
and there is nothing unread or to come once a call has returned `0`. -/
structure Represents (stream : List UInt8) (chunks : List Chunk) (s : Reading) : Prop
    extends Sound chunks s where
  stream_eq : s.output ++ (s.unread ++ streamOf chunks) = stream
  ended_imp : s.ended = true → s.rio.nread = 0 ∧ chunks = []

theorem represents_start (rioBuffer : CArray rioBufsize) (chunks : List Chunk) :
    Represents (streamOf chunks) chunks (start rioBuffer chunks) where
  source_eq := rfl
  nread_nonneg := le_refl 0
  fits := Nat.zero_le _
  stream_eq := rfl
  ended_imp h := nomatch h

theorem unread_of_nread (hzero : s.rio.nread = 0) : s.unread = [] := by
  rw [unread, hzero]
  rfl

/-- A call served from the buffer takes its bytes off the unread ones. -/
theorem unread_eq (s : Reading) (sz : RequestSize) :
    s.unread = (s.rio.rioBuffer.bytes.drop s.rio.ptr).take (s.taken sz) ++
      (s.served sz).unread := by
  have hle : s.taken sz ≤ s.rio.nread.toNat := Nat.min_le_right _ _
  have hnread : s.rio.nread.toNat = s.taken sz + (s.rio.nread - s.taken sz).toNat := by omega
  show (s.rio.rioBuffer.bytes.drop s.rio.ptr).take s.rio.nread.toNat = _ ++
    (s.rio.rioBuffer.bytes.drop (s.rio.ptr + s.taken sz)).take (s.rio.nread - s.taken sz).toNat
  rw [hnread, List.take_add, List.drop_drop]

/-- **An aligned call delivers the next bytes.** -/
theorem Represents.served (hs : s.Represents stream chunks) (hpos : 0 < s.rio.nread)
    (haligned : s.Aligned sz) : (s.served sz).Represents stream chunks := by
  refine ⟨hs.toSound.served, ?_, fun h ↦ absurd (hs.ended_imp h).1 hpos.ne'⟩
  rw [← hs.stream_eq, unread_eq s sz, ← haligned hpos, List.append_assoc]
  exact List.append_assoc _ _ _

/-- A refill only moves a chunk into the buffer. -/
theorem Represents.filled {c : Chunk} (hs : s.Represents stream (c :: chunks))
    (hzero : s.rio.nread = 0) : (s.filled c chunks).Represents stream chunks := by
  refine ⟨sound_filled s c chunks, ?_, fun h ↦ nomatch (hs.ended_imp h).2⟩
  have hunread : (s.filled c chunks).unread = c.1 := by
    show ((CArray.overlay c.1 s.rio.rioBuffer).bytes.drop 0).take (c.1.length : ℤ).toNat = c.1
    rw [CArray.bytes_overlay _ c.2.2, List.drop_zero, Int.toNat_natCast, List.take_left]
  rw [hunread, ← hs.stream_eq, unread_of_nread hzero]
  rfl

/-- Right after a refill a call is aligned. -/
theorem aligned_filled (s : Reading) (c : Chunk) (chunks : List Chunk) :
    (s.filled c chunks).Aligned sz := fun _ ↦ rfl

/-- **One aligned call** keeps the representation. -/
theorem Represents.step (hs : s.Represents stream chunks) (haligned : s.Aligned sz)
    (h : s.step sz = some s') : ∃ rest, s'.Represents stream rest := by
  obtain ⟨hpos, hstep⟩ | ⟨hzero, c, rest, rfl, hstep⟩ | ⟨hzero, rfl, hstep⟩ :=
    hs.toSound.step_cases sz <;> obtain rfl := Option.some.inj (hstep.symm.trans h)
  · exact ⟨chunks, hs.served hpos haligned⟩
  · exact ⟨rest, (hs.filled hzero).served (Int.natCast_pos.2 c.2.1) (aligned_filled s c rest)⟩
  · exact ⟨[], ⟨hs.source_eq, hs.nread_nonneg, hs.fits⟩, hs.stream_eq, fun _ ↦ ⟨hzero, rfl⟩⟩

theorem Represents.faithful (hs : s.Represents stream chunks) : s.Faithful stream := by
  refine ⟨⟨_, hs.stream_eq⟩, fun h ↦ ?_⟩
  obtain ⟨hzero, rfl⟩ := hs.ended_imp h
  rw [← hs.stream_eq, unread_of_nread hzero]
  exact (List.append_nil _).symm

/-- **A call that is not aligned spoils the output.** -/
theorem Represents.not_prefix (hs : s.Represents stream chunks) (haligned : ¬ s.Aligned sz)
    (h : s.step sz = some s') : ¬ s'.output <+: stream := by
  obtain ⟨hpos, hne⟩ := Classical.not_imp.1 haligned
  obtain rfl := Option.some.inj ((step_of_pos hs.toSound hpos).symm.trans h)
  intro hprefix
  -- the bytes copied and the bytes at `ptr` both come next in the stream, and are equally many
  have hcopied : s.rio.rioBuffer.bytes.take (s.taken sz) <+: s.unread ++ streamOf chunks := by
    rw [← hs.stream_eq] at hprefix
    exact (List.prefix_append_right_inj s.output).1 hprefix
  have hright : (s.rio.rioBuffer.bytes.drop s.rio.ptr).take (s.taken sz) <+:
      s.unread ++ streamOf chunks := by
    rw [unread_eq s sz, List.append_assoc]
    exact List.prefix_append _ _
  have hlength : (s.rio.rioBuffer.bytes.take (s.taken sz)).length =
      ((s.rio.rioBuffer.bytes.drop s.rio.ptr).take (s.taken sz)).length := by
    have hfits := hs.fits
    have hle : s.taken sz ≤ s.rio.nread.toNat := Nat.min_le_right _ _
    rw [List.length_take, List.length_take, List.length_drop, CArray.length_bytes]
    omega
  exact hne ((List.prefix_of_prefix_length_le hcopied hright hlength.le).eq_of_length hlength)

/-- A spoiled output stays spoiled. -/
theorem not_prefix_of_step (hs : ¬ s.output <+: stream) (h : s.step sz = some s') :
    ¬ s'.output <+: stream := by
  obtain ⟨r, -, rfl⟩ := Option.map_eq_some_iff.1 h
  exact fun hprefix ↦ hs ((List.prefix_append _ _).trans hprefix)

/-- **When the stream is delivered.** For every stream and every way of cutting it into chunks, and
for every sequence of request sizes, the calls of `rio_read` all return, and they deliver the stream
if and only if each of them was aligned. -/
theorem faithful_iff (rioBuffer : CArray rioBufsize) (chunks : List Chunk)
    (sizes : List RequestSize) :
    ∃ s, runFrom step (start rioBuffer chunks) sizes = some s ∧
      (s.Faithful (streamOf chunks) ↔ Along step Aligned (start rioBuffer chunks) sizes) := by
  have hstart := represents_start rioBuffer chunks
  obtain ⟨s, hrun⟩ := hstart.toSound.exists_runFrom sizes
  refine ⟨s, hrun, ?_⟩
  exact good_iff_along (fun s ↦ ∃ rest, Represents (streamOf chunks) rest s)
    (fun s ↦ ¬ s.output <+: streamOf chunks)
    (fun ⟨rest, hs⟩ haligned h ↦ hs.step haligned h)
    (fun ⟨rest, hs⟩ haligned h ↦ hs.not_prefix haligned h) not_prefix_of_step
    (fun ⟨rest, hs⟩ ↦ hs.faithful) (fun hlost h ↦ hlost h.output_prefix) hrun ⟨chunks, hstart⟩

/-- A file with the content `12345678`, which one `read` delivers. -/
def eightBytes : List Chunk := [⟨ascii "12345678", by decide⟩]

/-- A request for four bytes. -/
def fourBytes : RequestSize := ⟨4, by decide⟩

/-- Read four bytes at a time, the file comes out as `12341234`. -/
theorem not_faithful_of_fourBytes :
    ∃ s, runFrom step (start (CArray.fill _ 0) eightBytes) [fourBytes, fourBytes] = some s ∧
      s.output = ascii "12341234" ∧ ¬ s.Faithful (streamOf eightBytes) := by
  refine ⟨_, rfl, rfl, fun h ↦ ?_⟩
  exact absurd h.output_prefix (by decide)

end Reading

end PreforkHttpd
