import PreforkHttpd.Http.Calls

/-!
# The error page

`http_module_error` is meant to send a head and, behind it, the file of the error page. It does not
come to that: `get_file_length` reaches the labels of its error paths on every path, and
`unix_error` exits the process (`getFileLength_exits`). So the call returns for no error page
(`httpModuleError_exits`), and nothing is written.

The exit is not all that stands in the way. `sendErrorPage_eq` is what the rest of the function does
if the length is handed to it. The three lines of the head that are formatted are formatted with the
length of the empty string for a bound, and stay empty. The body is read in whole blocks: a page
shorter than a block is read and dropped, and a longer one is sent by the `strlen` of a full block,
which has no NUL.
-/

open Answered

namespace PreforkHttpd

/-! ### Standard input and output -/

/-- What the calls for the file of the error page come to: the descriptor that `open` returns and
the `st_size` that `fstat` gives (`none` for a failure), whether `fopen` returns a stream, and the
bytes in that stream. -/
structure PageFile where
  opened : Option ℤ
  size : Option ℤ
  fopened : Bool
  content : List UInt8

/-- The two streams of `http_module_error`: what is still to be read from `fp_error` and its
end-of-file indicator, and what has been written to `fp`. -/
structure Streams where
  rest : List UInt8
  eof : Bool
  written : List UInt8

/-- The local arrays. -/
inductive PageArray
  | date
  | dateTmp
  | contLen
  | connection
  | buffer
deriving DecidableEq

/-- Why `http_module_error` stops: `unix_error` with its message, or an index outside an array. -/
inductive Halt
  | exit (msg : List UInt8)
  | index (name : PageArray) (i : ℕ)
deriving DecidableEq

/-- Code on the two streams. -/
abbrev PageCode (α : Type) := Code Streams Halt α

/-- `unix_error(msg)`: report, and `exit(0)`. -/
def unixError (msg : List UInt8) : PageCode Unit := fun _ ↦ .error (.fault (.exit msg))

/-- `fputs(s, fp)`. -/
def fputs (s : List UInt8) : PageCode Unit := fun w ↦ .ok ((), { w with written := w.written ++ s })

/-- `feof(fp_error)`. -/
def atEof : PageCode Bool := fun w ↦ .ok (w.eof, w)

/-- `BUFSIZE`. -/
abbrev bufSize : ℕ := 1024

/-- `fread(buffer, BUFSIZE, 1, fp_error)`: one item of `BUFSIZE` bytes, or what is left of the file
and the end-of-file indicator. -/
def fread (buffer : CArray bufSize) : PageCode (ℕ × CArray bufSize) := fun w ↦
  if bufSize ≤ w.rest.length then
    .ok ((1, buffer.overlay (w.rest.take bufSize)), { w with rest := w.rest.drop bufSize })
  else .ok ((0, buffer.overlay w.rest), { w with rest := [], eof := true })

variable {k : ℕ}

/-- `snprintf(v, size, …)` for a format that gives `out`. -/
def snprintf (name : PageArray) (v : CArray k) (size : ℕ) (out : List UInt8) :
    Checked Halt (CArray k) :=
  if size = 0 then pure v else v.storeAll (Halt.index name) 0 (out.take (size - 1) ++ [0])

/-- `snprintf(v, strlen(v), …)`. -/
def snprintfStrlen (name : PageArray) (v : CArray k) (out : List UInt8) :
    Checked Halt (CArray k) := do
  let s ← v.readStr (Halt.index name)
  snprintf name v s.length out

/-- `%d`. -/
def decimal (d : ℤ) : List UInt8 := ascii (toString d)

/-! ### The code -/

/-- The value of an `off_t` kept in an `int`. -/
def intOfOff (d : ℤ) : ℤ := d.bmod 4294967296

/-- The label `err_fstat` of `get_file_length`. -/
def labelErrFstat : PageCode Unit := unixError (ascii "fstat error")

/-- The label `err`, which goes on to the next one. -/
def labelErr : PageCode Unit := do
  unixError (ascii "open error")
  labelErrFstat

/-- `get_file_length(path, len)`: what is left in `*len`, where `len` was. -/
def getFileLength (f : PageFile) (len : ℤ) : PageCode ℤ :=
  match f.opened with
  | none => do
    labelErr
    pure len
  | some _ =>
    match f.size with
    | none => do
      labelErrFstat
      pure len
    | some size => do
      -- no `return` stands between `close(fd)` and the label
      labelErr
      pure (intOfOff size)

/-- `get_current_time(buf, size)`, where `strftime` gives `now`. -/
def getCurrentTime (now : List UInt8) (buf : CArray k) (size : ℕ) : Checked Halt (CArray k) :=
  if now.length < size then buf.storeAll (Halt.index .dateTmp) 0 (now ++ [0]) else pure buf

/-- `protocol`. -/
def protocol : List UInt8 := ascii " HTTP/1.1 400 bad Request \r\n"

/-- `serve`. -/
def serve : List UInt8 := ascii "openresty\r\n"

/-- `Content_Type`. -/
def contentType : List UInt8 := ascii "Content-Type:txt/html\r\n"

/-- `snprintf(date, strlen(date), "Date:%s\r\n", date);` -/
def dateLine (date : CArray 50) : Checked Halt (CArray 50) := do
  let s ← date.readStr (Halt.index .date)
  snprintfStrlen .date date (ascii "Date:" ++ s ++ ascii "\r\n")

/-- `fputs(v, fp)` for a local array, and `fwrite(v, strlen(v), 1, fp)`. -/
def fputsArray (name : PageArray) (v : CArray k) : PageCode Unit := do
  let s ← v.readStr (Halt.index name)
  fputs s

/-- What becomes of the `cnt` items of a `fread`. -/
def copyItem (cnt : ℕ) (buffer : CArray bufSize) : PageCode Unit :=
  if 1 < cnt then unixError (ascii "fread error!")
  else if cnt = 1 then fputsArray .buffer buffer
  else pure ()

/-- The round of `while (!feof(fp_error))`. -/
def copyRound (buffer : CArray bufSize) : PageCode (CArray bufSize ⊕ Unit) := do
  let eof ← atEof
  if eof then pure (.inr ())
  else do
    let r ← fread buffer
    copyItem r.1 r.2
    pure (.inl r.2)

/-- How much is left before the end of the file has been seen. -/
def Streams.left (w : Streams) : ℕ := w.rest.length + if w.eof then 0 else 1

theorem copyItem_eq_ok {cnt : ℕ} {buffer : CArray bufSize} {w w' : Streams}
    (h : copyItem cnt buffer w = .ok ((), w')) : w'.rest = w.rest ∧ w'.eof = w.eof := by
  rw [copyItem] at h
  split at h
  · cases h
  split at h
  · rw [fputsArray, bind_eq_ok_iff] at h
    obtain ⟨s, v, hread, h⟩ := h
    obtain ⟨-, rfl⟩ := lift_eq_ok_iff.1 hread
    cases h
    exact ⟨rfl, rfl⟩
  · cases h
    exact ⟨rfl, rfl⟩

/-- The loop that copies the body. -/
def copyPage : Round Streams.left Halt (CArray bufSize) Unit where
  run := copyRound
  size_lt {s w s' w'} h := by
    rw [copyRound, bind_eq_ok_iff] at h
    obtain ⟨eof, v, heof, h⟩ := h
    obtain ⟨rfl, rfl⟩ := Prod.mk.inj (Except.ok.inj heof)
    split at h
    · cases h
    next hmore =>
      rw [bind_eq_ok_iff] at h
      obtain ⟨r, v, hread, h⟩ := h
      rw [bind_eq_ok_iff] at h
      obtain ⟨_, v', hitem, h⟩ := h
      cases h
      obtain ⟨hrest, heof'⟩ := copyItem_eq_ok hitem
      rw [Streams.left, Streams.left, hrest, heof', if_neg hmore]
      rw [fread] at hread
      split at hread
      next hfull =>
        cases hread
        have hpos : 0 < bufSize := by decide
        rw [List.length_drop, if_neg hmore]
        omega
      next =>
        cases hread
        rw [if_pos rfl, List.length_nil]
        omega

/-- `http_module_error` from the length of the page on. -/
def sendErrorPage (f : PageFile) (date : CArray 50) (len : ℤ) : PageCode Unit := do
  let contLen ← snprintfStrlen .contLen (CArray.fill 50 0)
    (ascii "Content-Length:" ++ decimal len ++ ascii "\r\n")
  let connection ← snprintfStrlen .connection (CArray.fill 50 0) (ascii "Connection: close\r\n")
  fputs protocol
  fputs serve
  fputsArray .date date
  fputs contentType
  fputsArray .contLen contLen
  fputsArray .connection connection
  if f.fopened then copyPage.loop (CArray.fill bufSize 0)
  else unixError (ascii "fopen error!")

/-- `http_module_error(fp)`, where `strftime` gives `now` and the uninitialised `len` is `len`. -/
def httpModuleError (f : PageFile) (now : List UInt8) (len : ℤ) : PageCode Unit := do
  let _dateTmp ← getCurrentTime now (CArray.fill 50 0) 50
  let date ← dateLine (CArray.fill 50 0)
  let len ← getFileLength f len
  sendErrorPage f date len

/-! ### It does not return -/

variable {f : PageFile} {now : List UInt8} {len : ℤ} {w w' : Streams}

/-- Every path through `get_file_length` ends in `unix_error`. -/
theorem getFileLength_exits (len : ℤ) (w : Streams) :
    ∀ f : PageFile, ∃ msg, getFileLength f len w = .error (.fault (.exit msg))
  | ⟨none, _, _, _⟩ => ⟨ascii "open error", rfl⟩
  | ⟨some _, none, _, _⟩ => ⟨ascii "fstat error", rfl⟩
  | ⟨some _, some _, _, _⟩ => ⟨ascii "open error", rfl⟩

/-- A bound that is the length of the empty string leaves nothing of a line. -/
theorem snprintfStrlen_empty (name : PageArray) (out : List UInt8) :
    snprintfStrlen name (CArray.fill 50 0) out = .ok (CArray.fill 50 0) := rfl

theorem dateLine_empty : dateLine (CArray.fill 50 0) = .ok (CArray.fill 50 0) :=
  snprintfStrlen_empty .date (ascii "Date:" ++ [] ++ ascii "\r\n")

theorem exists_getCurrentTime (now : List UInt8) :
    ∃ buf, getCurrentTime now (CArray.fill 50 0) 50 = .ok buf := by
  rw [getCurrentTime]
  split
  next h =>
    exact ⟨_, CArray.storeAll_zero _ _ (by rw [List.length_append]; exact h)⟩
  next => exact ⟨_, rfl⟩

/-- **The whole function exits**, whatever the file. -/
theorem httpModuleError_exits (f : PageFile) (now : List UInt8) (len : ℤ) (w : Streams) :
    ∃ msg, httpModuleError f now len w = .error (.fault (.exit msg)) := by
  obtain ⟨dateTmp, htime⟩ := exists_getCurrentTime now
  obtain ⟨msg, hlength⟩ := getFileLength_exits len w f
  refine ⟨msg, ?_⟩
  rw [httpModuleError, bind_of_ok (lift_of_ok htime w),
    bind_of_ok (lift_of_ok dateLine_empty w), bind_of_error hlength]

/-! ### What it is meant to send -/

/-- A page that can be read. -/
def PageFile.readable (fd : ℤ) (content : List UInt8) : PageFile :=
  ⟨some fd, some content.length, true, content⟩

/-- The call returns and has written the six lines of the head, and behind them the page. -/
def SendsErrorPage (f : PageFile) (now : List UInt8) (len : ℤ) : Prop :=
  ∃ w' date, httpModuleError f now len ⟨f.content, false, []⟩ = .ok ((), w') ∧
    w'.written = protocol ++ serve ++ (ascii "Date:" ++ date ++ ascii "\r\n") ++ contentType ++
      (ascii "Content-Length:" ++ decimal f.content.length ++ ascii "\r\n") ++
      ascii "Connection: close\r\n" ++ f.content

theorem not_sendsErrorPage_of_file (f : PageFile) (now : List UInt8) (len : ℤ) :
    ¬ SendsErrorPage f now len := by
  rintro ⟨w', date, hrun, -⟩
  obtain ⟨msg, hexit⟩ := httpModuleError_exits f now len ⟨f.content, false, []⟩
  rw [hexit] at hrun
  cases hrun

/-- **No error page is sent**: of whatever length and with whatever bytes, at any time. -/
theorem not_sendsErrorPage (fd : ℤ) (content now : List UInt8) (len : ℤ) :
    ¬ SendsErrorPage (.readable fd content) now len :=
  not_sendsErrorPage_of_file _ _ _

/-- The shortest page is no exception. -/
theorem not_sendsErrorPage_short :
    ¬ SendsErrorPage (.readable 3 (ascii "400")) (ascii "2017-01-06 03:06:53") 0 :=
  not_sendsErrorPage_of_file _ _ _

/-! ### What lies behind the exit -/

variable {c written : List UInt8}

/-- A round before the end of the file. -/
theorem copyRound_of_more (buffer : CArray bufSize) (hmore : w.eof = false) :
    copyRound buffer w = (do
      let r ← fread buffer
      copyItem r.1 r.2
      pure (.inl r.2) : PageCode (CArray bufSize ⊕ Unit)) w := by
  have heof : atEof w = .ok (false, w) := by rw [atEof, hmore]
  rw [copyRound, bind_of_ok heof, if_neg Bool.false_ne_true]

/-- A page shorter than a block is read and dropped. -/
theorem copyPage_of_lt (buffer : CArray bufSize) (h : c.length < bufSize) :
    copyPage.loop buffer ⟨c, false, written⟩ = .ok ((), ⟨[], true, written⟩) := by
  have hread : fread buffer ⟨c, false, written⟩ =
      .ok ((0, buffer.overlay c), ⟨[], true, written⟩) := if_neg (not_le.2 h)
  have hround : copyPage.run buffer ⟨c, false, written⟩ =
      .ok (.inl (buffer.overlay c), ⟨[], true, written⟩) :=
    (copyRound_of_more buffer rfl).trans (bind_of_ok hread)
  exact (copyPage.loop_of_inl hround).trans (copyPage.loop_of_inr rfl)

/-- A page that fills a block has its first block measured by a `strlen` without an end. -/
theorem copyPage_of_ge (buffer : CArray bufSize) (h0 : 0 ∉ c) (h : bufSize ≤ c.length) :
    copyPage.loop buffer ⟨c, false, written⟩ = .error (.fault (.index .buffer bufSize)) := by
  have hread : fread buffer ⟨c, false, written⟩ =
      .ok ((1, buffer.overlay (c.take bufSize)), ⟨c.drop bufSize, false, written⟩) := if_pos h
  have hlength : (c.take bufSize).length = bufSize := by rw [List.length_take, min_eq_left h]
  have hstrlen : (buffer.overlay (c.take bufSize)).readStr (Halt.index .buffer) =
      .error (.fault (.index .buffer bufSize)) := by
    refine if_neg fun hzero ↦ ?_
    rw [CArray.bytes_overlay _ hlength.le, hlength,
      List.drop_of_length_le buffer.length_bytes.le, List.append_nil] at hzero
    exact h0 (List.mem_of_mem_take hzero)
  refine copyPage.loop_of_error ((copyRound_of_more buffer rfl).trans ?_)
  refine (bind_of_ok hread).trans ?_
  exact bind_of_error (bind_of_error (lift_of_error hstrlen _))

/-- **The rest of the function** sends three lines of the head and no byte of a page without NULs,
or runs off the end of its buffer. -/
theorem sendErrorPage_eq (h0 : 0 ∉ c) (fd len : ℤ) :
    sendErrorPage (.readable fd c) (CArray.fill 50 0) len ⟨c, false, []⟩ =
      if c.length < bufSize then .ok ((), ⟨[], true, protocol ++ serve ++ contentType⟩)
      else .error (.fault (.index .buffer bufSize)) := by
  have hhead : sendErrorPage (.readable fd c) (CArray.fill 50 0) len ⟨c, false, []⟩ =
      copyPage.loop (CArray.fill bufSize 0) ⟨c, false, protocol ++ serve ++ contentType⟩ := rfl
  rw [hhead]
  split
  next hlt => exact copyPage_of_lt _ hlt
  next hge => exact copyPage_of_ge _ h0 (not_lt.1 hge)

end PreforkHttpd
