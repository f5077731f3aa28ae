import PreforkHttpd.Dispatch.Transient
import PreforkHttpd.Io.Lines
import PreforkHttpd.Memory.CString

/-!
# Reading the configuration

`file_param` of `utils.h` reads the address and the port to listen on from a file with lines such as
`@127.0.0.1:8080@`. For each line it looks for a place to start, takes the token up to a `':'` for
the address and the token up to an `'@'` for the port, and copies both first to local arrays and
then to the blocks that `Init_sockpair` has allocated.

The place to start is computed in two steps, and the second forgets the first: `pos` is the number
of spaces, and then the number of `'@'` behind them. So the code starts so many bytes from the start
of the **line** (`scanned`).

All arrays are of the same size, so everything that a line holds fits (`line_of_fields_eq_some`);
what can go wrong in a line is that a token is missing, in which case a null pointer is passed to
`strcpy` (`line_of_fields_eq_none`). `fileParam_eq` is the whole loop as a run over the lines.
-/

open Answered LabelledRun

namespace PreforkHttpd

/-! ### The code -/

/-- `BUFSIZE`. -/
abbrev bufsize : ℕ := 1024

/-- `' '`, `'@'` and `':'`. -/
abbrev space : UInt8 := 32

@[inherit_doc space] abbrev atSign : UInt8 := 64

@[inherit_doc space] abbrev colon : UInt8 := 58

/-- A byte of an address or a port. -/
def FieldByte (b : UInt8) : Prop := b ≠ space ∧ b ≠ atSign ∧ b ≠ colon ∧ b ≠ newline

instance (b : UInt8) : Decidable (FieldByte b) := inferInstanceAs (Decidable (_ ∧ _ ∧ _ ∧ _))

/-- The arrays of `file_param`, and the two blocks. -/
inductive ConfArray
  | info
  | ip
  | port
  | stIpAddr
  | stPort
deriving DecidableEq

/-- What is undefined in C: an access outside an array, a null pointer given to `strcpy`. -/
inductive ConfFault
  | index (a : ConfArray) (i : ℕ)
  | null
deriving DecidableEq

/-- `sock_pair`: the blocks that its pointers point to. -/
@[ext] structure SockPair where
  ipAddr : CArray bufsize
  port : CArray bufsize
deriving DecidableEq

/-- The memory of `file_param`. -/
structure FileParam where
  info : CArray bufsize
  ip : CArray bufsize
  port : CArray bufsize
  st : SockPair
deriving DecidableEq

/-- `strcpy` from where `strtok` points to. -/
def strcpyToken (loc : ℕ → ConfFault) (v : CArray bufsize) (t : CArray.Strtok bufsize) :
    Checked ConfFault (CArray bufsize) :=
  match t.start with
  | none => .error (.fault .null)
  | some i => (t.array.readFrom (.index .info) i).bind (v.strcpy loc)

namespace FileParam

/-- What `file_param` does with a line. -/
def line (s : FileParam) : Checked ConfFault FileParam := do
  let pos ← s.info.strspn (.index .info) 0 [space]
  let pos ← s.info.strspn (.index .info) pos [atSign]
  let t ← s.info.strtok (.index .info) pos [colon]
  let ip ← strcpyToken (.index .ip) s.ip t
  let t ← t.array.strtok (.index .info) t.next [atSign]
  let port ← strcpyToken (.index .port) s.port t
  let stIpAddr ← (ip.readFrom (.index .ip) 0).bind (s.st.ipAddr.strcpy (.index .stIpAddr))
  let stPort ← (port.readFrom (.index .port) 0).bind (s.st.port.strcpy (.index .stPort))
  return ⟨t.array, ip, port, stIpAddr, stPort⟩

/-- The round of `while ((fgets(info, BUFSIZE, fp)) != NULL)`. -/
def round (s : FileParam) : Code (List UInt8) ConfFault (FileParam ⊕ FileParam) := fun file => do
  let f ← fgets (.index .info) s.info bufsize file
  let s := { s with info := f.buffer }
  if f.null then return (.inr s, f.stream)
  else
    let s ← s.line
    return (.inl s, f.stream)

/-- The memory once `fgets` has stored a line. -/
def fetch (s : FileParam) (line : List UInt8) : FileParam :=
  { s with info := CArray.overlay (line ++ [0]) s.info }

variable {s s' t : FileParam} {file rest : List UInt8}

theorem round_nil (s : FileParam) : s.round [] = .ok (.inr s, []) := by
  rw [round, checked_bind_of_ok (fgets_nil _ _ _)]
  rfl

/-- Before the end of the file, a line is fetched and dealt with. -/
theorem round_of_ne_nil (s : FileParam) (hfile : file ≠ []) : s.round file =
    (s.fetch (lineChunk (bufsize - 1) file)).line.map fun s ↦
      (.inl s, file.drop (lineChunk (bufsize - 1) file).length) := by
  have hfetched := fgets_of_ne_nil (ConfFault.index .info) s.info (n := bufsize) (by decide)
    (le_refl _) hfile
  rw [round, checked_bind_of_ok hfetched]
  show (s.fetch (lineChunk (bufsize - 1) file)).line.bind _ = _
  cases (s.fetch (lineChunk (bufsize - 1) file)).line <;> rfl

/-- A round that goes round again has read something. -/
theorem size_lt_of_round (h : s.round file = .ok (.inl s', rest)) :
    rest.length < file.length := by
  by_cases hfile : file = []
  · rw [hfile, round_nil] at h
    cases h
  · rw [round_of_ne_nil s hfile] at h
    have hchunk := List.length_pos_of_ne_nil
      (lineChunk_ne_nil (k := bufsize - 1) (by decide) hfile)
    have hlength := List.length_pos_of_ne_nil hfile
    cases hline : (s.fetch (lineChunk (bufsize - 1) file)).line with
    | error e =>
      rw [hline] at h
      cases h
    | ok t =>
      rw [hline] at h
      obtain ⟨-, rfl⟩ := Prod.mk.inj (Except.ok.inj h)
      rw [List.length_drop]
      omega

/-- The `while` of `file_param`. -/
def loop : Round (fun file : List UInt8 ↦ file.length) ConfFault FileParam FileParam where
  run := round
  size_lt := size_lt_of_round

/-- The arrays are cleared before the loop. -/
def start (st : SockPair) : FileParam :=
  ⟨CArray.fill _ 0, CArray.fill _ 0, CArray.fill _ 0, st⟩

end FileParam

/-- `file_param`, on the content of the file if it can be opened. -/
def fileParam (st : SockPair) (file : Option (List UInt8)) :
    Checked ConfFault (Wrapped SockPair) :=
  match file with
  | none => .ok (.exited 0)
  | some content => (FileParam.loop.loop (FileParam.start st) content).map fun p ↦ .returned p.1.st

/-- `Init_sockpair`: the blocks come from `calloc`. -/
def initSockpair (file : Option (List UInt8)) : Checked ConfFault (Wrapped SockPair) :=
  fileParam ⟨CArray.fill _ 0, CArray.fill _ 0⟩ file

/-! ### A line -/

/-- The text of a line, up to its first NUL. -/
def lineText (line : List UInt8) : List UInt8 := line.takeWhile (· ≠ 0)

/-- Where the tokens of a line are looked for: behind as many bytes as there are `'@'` behind its
first spaces. -/
def scanned (text : List UInt8) : List UInt8 :=
  text.drop ((text.dropWhile (· ∈ [space])).takeWhile (· ∈ [atSign])).length

/-- The two tokens of a line, if both are there. -/
def fields (text : List UInt8) : Option (List UInt8 × List UInt8) :=
  (firstToken [colon] (scanned text)).bind fun ip ↦
    (firstToken [atSign] ip.2).map fun port ↦ (ip.1, port.1)

namespace FileParam

variable {s : FileParam} {text ip port : List UInt8}

/-- **The scan** for the place to start. -/
theorem strspn_strspn {v : CArray bufsize} (h : CArray.StringAt v 0 text) :
    ∃ i j, v.strspn (ConfFault.index .info) 0 [space] = .ok i ∧
      v.strspn (ConfFault.index .info) i [atSign] = .ok j ∧
      CArray.StringAt v j (scanned text) := by
  have hspaces : CArray.StringAt v (text.takeWhile (· ∈ [space])).length
      (text.dropWhile (· ∈ [space])) := by
    have hsplit := List.takeWhile_append_dropWhile (p := (· ∈ [space])) (l := text)
    rw [← Nat.zero_add (List.length _)]
    exact CArray.StringAt.add (hsplit.symm ▸ h)
  refine ⟨_, _, CArray.strspn_of_stringAt h, CArray.strspn_of_stringAt hspaces, ?_⟩
  set pos := ((text.dropWhile (· ∈ [space])).takeWhile (· ∈ [atSign])).length
  have hpos : pos ≤ text.length :=
    (List.takeWhile_prefix _).length_le.trans (List.dropWhile_suffix _).length_le
  have hstart := CArray.StringAt.add ((List.take_append_drop pos text).symm ▸ h)
  rwa [List.length_take_of_le hpos, Nat.zero_add] at hstart

/-- A token is copied. -/
theorem strcpyToken_of_stringAt {loc : ℕ → ConfFault} {v array : CArray bufsize} {i next : ℕ}
    {w : List UInt8} (h : CArray.StringAt array i w) :
    strcpyToken loc v ⟨some i, next, array⟩ = .ok (CArray.overlay (w ++ [0]) v) := by
  have hlength : (w ++ [0]).length ≤ bufsize := CArray.length_concat_le h.length_lt
  show (array.readFrom _ i).bind _ = _
  rw [CArray.readFrom_of_stringAt h]
  exact CArray.storeAll_zero _ _ hlength

/-- What was copied to an array is copied to another. -/
theorem copy_overlay {loc loc' : ℕ → ConfFault} {v v' : CArray bufsize} {w : List UInt8}
    (hw : 0 ∉ w) (h : w.length < bufsize) :
    ((CArray.overlay (w ++ [0]) v).readFrom loc 0).bind (v'.strcpy loc') =
      .ok (CArray.overlay (w ++ [0]) v') := by
  have hlength : (w ++ [0]).length ≤ bufsize := CArray.length_concat_le h
  have hstring := CArray.stringAt_overlay (v := v) h
  rw [CArray.takeWhile_ne_nul hw] at hstring
  rw [CArray.readFrom_of_stringAt hstring]
  exact CArray.storeAll_zero _ _ hlength

/-- **A token is missing**: a null pointer is given to `strcpy`. -/
theorem line_of_fields_eq_none (h : CArray.StringAt s.info 0 text) (hfields : fields text = none) :
    s.line = .error (.fault .null) := by
  obtain ⟨i, j, hi, hj, hscanned⟩ := strspn_strspn h
  rw [line, checked_bind_of_ok hi, checked_bind_of_ok hj]
  cases hip : firstToken [colon] (scanned text) with
  | none =>
    obtain ⟨k, hk⟩ := CArray.strtok_of_token_eq_none (ConfFault.index .info) hscanned hip
    rw [checked_bind_of_ok hk]
    rfl
  | some p =>
    obtain ⟨ip, rest⟩ := p
    obtain ⟨k, next, v, hk, hword, hnext⟩ :=
      CArray.strtok_of_token_eq_some (ConfFault.index .info) hscanned hip
    have hport : firstToken [atSign] rest = none := by
      rwa [fields, hip, Option.bind_some, Option.map_eq_none_iff] at hfields
    obtain ⟨l, hl⟩ := CArray.strtok_of_token_eq_none (ConfFault.index .info) hnext hport
    rw [checked_bind_of_ok hk, checked_bind_of_ok (strcpyToken_of_stringAt hword),
      checked_bind_of_ok hl]
    rfl

/-- The memory once a line with these tokens has been dealt with, but for the array `info`. -/
def stored (s : FileParam) (info : CArray bufsize) (ip port : List UInt8) : FileParam :=
  ⟨info, CArray.overlay (ip ++ [0]) s.ip, CArray.overlay (port ++ [0]) s.port,
    CArray.overlay (ip ++ [0]) s.st.ipAddr, CArray.overlay (port ++ [0]) s.st.port⟩

/-- **Both tokens are there**: they are copied to both places, and fit. -/
theorem line_of_fields_eq_some (h : CArray.StringAt s.info 0 text)
    (hfields : fields text = some (ip, port)) :
    0 ∉ ip ∧ ip.length < bufsize ∧ 0 ∉ port ∧ port.length < bufsize ∧
      ∃ info, s.line = .ok (s.stored info ip port) := by
  rw [fields, Option.bind_eq_some_iff] at hfields
  obtain ⟨⟨ip', rest⟩, hip, hfields⟩ := hfields
  obtain ⟨⟨port', rest'⟩, hport, hfields⟩ := Option.map_eq_some_iff.1 hfields
  obtain ⟨rfl, rfl⟩ := Prod.mk.inj hfields
  obtain ⟨i, j, hi, hj, hscanned⟩ := strspn_strspn h
  obtain ⟨k, next, v, hk, hip, hnext⟩ :=
    CArray.strtok_of_token_eq_some (ConfFault.index .info) hscanned hip
  obtain ⟨l, next', v', hl, hport, -⟩ :=
    CArray.strtok_of_token_eq_some (ConfFault.index .info) hnext hport
  refine ⟨hip.not_mem, hip.length_lt, hport.not_mem, hport.length_lt, v', ?_⟩
  rw [line, checked_bind_of_ok hi, checked_bind_of_ok hj, checked_bind_of_ok hk,
    checked_bind_of_ok (strcpyToken_of_stringAt hip), checked_bind_of_ok hl,
    checked_bind_of_ok (strcpyToken_of_stringAt hport),
    checked_bind_of_ok (copy_overlay hip.not_mem hip.length_lt),
    checked_bind_of_ok (copy_overlay hport.not_mem hport.length_lt)]
  rfl

/-! ### The lines of a file -/

/-- A line, from its `fgets` on. -/
def step (s : FileParam) (line : List UInt8) : Option FileParam :=
  match (s.fetch line).line with
  | .ok s' => some s'
  | .error _ => none

variable {line content : List UInt8}

/-- What a line leaves at `ip_addr` and `port`. -/
def strings (s : FileParam) : List UInt8 × List UInt8 := (s.st.ipAddr.cstr, s.st.port.cstr)

/-- **A line leaves its tokens** at `ip_addr` and `port`, and no line without two tokens is dealt
with. -/
theorem step_eq_some_iff (hline : line.length < bufsize) {p : List UInt8 × List UInt8} :
    (∃ s', s.step line = some s' ∧ s'.strings = p) ↔ fields (lineText line) = some p := by
  have hstring : CArray.StringAt (s.fetch line).info 0 (lineText line) :=
    CArray.stringAt_overlay hline
  cases hfields : fields (lineText line) with
  | none =>
    refine iff_of_false ?_ nofun
    rintro ⟨s', hs', -⟩
    rw [step, line_of_fields_eq_none hstring hfields] at hs'
    cases hs'
  | some q =>
    obtain ⟨ip, port⟩ := q
    obtain ⟨hip, hlip, hport, hlport, info, hrun⟩ := line_of_fields_eq_some hstring hfields
    have hstep : s.step line = some ((s.fetch line).stored info ip port) := by
      rw [step, hrun]
    have hstrings : ((s.fetch line).stored info ip port).strings = (ip, port) := by
      refine Prod.ext ?_ ?_
      · exact (CArray.cstr_overlay hlip).trans (CArray.takeWhile_ne_nul hip)
      · exact (CArray.cstr_overlay hlport).trans (CArray.takeWhile_ne_nul hport)
    constructor
    · rintro ⟨s', hs', rfl⟩
      rw [Option.some.inj (hs'.symm.trans hstep), hstrings]
    · intro hp
      exact ⟨_, hstep, hstrings.trans (Option.some.inj hp)⟩

/-- A line is dealt with when it has two tokens. -/
theorem exists_step_iff (hline : line.length < bufsize) :
    (∃ s', s.step line = some s') ↔ fields (lineText line) ≠ none := by
  rw [Option.ne_none_iff_exists']
  constructor
  · rintro ⟨s', hs'⟩
    exact ⟨s'.strings, (step_eq_some_iff hline).1 ⟨s', hs', rfl⟩⟩
  · rintro ⟨p, hp⟩
    obtain ⟨s', hs', -⟩ := (step_eq_some_iff (s := s) hline).2 hp
    exact ⟨s', hs'⟩

/-- **The loop is a run over the lines**, and where the run stops it is a null pointer. -/
theorem loop_eq (s : FileParam) (content : List UInt8) : loop.loop s content =
    (runFrom step s (lineChunks (bufsize - 2) content)).elim (.error (.fault .null))
      fun t ↦ .ok (t, []) := by
  induction content using lineChunks.induct (bufsize - 2) generalizing s with
  | case1 => rw [loop.loop_of_inr (round_nil s), lineChunks_nil]; rfl
  | case2 content hcontent ih =>
    have hround : loop.run s content = ((s.fetch (lineChunk (bufsize - 2 + 1) content)).line).map
      _ := round_of_ne_nil s hcontent
    have hstring : CArray.StringAt (s.fetch (lineChunk (bufsize - 2 + 1) content)).info 0
        (lineText (lineChunk (bufsize - 2 + 1) content)) :=
      CArray.stringAt_overlay (Nat.lt_succ_of_le (length_lineChunk_le _ _))
    rw [lineChunks_of_ne_nil hcontent, runFrom_cons, step]
    cases hfields : fields (lineText (lineChunk (bufsize - 2 + 1) content)) with
    | none =>
      rw [line_of_fields_eq_none hstring hfields] at hround ⊢
      exact loop.loop_of_error hround
    | some p =>
      obtain ⟨-, -, -, -, info, hline⟩ := line_of_fields_eq_some hstring hfields
      rw [hline] at hround ⊢
      rw [loop.loop_of_inl hround]
      exact ih _

end FileParam

/-- **`file_param` is a run over the lines** of its file. It always ends, and all that can go wrong
is a null pointer given to `strcpy`. -/
theorem fileParam_eq (st : SockPair) (content : List UInt8) : fileParam st (some content) =
    (runFrom FileParam.step (FileParam.start st) (lineChunks (bufsize - 2) content)).elim
      (.error (.fault .null)) fun t ↦ .ok (.returned t.st) := by
  rw [fileParam, FileParam.loop_eq]
  cases runFrom FileParam.step (FileParam.start st) (lineChunks (bufsize - 2) content) <;> rfl

theorem fileParam_eq_ok_iff {st st' : SockPair} {content : List UInt8} :
    fileParam st (some content) = .ok (.returned st') ↔
      ∃ t, runFrom FileParam.step (FileParam.start st) (lineChunks (bufsize - 2) content) = some t ∧
        t.st = st' := by
  rw [fileParam_eq]
  cases hrun : runFrom FileParam.step (FileParam.start st) (lineChunks (bufsize - 2) content) with
  | none =>
    refine iff_of_false nofun ?_
    rintro ⟨t, ht, -⟩
    cases ht
  | some t => simp

end PreforkHttpd
