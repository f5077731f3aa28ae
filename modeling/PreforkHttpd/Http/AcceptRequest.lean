import PreforkHttpd.Http.Readline

/-!
# Parsing the request line

`accept_request`: once a line is in `buf`, the first run of non-whitespace is copied to `method`,
whitespace is skipped, the next run is copied to `url`, and a path is built from the document root
and the url. The answer is one of the codes of the module, and the path is left in the caller's
array.

The loops share the index `j` into `buf` and stop at whitespace, not at a NUL, so what they scan is
the whole array, the line and whatever lies behind it. Each loop tests its byte before its bound.

The two arrays of `PARTSIZE` bytes are filled by the same loop (`readToken`). `token` and `gap` are
what the loops see: `readToken_eq` and `skipSpaces_eq` give the result of the loops where it is
defined, and `readToken_fault` and `skipSpaces_fault` the fault where it is not.
-/

open Answered

namespace PreforkHttpd

variable {n : ℕ}

/-- `PARTSIZE`. -/
abbrev partSize : ℕ := 512

/-- `HTTP_ERROR_NOT_FIND`. -/
abbrev httpErrorNotFind : ℤ := 404

/-- `HTTP_ERROR_METHOD`. -/
abbrev httpErrorMethod : ℤ := 500

/-- `HTTP_ERROR_REQUEST`. -/
abbrev httpErrorRequest : ℤ := 400

/-- `HTTP_SUCCESS`. -/
abbrev httpSuccess : ℤ := 200

/-! ### Characters and strings -/

/-- `isspace` in the C locale. -/
def isspace (c : UInt8) : Bool := c = 32 ∨ (9 ≤ c ∧ c ≤ 13)

/-- `tolower` in the C locale. -/
def tolower (c : UInt8) : UInt8 := if 65 ≤ c ∧ c ≤ 90 then c + 32 else c

/-- `strcasecmp` as a truth value: the strings differ. -/
def strcasecmp (s t : List UInt8) : Bool := s.map tolower ≠ t.map tolower

/-- `'/'`. -/
abbrev slash : UInt8 := 47

/-- The document root that `accept_request` puts before the url. -/
def documentRoot : List UInt8 := ascii "/home/jackwu/Desktop/test"

/-! ### The code -/

/-- `while (!isspace(buf[j]) && i < PARTSIZE) out[i++] = buf[j++];` with `left` rounds of the second
test to go. The value is `i`, `j` and the array. -/
def copyToken (name : ArrayName) (buf : CArray buffSize) :
    ℕ → ℕ → ℕ → CArray partSize → Checked Fault (ℕ × ℕ × CArray partSize)
  | 0, i, j, out => do
    let _ ← buf.load (Fault.index .buf) j
    pure (i, j, out)
  | left + 1, i, j, out => do
    -- the byte is loaded first, and `i < PARTSIZE` tested afterwards
    let c ← buf.load (Fault.index .buf) j
    if isspace c then pure (i, j, out)
    else
      let out ← out.store (Fault.index name) i c
      copyToken name buf left (i + 1) (j + 1) out

/-- The loop and the `out[i] = '\0'` after it. -/
def readToken (name : ArrayName) (buf : CArray buffSize) (j : ℕ) (out : CArray partSize) :
    Checked Fault (ℕ × CArray partSize) := do
  let (i, j, out) ← copyToken name buf partSize 0 j out
  let out ← out.store (Fault.index name) i 0
  pure (j, out)

/-- `while (isspace(buf[j]) && j < BUFFSIZE) j++;` with `left` rounds of the second test to go. -/
def skipFrom (buf : CArray buffSize) : ℕ → ℕ → Checked Fault ℕ
  | 0, j => do
    let _ ← buf.load (Fault.index .buf) j
    pure j
  | left + 1, j => do
    let c ← buf.load (Fault.index .buf) j
    if isspace c then skipFrom buf left (j + 1) else pure j

/-- The loop over the whitespace. -/
def skipSpaces (buf : CArray buffSize) (j : ℕ) : Checked Fault ℕ := skipFrom buf (buffSize - j) j

/-- `if (localPath[strlen(localPath)-1] == '/') strcat(localPath, "index.html");` -/
def appendIndex (localPath : CArray n) : Checked Fault (CArray n) := do
  let p ← localPath.readStr (Fault.index .localPath)
  let last ← localPath.load (Fault.index .localPath) (p.length - 1)
  if last = slash then localPath.strcat (Fault.index .localPath) (ascii "index.html")
  else pure localPath

/-- The `stat` of the path, and the results that depend on it. -/
def lookUp (fs : FileSystem) (localPath : CArray n) : Checked Fault (ℤ × CArray n) := do
  let p ← localPath.readStr (Fault.index .localPath)
  match fs p with
  | none => pure (httpErrorNotFind, localPath)
  | some .directory =>
    -- whether the index file exists is not looked up
    let localPath ← localPath.strcat (Fault.index .localPath) (ascii "/index.html")
    pure (httpSuccess, localPath)
  | some _ => pure (httpSuccess, localPath)

/-- The path of a url: the `sprintf`, the index file of a url that ends in a slash, the `stat`. -/
def locate (fs : FileSystem) (url : CArray partSize) (localPath : CArray n) :
    Checked Fault (ℤ × CArray n) := do
  let u ← url.readStr (Fault.index .url)
  let localPath ← localPath.storeAll (Fault.index .localPath) 0 (documentRoot ++ u ++ [0])
  let localPath ← appendIndex localPath
  lookUp fs localPath

/-- The local arrays of `accept_request`, as the call finds them. -/
structure Locals where
  buf : CArray buffSize
  method : CArray partSize
  url : CArray partSize

/-- What `accept_request` does with the line in `buf`. -/
def parseRequest (fs : FileSystem) (l : Locals) (localPath : CArray n) (buf : CArray buffSize) :
    Checked Fault (ℤ × CArray n) := do
  let (j, method) ← readToken .method buf 0 l.method
  let j ← skipSpaces buf j
  let (_, url) ← readToken .url buf j l.url
  let m ← method.readStr (Fault.index .method)
  -- both comparisons find a difference
  if strcasecmp m (ascii "GET") && strcasecmp m (ascii "POST") then
    pure (httpErrorMethod, localPath)
  else locate fs url localPath

/-- `accept_request`: its result and the caller's array. -/
def acceptRequest (fs : FileSystem) (l : Locals) (localPath : CArray n) : Http (ℤ × CArray n) := do
  let buf ← readRequest l.buf
  parseRequest fs l localPath buf

/-! ### What the loops see -/

/-- The run of non-whitespace at the start of some bytes. -/
def token (bytes : List UInt8) : List UInt8 := bytes.takeWhile fun c ↦ !isspace c

/-- The run of whitespace at the start of some bytes. -/
def gap (bytes : List UInt8) : List UInt8 := bytes.takeWhile isspace

theorem token_of_isspace {c : UInt8} {bytes : List UInt8} (h : isspace c = true) :
    token (c :: bytes) = [] := List.takeWhile_cons_of_neg (by rw [h]; decide)

theorem token_of_not_isspace {c : UInt8} {bytes : List UInt8} (h : isspace c ≠ true) :
    token (c :: bytes) = c :: token bytes :=
  List.takeWhile_cons_of_pos (by simpa using h)

/-- Whether some bytes are all whitespace, or none of them, can be computed. -/
theorem isspace_eq_of_all {xs : List UInt8} {b : Bool}
    (h : (xs.all fun c ↦ isspace c == b) = true) : ∀ c ∈ xs, isspace c = b :=
  fun c hc ↦ eq_of_beq (List.all_eq_true.1 h c hc)

/-- A token ends at the first whitespace. -/
theorem token_append {xs bytes : List UInt8} {c : UInt8} (hxs : ∀ b ∈ xs, isspace b = false)
    (hc : isspace c = true) : token (xs ++ c :: bytes) = xs := by
  rw [token, List.takeWhile_append_of_pos fun b hb ↦ by rw [hxs b hb]; rfl]
  exact (congrArg (xs ++ ·) (token_of_isspace hc)).trans (List.append_nil xs)

theorem gap_of_isspace {c : UInt8} {bytes : List UInt8} (h : isspace c = true) :
    gap (c :: bytes) = c :: gap bytes := List.takeWhile_cons_of_pos h

theorem gap_of_not_isspace {c : UInt8} {bytes : List UInt8} (h : isspace c ≠ true) :
    gap (c :: bytes) = [] := List.takeWhile_cons_of_neg h

/-- A run of whitespace ends at the next word. -/
theorem gap_append {xs bytes : List UInt8} {c : UInt8} (hxs : ∀ b ∈ xs, isspace b = true)
    (hc : isspace c = false) : gap (xs ++ c :: bytes) = xs := by
  rw [gap, List.takeWhile_append_of_pos hxs]
  exact (congrArg (xs ++ ·) (gap_of_not_isspace (by rw [hc]; decide))).trans (List.append_nil xs)

variable {buf : CArray buffSize} {j : ℕ}

/-- The copying loop, from any round on: it stops at the whitespace after the token. -/
theorem copyToken_eq (name : ArrayName) (out : CArray partSize) : ∀ (left : ℕ) {j : ℕ}
    (acc : List UInt8), acc.length + left ≤ partSize →
    (token (buf.bytes.drop j)).length ≤ left → j + (token (buf.bytes.drop j)).length < buffSize →
    copyToken name buf left acc.length j (out.overlay acc) =
      .ok ((acc ++ token (buf.bytes.drop j)).length, j + (token (buf.bytes.drop j)).length,
        out.overlay (acc ++ token (buf.bytes.drop j))) := by
  intro left
  induction left with
  | zero =>
    intro j acc _ htok hj
    have hnil := List.eq_nil_of_length_eq_zero (Nat.le_zero.1 htok)
    obtain ⟨c, hload, -⟩ := buf.exists_load (Fault.index .buf) (show j < buffSize by omega)
    rw [copyToken, checked_bind_of_ok hload, hnil, List.append_nil]
    rfl
  | succ left ih =>
    intro j acc hleft htok hj
    obtain ⟨c, hload, hdrop⟩ := buf.exists_load (Fault.index .buf) (show j < buffSize by omega)
    rw [copyToken, checked_bind_of_ok hload]
    by_cases hc : isspace c = true
    · rw [if_pos hc, hdrop, token_of_isspace hc, List.append_nil]
      rfl
    · have hlength : (acc ++ [c]).length = acc.length + 1 := by
        rw [List.length_append, List.length_singleton]
      rw [hdrop, token_of_not_isspace hc, List.length_cons] at htok hj
      have hstore : (out.overlay acc).store (Fault.index name) acc.length c =
          .ok (out.overlay (acc ++ [c])) := CArray.store_overlay (by omega)
      rw [if_neg hc, checked_bind_of_ok hstore, ← hlength, ih _ (by omega) (by omega)
        (by omega), hdrop, token_of_not_isspace hc, List.append_assoc, List.singleton_append,
        List.length_cons, Nat.add_right_comm j, Nat.add_assoc j]

/-- Otherwise the loop runs off `buf`, or fills its array. -/
theorem copyToken_fault (name : ArrayName) (out : CArray partSize) : ∀ (left : ℕ) {j : ℕ}
    (acc : List UInt8), acc.length + left = partSize →
    ¬ ((token (buf.bytes.drop j)).length < left ∧
      j + (token (buf.bytes.drop j)).length < buffSize) →
    (∃ f, copyToken name buf left acc.length j (out.overlay acc) = .error (.fault f)) ∨
      ∃ j' out', copyToken name buf left acc.length j (out.overlay acc) =
        .ok (partSize, j', out') := by
  intro left
  induction left with
  | zero =>
    intro j acc hleft _
    by_cases hj : j < buffSize
    · obtain ⟨c, hload, -⟩ := buf.exists_load (Fault.index .buf) hj
      refine Or.inr ⟨j, out.overlay acc, ?_⟩
      rw [copyToken, checked_bind_of_ok hload]
      exact congrArg (fun i ↦ Except.ok (i, j, out.overlay acc)) hleft
    · refine Or.inl ⟨.index .buf j, ?_⟩
      rw [copyToken]
      exact checked_bind_of_error (CArray.load_of_le (not_lt.1 hj))
  | succ left ih =>
    intro j acc hleft hfit
    by_cases hj : j < buffSize
    · obtain ⟨c, hload, hdrop⟩ := buf.exists_load (Fault.index .buf) hj
      rw [copyToken, checked_bind_of_ok hload]
      by_cases hc : isspace c = true
      · rw [hdrop, token_of_isspace hc, List.length_nil] at hfit
        exact absurd ⟨Nat.succ_pos left, hj⟩ hfit
      · have hlength : (acc ++ [c]).length = acc.length + 1 := by
          rw [List.length_append, List.length_singleton]
        rw [hdrop, token_of_not_isspace hc, List.length_cons] at hfit
        have hstore : (out.overlay acc).store (Fault.index name) acc.length c =
            .ok (out.overlay (acc ++ [c])) := CArray.store_overlay (by omega)
        rw [if_neg hc, checked_bind_of_ok hstore, ← hlength]
        exact ih _ (by omega) fun h ↦ hfit (by omega)
    · refine Or.inl ⟨.index .buf j, ?_⟩
      rw [copyToken]
      exact checked_bind_of_error (CArray.load_of_le (not_lt.1 hj))

/-- **A token that fits** is copied, with a NUL behind it. -/
theorem readToken_eq (name : ArrayName) (out : CArray partSize) (j : ℕ)
    (htok : (token (buf.bytes.drop j)).length < partSize)
    (hj : j + (token (buf.bytes.drop j)).length < buffSize) :
    readToken name buf j out = .ok (j + (token (buf.bytes.drop j)).length,
      out.overlay (token (buf.bytes.drop j) ++ [0])) := by
  have hcopy : copyToken name buf partSize 0 j out = .ok ((token (buf.bytes.drop j)).length,
      j + (token (buf.bytes.drop j)).length, out.overlay (token (buf.bytes.drop j))) := by
    have h := copyToken_eq name out partSize [] (le_refl _) htok.le hj
    rwa [CArray.overlay_nil] at h
  rw [readToken, checked_bind_of_ok hcopy]
  dsimp only
  rw [checked_bind_of_ok (CArray.store_overlay htok)]
  rfl

/-- A token that does not fit is a fault: its NUL is stored at index `PARTSIZE`, unless the loop
runs off `buf` before. -/
theorem readToken_fault (name : ArrayName) (out : CArray partSize) (j : ℕ)
    (h : ¬ ((token (buf.bytes.drop j)).length < partSize ∧
      j + (token (buf.bytes.drop j)).length < buffSize)) :
    ∃ f, readToken name buf j out = .error (.fault f) := by
  have hcopy := copyToken_fault name out partSize [] rfl h
  rw [CArray.overlay_nil, List.length_nil] at hcopy
  rw [readToken]
  obtain ⟨f, hf⟩ | ⟨j', out', hout⟩ := hcopy
  · exact ⟨f, checked_bind_of_error hf⟩
  · refine ⟨.index name partSize, ?_⟩
    rw [checked_bind_of_ok hout]
    exact checked_bind_of_error (CArray.store_of_le (le_refl _))

theorem skipFrom_eq : ∀ (left : ℕ) {j : ℕ}, j + left = buffSize →
    j + (gap (buf.bytes.drop j)).length < buffSize →
    skipFrom buf left j = .ok (j + (gap (buf.bytes.drop j)).length) := by
  intro left
  induction left with
  | zero => omega
  | succ left ih =>
    intro j hleft hj
    obtain ⟨c, hload, hdrop⟩ := buf.exists_load (Fault.index .buf) (show j < buffSize by omega)
    rw [skipFrom, checked_bind_of_ok hload]
    by_cases hc : isspace c = true
    · rw [hdrop, gap_of_isspace hc, List.length_cons] at hj
      rw [if_pos hc, ih (by omega) (by omega), hdrop, gap_of_isspace hc, List.length_cons,
        Nat.add_right_comm j, Nat.add_assoc j]
    · rw [if_neg hc, hdrop, gap_of_not_isspace hc]
      rfl

theorem skipFrom_fault : ∀ (left : ℕ) {j : ℕ}, j + left = buffSize →
    ¬ j + (gap (buf.bytes.drop j)).length < buffSize →
    ∃ f, skipFrom buf left j = .error (.fault f) := by
  intro left
  induction left with
  | zero =>
    intro j hleft _
    refine ⟨.index .buf j, ?_⟩
    rw [skipFrom]
    exact checked_bind_of_error (CArray.load_of_le (by omega))
  | succ left ih =>
    intro j hleft hj
    obtain ⟨c, hload, hdrop⟩ := buf.exists_load (Fault.index .buf) (show j < buffSize by omega)
    rw [skipFrom, checked_bind_of_ok hload]
    by_cases hc : isspace c = true
    · rw [hdrop, gap_of_isspace hc, List.length_cons] at hj
      rw [if_pos hc]
      exact ih (by omega) (by omega)
    · rw [hdrop, gap_of_not_isspace hc, List.length_nil] at hj
      omega

/-- **Whitespace with something behind it** is skipped, -/
theorem skipSpaces_eq (hj : j + (gap (buf.bytes.drop j)).length < buffSize) :
    skipSpaces buf j = .ok (j + (gap (buf.bytes.drop j)).length) :=
  skipFrom_eq _ (by omega) hj

/-- and whitespace up to the end of `buf` is a fault: the byte is tested before the bound. -/
theorem skipSpaces_fault (hle : j ≤ buffSize)
    (hj : ¬ j + (gap (buf.bytes.drop j)).length < buffSize) :
    ∃ f, skipSpaces buf j = .error (.fault f) :=
  skipFrom_fault _ (by omega) hj

/-! ### What the call computes -/

/-- The bytes copied to `method`. -/
def methodToken (bytes : List UInt8) : List UInt8 := token bytes

/-- The whitespace skipped after them. -/
def methodGap (bytes : List UInt8) : List UInt8 := gap (bytes.drop (methodToken bytes).length)

/-- The bytes copied to `url`. -/
def urlToken (bytes : List UInt8) : List UInt8 :=
  token (bytes.drop ((methodToken bytes).length + (methodGap bytes).length))

/-- The tokens fit their arrays, and whitespace ends the second one inside `buf`. -/
structure TokensFit (bytes : List UInt8) : Prop where
  method : (methodToken bytes).length < partSize
  url : (urlToken bytes).length < partSize
  line : (methodToken bytes).length + (methodGap bytes).length + (urlToken bytes).length < buffSize

/-- The path looked up for a url. -/
def requestPath (u : List UInt8) : List UInt8 :=
  if (documentRoot ++ u).getLast? = some slash then documentRoot ++ u ++ ascii "index.html"
  else documentRoot ++ u

/-- The answer for a path, and the path left to the caller. -/
def located (fs : FileSystem) (p : List UInt8) : ℤ × List UInt8 :=
  match fs p with
  | none => (httpErrorNotFind, p)
  | some .directory => (httpSuccess, p ++ ascii "/index.html")
  | some _ => (httpSuccess, p)

/-- The method is one of those served. -/
def Served (m : List UInt8) : Prop :=
  strcasecmp m (ascii "GET") = false ∨ strcasecmp m (ascii "POST") = false

instance (m : List UInt8) : Decidable (Served m) := inferInstanceAs (Decidable (_ ∨ _))

/-- What `accept_request` makes of the bytes in `buf`. -/
def answer (fs : FileSystem) (bytes : List UInt8) (localPath : CArray n) : ℤ × CArray n :=
  if Served ((methodToken bytes).takeWhile (· ≠ 0)) then
    let r := located fs (requestPath ((urlToken bytes).takeWhile (· ≠ 0)))
    (r.1, localPath.overlay (r.2 ++ [0]))
  else (httpErrorMethod, localPath)

variable {fs : FileSystem} {l : Locals} {localPath : CArray n}

theorem nul_notMem_documentRoot : 0 ∉ documentRoot := by decide

theorem length_documentRoot : documentRoot.length = 25 := by decide

/-- The last byte of the path decides whether the index file is appended. -/
theorem requestPath_eq {u : List UInt8} {c : UInt8} (h : (documentRoot ++ u).getLast? = some c) :
    requestPath u =
      if c = slash then documentRoot ++ u ++ ascii "index.html" else documentRoot ++ u := by
  rw [requestPath, h]
  exact if_congr Option.some_inj rfl rfl

theorem nul_notMem_requestPath {u : List UInt8} (h : 0 ∉ u) : 0 ∉ requestPath u := by
  have hroot : 0 ∉ documentRoot ++ u := List.not_mem_append nul_notMem_documentRoot h
  rw [requestPath]
  split
  · exact List.not_mem_append hroot (by decide)
  · exact hroot

theorem length_requestPath_le (u : List UInt8) : (requestPath u).length ≤ u.length + 35 := by
  have hindex : (ascii "index.html").length = 10 := by decide
  rw [requestPath]
  split
  · rw [List.length_append, List.length_append, length_documentRoot, hindex]
    omega
  · rw [List.length_append, length_documentRoot]
    omega

theorem nul_notMem_located {p : List UInt8} (h : 0 ∉ p) : 0 ∉ (located fs p).2 := by
  rw [located]
  split
  next => exact h
  next => exact List.not_mem_append h (by decide)
  next => exact h

theorem length_located_le (fs : FileSystem) (p : List UInt8) :
    (located fs p).2.length ≤ p.length + 11 := by
  rw [located]
  split
  next => exact Nat.le_add_right _ _
  next => exact List.length_append.le
  next => exact Nat.le_add_right _ _

/-- What is looked up is not refused for its method. -/
theorem located_ne_httpErrorMethod (fs : FileSystem) (p : List UInt8) :
    (located fs p).1 ≠ httpErrorMethod := by
  have hsuccess : httpSuccess ≠ httpErrorMethod := by decide
  rw [located]
  split
  next => exact (show httpErrorNotFind ≠ httpErrorMethod by decide)
  next => exact hsuccess
  next => exact hsuccess

/-- The path of a url that fits its array fits the caller's array, -/
theorem length_located_requestPath_lt (fs : FileSystem) {u : List UInt8}
    (hlength : u.length < partSize) : (located fs (requestPath u)).2.length < buffSize := by
  have hu : u.length < 512 := hlength
  have hpath := length_requestPath_le u
  have hlocated := length_located_le fs (requestPath u)
  show _ < 1024
  omega

/-- and is read back from it. -/
theorem cstr_overlay_located {u : List UInt8} (fs : FileSystem) (v : CArray buffSize) (h0 : 0 ∉ u)
    (hlength : u.length < partSize) :
    (v.overlay ((located fs (requestPath u)).2 ++ [0])).cstr = (located fs (requestPath u)).2 := by
  rw [CArray.cstr_overlay (length_located_requestPath_lt fs hlength),
    CArray.takeWhile_ne_nul (nul_notMem_located (nul_notMem_requestPath h0))]

/-- A path of the document root gets its index file. -/
theorem appendIndex_eq {u : List UInt8} (h0 : 0 ∉ u) (hlength : u.length + 35 < n) :
    appendIndex (localPath.overlay (documentRoot ++ u ++ [0])) =
      .ok (localPath.overlay (requestPath u ++ [0])) := by
  have hroot : (documentRoot ++ u).length = u.length + 25 := by
    rw [List.length_append, length_documentRoot, Nat.add_comm]
  have hroot0 : 0 ∉ documentRoot ++ u := List.not_mem_append nul_notMem_documentRoot h0
  have hpath := length_requestPath_le u
  obtain ⟨c, hc⟩ : ∃ c, (documentRoot ++ u).getLast? = some c :=
    ⟨_, List.getLast?_eq_some_getLast (List.append_ne_nil_of_left_ne_nil (by decide) u)⟩
  have hfit : (documentRoot ++ u ++ [0]).length ≤ n := by
    rw [List.length_append, hroot, List.length_singleton]
    omega
  have hlast : (localPath.overlay (documentRoot ++ u ++ [0])).load (Fault.index .localPath)
      ((documentRoot ++ u).length - 1) = .ok c := by
    refine CArray.load_overlay hfit ?_
    rw [List.getElem?_append_left (by omega), ← List.getLast?_eq_getElem?, hc]
  rw [appendIndex, checked_bind_of_ok (CArray.readStr_overlay (by omega)),
    CArray.takeWhile_ne_nul hroot0, checked_bind_of_ok hlast]
  rw [requestPath_eq hc] at hpath ⊢
  split
  next hslash =>
    rw [if_pos hslash] at hpath
    exact CArray.strcat_overlay hroot0 (by omega)
  next => rfl

/-- The path is looked up, and a directory gets its index file. -/
theorem lookUp_eq {p : List UInt8} (h0 : 0 ∉ p) (hlength : p.length + 11 < n) :
    lookUp fs (localPath.overlay (p ++ [0])) =
      .ok ((located fs p).1, localPath.overlay ((located fs p).2 ++ [0])) := by
  have hindex : (ascii "/index.html").length = 11 := by decide
  rw [lookUp, checked_bind_of_ok (CArray.readStr_overlay (by omega)),
    CArray.takeWhile_ne_nul h0, located]
  match fs p with
  | none => rfl
  | some .directory =>
    exact checked_bind_of_ok (CArray.strcat_overlay h0 (by rw [List.length_append]; omega))
  | some (.regular content) => rfl
  | some .other => rfl

/-- **The path of a url** is looked up under the document root, and left to the caller. -/
theorem locate_eq {url : CArray partSize} {u : List UInt8}
    (hurl : url.readStr (Fault.index .url) = .ok u) (h0 : 0 ∉ u) (hlength : u.length < partSize)
    (hn : buffSize ≤ n) :
    locate fs url localPath = .ok ((located fs (requestPath u)).1,
      localPath.overlay ((located fs (requestPath u)).2 ++ [0])) := by
  have hu : u.length < 512 := hlength
  have hn' : 1024 ≤ n := hn
  have hpath := length_requestPath_le u
  have hfit : (documentRoot ++ u ++ [0]).length ≤ n := by
    rw [List.length_append, List.length_append, length_documentRoot, List.length_singleton]
    omega
  rw [locate, checked_bind_of_ok hurl, checked_bind_of_ok (CArray.storeAll_zero _ _ hfit),
    checked_bind_of_ok (appendIndex_eq h0 (by omega)),
    lookUp_eq (nul_notMem_requestPath h0) (by omega)]

theorem strcasecmp_and_eq_true_iff (m : List UInt8) :
    (strcasecmp m (ascii "GET") && strcasecmp m (ascii "POST")) = true ↔ ¬ Served m := by
  rw [Served, Bool.and_eq_true, not_or, Bool.not_eq_false, Bool.not_eq_false]

section Parse

variable {buf : CArray buffSize}

/-- The method is copied when it fits its array. -/
theorem readToken_method (out : CArray partSize) (h : (methodToken buf.bytes).length < partSize) :
    readToken .method buf 0 out =
      .ok ((methodToken buf.bytes).length, out.overlay (methodToken buf.bytes ++ [0])) := by
  have hj : 0 + (token buf.bytes).length < buffSize := by
    rw [Nat.zero_add]
    exact h.trans (by decide)
  have hread := readToken_eq .method out 0 h hj
  rwa [Nat.zero_add] at hread

/-- **What is computed when the tokens fit.** -/
theorem parseRequest_eq (h : TokensFit buf.bytes) (hn : buffSize ≤ n) :
    parseRequest fs l localPath buf = .ok (answer fs buf.bytes localPath) := by
  have hline := h.line
  have hskip : skipSpaces buf (methodToken buf.bytes).length =
      .ok ((methodToken buf.bytes).length + (methodGap buf.bytes).length) :=
    skipSpaces_eq (show _ + (methodGap buf.bytes).length < buffSize by omega)
  have hurl : readToken .url buf ((methodToken buf.bytes).length + (methodGap buf.bytes).length)
      l.url = .ok (_, l.url.overlay (urlToken buf.bytes ++ [0])) :=
    readToken_eq .url l.url _ h.url hline
  have hurlStr : (l.url.overlay (urlToken buf.bytes ++ [0])).readStr (Fault.index .url) =
      .ok ((urlToken buf.bytes).takeWhile (· ≠ 0)) := CArray.readStr_overlay h.url
  have hurl0 : 0 ∉ (urlToken buf.bytes).takeWhile (· ≠ 0) := fun hmem ↦
    absurd (List.mem_takeWhile_imp hmem) (by decide)
  have hurlLength : ((urlToken buf.bytes).takeWhile (· ≠ 0)).length < partSize :=
    (List.takeWhile_prefix _).length_le.trans_lt h.url
  rw [parseRequest, checked_bind_of_ok (readToken_method l.method h.method)]
  dsimp only
  rw [checked_bind_of_ok hskip, checked_bind_of_ok hurl]
  dsimp only
  rw [checked_bind_of_ok (CArray.readStr_overlay h.method), answer]
  by_cases hserved : Served ((methodToken buf.bytes).takeWhile (· ≠ 0))
  · rw [if_neg (mt (strcasecmp_and_eq_true_iff _).1 (not_not.2 hserved)), if_pos hserved]
    exact locate_eq hurlStr hurl0 hurlLength hn
  · rw [if_pos ((strcasecmp_and_eq_true_iff _).2 hserved), if_neg hserved]
    rfl

/-- Tokens that do not fit are a fault. -/
theorem parseRequest_fault (fs : FileSystem) (l : Locals) (localPath : CArray n)
    (h : ¬ TokensFit buf.bytes) :
    ∃ f, parseRequest fs l localPath buf = .error (.fault f) := by
  rw [parseRequest]
  by_cases hmethod : (methodToken buf.bytes).length < partSize
  · rw [checked_bind_of_ok (readToken_method l.method hmethod)]
    dsimp only
    by_cases hgap : (methodToken buf.bytes).length + (methodGap buf.bytes).length < buffSize
    · rw [checked_bind_of_ok (skipSpaces_eq hgap)]
      obtain ⟨f, hf⟩ := readToken_fault .url l.url
        ((methodToken buf.bytes).length + (methodGap buf.bytes).length)
        fun hfit ↦ h ⟨hmethod, hfit.1, hfit.2⟩
      exact ⟨f, checked_bind_of_error hf⟩
    · obtain ⟨f, hf⟩ := skipSpaces_fault (hmethod.le.trans (by decide)) hgap
      exact ⟨f, checked_bind_of_error hf⟩
  · obtain ⟨f, hf⟩ := readToken_fault .method l.method 0 fun hfit ↦ hmethod hfit.1
    exact ⟨f, checked_bind_of_error hf⟩

end Parse

/-! ### The call as a whole -/

section Call

variable {w : Calls} {a : Arrival}

/-- The buffer in which a line has arrived. -/
def Arrival.buffer (a : Arrival) : CArray buffSize := a.under.overlay (a.line ++ [0])

/-- What the loops scan: the line, its NUL, and what was there before. -/
theorem Arrival.bytes_buffer (a : Arrival) (h : a.line.length < buffSize) :
    a.buffer.bytes = a.line ++ 0 :: a.under.bytes.drop (a.line.length + 1) := by
  have hlength : (a.line ++ [0]).length = a.line.length + 1 := List.length_append
  rw [Arrival.buffer, CArray.bytes_overlay _ (hlength ▸ h), hlength, List.append_assoc]
  rfl

/-- Without a line the call does not return. -/
theorem acceptRequest_of_none (h : requestLine w.reads 0 [] l.buf = none) :
    acceptRequest fs l localPath w = .error .pending := by
  refine bind_of_error ?_
  rw [readRequest_eq_outcome, h]
  rfl

/-- **The call on a line that fits**, its tokens included. -/
theorem acceptRequest_of_fits (h : requestLine w.reads 0 [] l.buf = some a)
    (hline : a.line.length < buffSize) (htokens : TokensFit a.buffer.bytes) (hn : buffSize ≤ n) :
    acceptRequest fs l localPath w =
      .ok (answer fs a.buffer.bytes localPath, { w with reads := a.rest }) := by
  have hread : readRequest l.buf w = .ok (a.buffer, { w with reads := a.rest }) := by
    rw [readRequest_eq_outcome, h, outcome]
    exact if_pos hline
  rw [acceptRequest, bind_of_ok hread]
  exact lift_of_ok (parseRequest_eq htokens hn) _

/-- A line or a token that does not fit is a fault. -/
theorem acceptRequest_fault (fs : FileSystem) (localPath : CArray n)
    (h : requestLine w.reads 0 [] l.buf = some a)
    (hfit : ¬ (a.line.length < buffSize ∧ TokensFit a.buffer.bytes)) :
    ∃ f, acceptRequest fs l localPath w = .error (.fault f) := by
  rw [acceptRequest]
  by_cases hline : a.line.length < buffSize
  · have hread : readRequest l.buf w = .ok (a.buffer, { w with reads := a.rest }) := by
      rw [readRequest_eq_outcome, h, outcome]
      exact if_pos hline
    obtain ⟨f, hf⟩ := parseRequest_fault fs l localPath
      fun htokens ↦ hfit ⟨hline, htokens⟩
    exact ⟨f, (bind_of_ok hread).trans (lift_of_error hf _)⟩
  · refine ⟨.index .buf buffSize, bind_of_error ?_⟩
    rw [readRequest_eq_outcome, h, outcome]
    exact if_neg hline

/-- **A call that returns** has read a line that fits, and answers it. -/
theorem exists_of_acceptRequest_eq_ok {r : ℤ × CArray n} {w' : Calls} (hn : buffSize ≤ n)
    (hok : acceptRequest fs l localPath w = .ok (r, w')) :
    ∃ a, requestLine w.reads 0 [] l.buf = some a ∧ a.line.length < buffSize ∧
      TokensFit a.buffer.bytes ∧ r = answer fs a.buffer.bytes localPath ∧
      w' = { w with reads := a.rest } := by
  match h : requestLine w.reads 0 [] l.buf with
  | none =>
    rw [acceptRequest_of_none h] at hok
    cases hok
  | some a =>
    have hfit : a.line.length < buffSize ∧ TokensFit a.buffer.bytes := by
      by_contra hfit
      obtain ⟨f, hf⟩ := acceptRequest_fault fs localPath h hfit
      rw [hf] at hok
      cases hok
    rw [acceptRequest_of_fits h hfit.1 hfit.2 hn] at hok
    obtain ⟨rfl, rfl⟩ := Prod.mk.inj (Except.ok.inj hok)
    exact ⟨a, rfl, hfit.1, hfit.2, rfl, rfl⟩

end Call

end PreforkHttpd
