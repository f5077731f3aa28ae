import PreforkHttpd.Http.Containment

/-!
# When the answer depends on stale memory

`accept_request` does not clear its arrays, and its scanning loops do not stop at the NUL behind the
line. Two runs on the same request may therefore differ, when their arrays held something else
before.

They do so for one shape of request only. A line with whitespace in it ends the method, and behind
the method everything that is used lies before the NUL: a url that is cut short ends in that NUL,
and `sprintf` reads no further (`answer_append_nul`). A line without whitespace — the client closed
in the middle of the first word — makes the loops go on past the NUL, and the url is whatever they
find there. That is of no consequence when the method is not one of those served, and does not come
to a result when the word fills its array; otherwise the answer is one about stale memory
(`staleFree_iff`).

A request is taken as the client sends it: the newlines before the first line are read and dropped,
each by a call of `readline` that is repeated, and leave nothing in the buffer that the line does
not cover (`requestLine_dropWhile`).
-/

open Answered

namespace PreforkHttpd

/-! ### What a line decides -/

section Line

variable {line stale : List UInt8}

/-- A run of bytes that ends inside a list does not see what is behind it. -/
theorem token_append_of_isspace (h : ∃ c ∈ line, isspace c = true) (bytes : List UInt8) :
    token (line ++ bytes) = token line := by
  induction line with
  | nil =>
    obtain ⟨d, hd, -⟩ := h
    exact absurd hd List.not_mem_nil
  | cons c line ih =>
    by_cases hc : isspace c = true
    · rw [List.cons_append, token_of_isspace hc, token_of_isspace hc]
    · have hline : ∃ d ∈ line, isspace d = true := by
        obtain ⟨d, hd, hspace⟩ := h
        rcases List.mem_cons.1 hd with rfl | hd
        · exact absurd hspace hc
        · exact ⟨d, hd, hspace⟩
      rw [List.cons_append, token_of_not_isspace hc, token_of_not_isspace hc, ih hline]

/-- Read as a string, a token ends at the NUL behind the line. -/
theorem takeWhile_token_append_nul (line stale : List UInt8) :
    (token (line ++ 0 :: stale)).takeWhile (· ≠ 0) = (token line).takeWhile (· ≠ 0) := by
  have hnul : isspace 0 ≠ true := by decide
  induction line with
  | nil =>
    rw [List.nil_append, token_of_not_isspace hnul]
    rfl
  | cons c line ih =>
    by_cases hc : isspace c = true
    · rw [List.cons_append, token_of_isspace hc, token_of_isspace hc]
    · rw [List.cons_append, token_of_not_isspace hc, token_of_not_isspace hc, List.takeWhile_cons,
        List.takeWhile_cons, ih]

/-- A NUL is no whitespace. -/
theorem gap_append_nul (line stale : List UInt8) : gap (line ++ 0 :: stale) = gap line := by
  have hnul : isspace 0 ≠ true := by decide
  induction line with
  | nil => exact gap_of_not_isspace hnul
  | cons c line ih =>
    by_cases hc : isspace c = true
    · rw [List.cons_append, gap_of_isspace hc, gap_of_isspace hc, ih]
    · rw [List.cons_append, gap_of_not_isspace hc, gap_of_not_isspace hc]

/-- **What is behind the NUL is not used**, for a line with whitespace in it, or without a method
that is served. -/
theorem answer_append_nul {n : ℕ} (fs : FileSystem) (localPath : CArray n)
    (h : (∃ c ∈ line, isspace c = true) ∨ ¬ Served ((methodToken line).takeWhile (· ≠ 0)))
    (stale : List UInt8) : answer fs (line ++ 0 :: stale) localPath = answer fs line localPath := by
  rw [answer, answer, methodToken, takeWhile_token_append_nul, ← methodToken]
  by_cases hserved : Served ((methodToken line).takeWhile (· ≠ 0))
  · have hspace : ∃ c ∈ line, isspace c = true := h.resolve_right (not_not.2 hserved)
    have hmethod : methodToken (line ++ 0 :: stale) = methodToken line :=
      token_append_of_isspace hspace _
    have hle : (methodToken line).length ≤ line.length := (List.takeWhile_prefix _).length_le
    have hgap : methodGap (line ++ 0 :: stale) = methodGap line := by
      rw [methodGap, hmethod, List.drop_append_of_le_length hle, gap_append_nul, ← methodGap]
    have hle' : (methodToken line).length + (methodGap line).length ≤ line.length := by
      have h := (List.takeWhile_prefix isspace (l := line.drop (methodToken line).length)).length_le
      rw [List.length_drop] at h
      show _ + (gap _).length ≤ _
      rw [gap]
      omega
    have hurl : (urlToken (line ++ 0 :: stale)).takeWhile (· ≠ 0) =
        (urlToken line).takeWhile (· ≠ 0) := by
      rw [urlToken, hmethod, hgap, List.drop_append_of_le_length hle', takeWhile_token_append_nul,
        ← urlToken]
    rw [if_pos hserved, if_pos hserved, hurl]
  · rw [if_neg hserved, if_neg hserved]

end Line

/-! ### The line of a request -/

/-- Newlines before a line are dropped, and the line covers what they leave in the buffer. -/
theorem requestLine_dropWhile (more : List ReadAnswer) : ∀ (bytes : List UInt8)
    (under : CArray buffSize), ∃ under' : CArray buffSize,
      requestLine (bytes.map .byte ++ more) 0 [] under =
        requestLine ((bytes.dropWhile (· = newline)).map .byte ++ more) 0 [] under' ∧
      ∀ xs : List UInt8, 2 ≤ xs.length → xs.length ≤ buffSize →
        under'.overlay xs = under.overlay xs
  | [], under => ⟨under, rfl, fun _ _ _ ↦ rfl⟩
  | c :: bytes, under => by
    by_cases hc : c = newline
    · obtain ⟨under', hline, hcover⟩ :=
        requestLine_dropWhile more bytes (under.overlay [newline, 0])
      have hdrop : (c :: bytes).dropWhile (· = newline) = bytes.dropWhile (· = newline) :=
        List.dropWhile_cons_of_pos (decide_eq_true hc)
      refine ⟨under', ?_, fun xs hlength hfit ↦ ?_⟩
      · rw [hdrop, ← hline, List.map_cons, List.cons_append, requestLine, if_neg (by decide),
          if_neg (not_not.2 hc), if_pos rfl]
      · rw [hcover xs hlength hfit]
        exact CArray.overlay_overlay hlength hfit
    · refine ⟨under, ?_, fun _ _ _ ↦ rfl⟩
      rw [List.dropWhile_cons_of_neg (by rw [decide_eq_true_iff]; exact hc)]

/-- The first line of some bytes. -/
def firstLine (text : List UInt8) : List UInt8 :=
  text.takeWhile (· ≠ newline) ++ if newline ∈ text then [newline] else []

/-- A request: fewer than `1023` bytes, after which the client closes or which end in a newline.
`eofs` is the number of reads to come at the end of the stream. -/
structure Request where
  bytes : List UInt8
  eofs : ℕ
  length_lt : bytes.length < 1023
  ends : 0 < eofs ∨ bytes.getLast? = some newline

namespace Request

/-- What the reads answer. -/
def answers (r : Request) : List ReadAnswer := r.bytes.map .byte ++ List.replicate r.eofs .eof

/-- The bytes from the first line on. -/
def text (r : Request) : List UInt8 := r.bytes.dropWhile (· = newline)

theorem text_suffix (r : Request) : r.text <:+ r.bytes := List.dropWhile_suffix _

theorem length_text_lt (r : Request) : r.text.length < 1023 :=
  r.text_suffix.length_le.trans_lt r.length_lt

/-- The first line does not begin with a newline. -/
theorem text_ne_newline_cons (r : Request) (rest : List UInt8) : r.text ≠ newline :: rest := by
  intro h
  have hhead := List.head?_dropWhile_not (fun c : UInt8 ↦ decide (c = newline)) r.bytes
  rw [show r.bytes.dropWhile (fun c : UInt8 ↦ decide (c = newline)) = newline :: rest from h]
    at hhead
  exact absurd (show decide (newline = newline) = false from hhead) (by decide)

/-- After a request that does not end in a newline the client has closed. -/
theorem exists_eofs_eq_succ (r : Request) (h : r.text ≠ []) (hnl : newline ∉ r.text) :
    ∃ k, r.eofs = k + 1 := by
  refine ⟨r.eofs - 1, (Nat.succ_pred_eq_of_pos (r.ends.resolve_right fun hlast ↦ hnl ?_)).symm⟩
  obtain ⟨before, hbefore⟩ := r.text_suffix
  rw [← hbefore, List.getLast?_append_of_ne_nil _ h] at hlast
  exact List.mem_of_getLast? hlast

end Request

theorem firstLine_of_notMem {text : List UInt8} (h : newline ∉ text) : firstLine text = text := by
  rw [firstLine, if_neg h, List.append_nil]
  exact List.takeWhile_eq_self_iff.2 fun c hc ↦ decide_eq_true fun hnl ↦ h (hnl ▸ hc)

theorem firstLine_append {line : List UInt8} (h : newline ∉ line) (rest : List UInt8) :
    firstLine (line ++ newline :: rest) = line ++ [newline] := by
  have hmem : newline ∈ line ++ newline :: rest := List.mem_append_right _ List.mem_cons_self
  have hline : ∀ c ∈ line, decide (c ≠ newline) = true := fun c hc ↦
    decide_eq_true fun hnl ↦ h (hnl ▸ hc)
  have htake : (line ++ newline :: rest).takeWhile (· ≠ newline) = line := by
    rw [List.takeWhile_append_of_pos hline, List.takeWhile_cons_of_neg (by decide), List.append_nil]
  rw [firstLine, if_pos hmem, htake]

theorem firstLine_ne_nil {text : List UInt8} (h : text ≠ []) : firstLine text ≠ [] := by
  by_cases hnl : newline ∈ text
  · rw [firstLine, if_pos hnl]
    exact List.append_ne_nil_of_right_ne_nil _ (List.cons_ne_nil _ _)
  · rwa [firstLine_of_notMem hnl]

theorem firstLine_isPrefix (text : List UInt8) : firstLine text <+: text := by
  by_cases hnl : newline ∈ text
  · obtain ⟨line, rest, rfl, hnot⟩ := List.eq_append_cons_of_mem hnl
    rw [firstLine_append hnot, List.append_cons line newline rest]
    exact List.prefix_append _ _
  · rw [firstLine_of_notMem hnl]

/-- Nothing comes of an end of stream in the first round of a call. -/
theorem requestLine_replicate_eof : ∀ (k : ℕ) (under : CArray buffSize),
    requestLine (List.replicate k .eof) 0 [] under = none
  | 0, _ => rfl
  | k + 1, under => requestLine_replicate_eof k (under.overlay [0])

/-- Of newlines alone no line comes. -/
theorem Request.requestLine_eq_none (r : Request) (h : r.text = []) (buf : CArray buffSize) :
    requestLine r.answers 0 [] buf = none := by
  obtain ⟨under, hline, -⟩ := requestLine_dropWhile (List.replicate r.eofs .eof) r.bytes buf
  rw [answers, hline, ← Request.text, h]
  exact requestLine_replicate_eof r.eofs under

/-- **The first line arrives**, whatever the buffer held, and covers what came before it. -/
theorem Request.exists_requestLine_eq (r : Request) (h : r.text ≠ []) (buf : CArray buffSize) :
    ∃ a, requestLine r.answers 0 [] buf = some a ∧ a.line = firstLine r.text ∧
      a.buffer = buf.overlay (firstLine r.text ++ [0]) := by
  obtain ⟨under, hline, hcover⟩ := requestLine_dropWhile (List.replicate r.eofs .eof) r.bytes buf
  rw [← Request.text] at hline
  have htext := r.length_text_lt
  have hpos := List.length_pos_of_ne_nil (firstLine_ne_nil h)
  have hle := (firstLine_isPrefix r.text).length_le
  have hlength : (firstLine r.text ++ [0]).length = (firstLine r.text).length + 1 :=
    List.length_append
  have hcovered : under.overlay (firstLine r.text ++ [0]) = buf.overlay (firstLine r.text ++ [0]) :=
    hcover _ (by omega) (show (firstLine r.text ++ [0]).length ≤ 1024 by omega)
  suffices harrives : ∃ rest, requestLine r.answers 0 [] buf =
      some ⟨firstLine r.text, under, rest⟩ by
    obtain ⟨rest, hrest⟩ := harrives
    exact ⟨_, hrest, rfl, hcovered⟩
  rw [answers, hline]
  by_cases hnl : newline ∈ r.text
  · obtain ⟨line, rest, hsplit, hnot⟩ := List.eq_append_cons_of_mem hnl
    have hne : line ≠ [] := by
      rintro rfl
      exact r.text_ne_newline_cons rest hsplit
    rw [hsplit, List.length_append, List.length_cons] at htext
    rw [hsplit, firstLine_append hnot, List.map_append, List.map_cons, List.append_assoc,
      List.cons_append, requestLine_of_line under _ line [] hnot
        (show 0 + line.length < 1024 by omega) (Or.inr hne)]
    exact ⟨_, rfl⟩
  · obtain ⟨k, hk⟩ := r.exists_eofs_eq_succ h hnl
    rw [firstLine_of_notMem hnl] at hpos ⊢
    rw [requestLine_of_text under _ r.text [] hnl (show 0 + r.text.length ≤ 1024 by omega), hk,
      List.replicate_succ, requestLine, if_neg (show 0 + r.text.length ≠ 1024 by omega),
      if_neg (by omega)]
    exact ⟨_, rfl⟩

/-! ### Two runs on one request -/

/-- Two calls of `accept_request` on the request that return give the same result and the same path,
whatever their arrays held. -/
def StaleFree (r : Request) (fs : FileSystem) (filename : CArray buffSize) : Prop :=
  ∀ l l' res res' w w', acceptRequest fs l filename (Calls.reading r.answers) = .ok (res, w) →
    acceptRequest fs l' filename (Calls.reading r.answers) = .ok (res', w') →
    res.1 = res'.1 ∧ res.2.cstr = res'.2.cstr

/-- The request is a word without whitespace, which as a string is a method that is served, and
which leaves room for its NUL and one more in its array. -/
def Bare (text : List UInt8) : Prop :=
  (∀ c ∈ text, isspace c = false) ∧ Served (text.takeWhile (· ≠ 0)) ∧ text.length < 511

theorem methodToken_eq_self {line : List UInt8} (h : ∀ c ∈ line, isspace c = false) :
    methodToken line = line := by
  refine List.takeWhile_eq_self_iff.2 fun c hc ↦ ?_
  rw [h c hc]
  rfl

/-- A word that fills its array with its NUL does not fit. -/
theorem not_tokensFit_of_word {line stale : List UInt8} (h : ∀ c ∈ line, isspace c = false)
    (hlength : 511 ≤ line.length) : ¬ TokensFit (line ++ 0 :: stale) := by
  intro hfit
  have hmethod : methodToken (line ++ 0 :: stale) = line ++ token (0 :: stale) := by
    rw [methodToken, token, List.takeWhile_append_of_pos fun c hc ↦ by rw [h c hc]; rfl]
    rfl
  have hnul : token (0 :: stale) = 0 :: token stale := token_of_not_isspace (by decide)
  have hlt : (methodToken (line ++ 0 :: stale)).length < 512 := hfit.method
  rw [hmethod, hnul, List.length_append, List.length_cons] at hlt
  omega

/-- **A call that returns** has answered the first line, and what was in the buffer behind it. -/
theorem Request.exists_answer_eq {r : Request} {fs : FileSystem} {l : Locals}
    {filename : CArray buffSize} {res : ℤ × CArray buffSize} {w : Calls}
    (hok : acceptRequest fs l filename (Calls.reading r.answers) = .ok (res, w)) :
    r.text ≠ [] ∧ ∃ stale, TokensFit (firstLine r.text ++ 0 :: stale) ∧
      res = answer fs (firstLine r.text ++ 0 :: stale) filename := by
  obtain ⟨a, ha, hline, htokens, rfl, -⟩ := exists_of_acceptRequest_eq_ok (le_refl _) hok
  have htext : r.text ≠ [] := fun h ↦
    Option.some_ne_none a (ha.symm.trans (r.requestLine_eq_none h l.buf))
  obtain ⟨b, hb, hfirst, -⟩ := r.exists_requestLine_eq htext l.buf
  obtain rfl := Option.some.inj (ha.symm.trans hb)
  rw [a.bytes_buffer hline, hfirst] at htokens ⊢
  exact ⟨htext, _, htokens, rfl⟩

/-- A request that is not bare is answered by its first line alone. -/
theorem Request.answer_eq_of_not_bare {r : Request} {stale : List UInt8} (hbare : ¬ Bare r.text)
    (hfit : TokensFit (firstLine r.text ++ 0 :: stale)) (fs : FileSystem)
    (filename : CArray buffSize) :
    answer fs (firstLine r.text ++ 0 :: stale) filename =
      answer fs (firstLine r.text) filename := by
  refine answer_append_nul fs filename ?_ stale
  by_cases hspace : ∃ c ∈ firstLine r.text, isspace c = true
  · exact Or.inl hspace
  · -- a line without whitespace has no newline either, and is all of the request
    have hword : ∀ c ∈ firstLine r.text, isspace c = false := fun c hc ↦
      Bool.eq_false_iff.2 fun hc' ↦ hspace ⟨c, hc, hc'⟩
    have hnl : newline ∉ r.text := fun hmem ↦ by
      have hfirst : newline ∈ firstLine r.text := by
        rw [firstLine, if_pos hmem]
        exact List.mem_append_right _ (List.mem_singleton_self _)
      exact absurd (hword newline hfirst) (by decide)
    rw [firstLine_of_notMem hnl] at hword hfit ⊢
    rw [methodToken_eq_self hword]
    refine Or.inr fun hserved ↦ hbare ⟨hword, hserved, ?_⟩
    by_contra hlength
    exact not_tokensFit_of_word hword (not_lt.1 hlength) hfit

/-- Local arrays with a url of one byte behind the first `k` bytes of `buf`. -/
def staleLocals (k : ℕ) (c : UInt8) : Locals :=
  { zeroLocals with buf := zeroLocals.buf.overlay (List.replicate k 0 ++ [32, c, 32]) }

/-- The loops run on over the NUL. -/
theorem tokens_of_word {line : List UInt8} (h : ∀ c ∈ line, isspace c = false) {c : UInt8}
    (hc : isspace c = false) (rest : List UInt8) :
    methodToken (line ++ 0 :: 32 :: c :: 32 :: rest) = line ++ [0] ∧
      methodGap (line ++ 0 :: 32 :: c :: 32 :: rest) = [32] ∧
      urlToken (line ++ 0 :: 32 :: c :: 32 :: rest) = [c] := by
  have hspace : isspace 32 = true := by decide
  have hword : ∀ b ∈ line ++ [0], isspace b = false := fun b hb ↦ by
    rcases List.mem_append.1 hb with hb | hb
    · exact h b hb
    · rw [List.mem_singleton.1 hb]
      decide
  have hmethod : methodToken (line ++ 0 :: 32 :: c :: 32 :: rest) = line ++ [0] := by
    rw [methodToken, List.append_cons line 0]
    exact token_append hword hspace
  have hdrop : (line ++ 0 :: 32 :: c :: 32 :: rest).drop (line ++ [0]).length =
      32 :: c :: 32 :: rest := by
    rw [List.append_cons line 0 (32 :: c :: 32 :: rest), List.drop_left]
  have hgap : methodGap (line ++ 0 :: 32 :: c :: 32 :: rest) = [32] := by
    rw [methodGap, hmethod, hdrop]
    exact gap_append (List.forall_mem_singleton.2 hspace) hc
  refine ⟨hmethod, hgap, ?_⟩
  rw [urlToken, hmethod, hgap, ← List.drop_drop, hdrop]
  exact token_append (List.forall_mem_singleton.2 hc) hspace

theorem tokensFit_of_word {line : List UInt8} (h : ∀ c ∈ line, isspace c = false)
    (hlength : line.length < 511) {c : UInt8} (hc : isspace c = false) (rest : List UInt8) :
    TokensFit (line ++ 0 :: 32 :: c :: 32 :: rest) := by
  obtain ⟨hmethod, hgap, hurl⟩ := tokens_of_word h hc rest
  refine ⟨?_, ?_, ?_⟩
  · rw [hmethod, List.length_append]
    exact Nat.succ_lt_succ hlength
  · rw [hurl]
    exact (show 1 < 512 by decide)
  · rw [hmethod, hgap, hurl, List.length_append]
    show line.length + 1 + 1 + 1 < 1024
    omega

/-- The url is what they find there. -/
theorem answer_of_word {n : ℕ} (fs : FileSystem) (localPath : CArray n) {line : List UInt8}
    (h : ∀ c ∈ line, isspace c = false) (hserved : Served (line.takeWhile (· ≠ 0))) {c : UInt8}
    (hc : isspace c = false) (hc0 : c ≠ 0) (rest : List UInt8) :
    answer fs (line ++ 0 :: 32 :: c :: 32 :: rest) localPath =
      ((located fs (requestPath [c])).1,
        localPath.overlay ((located fs (requestPath [c])).2 ++ [0])) := by
  obtain ⟨hmethod, -, hurl⟩ := tokens_of_word h hc rest
  have hurl0 : ([c] : List UInt8).takeWhile (· ≠ 0) = [c] :=
    CArray.takeWhile_ne_nul fun hmem ↦ hc0 (List.mem_singleton.1 hmem).symm
  rw [answer, hmethod, CArray.takeWhile_append_nul, if_pos hserved, hurl, hurl0]

/-- A short line over the stale array, with its NUL. -/
theorem exists_bytes_overlay_staleLocals {line : List UInt8} (hlength : line.length < 511)
    (c : UInt8) :
    ∃ rest, ((staleLocals (line.length + 1) c).buf.overlay (line ++ [0])).bytes =
      line ++ 0 :: 32 :: c :: 32 :: rest := by
  have hstale : (List.replicate (line.length + 1) 0 ++ [32, c, 32]).length = line.length + 4 := by
    rw [List.length_append, List.length_replicate]
    rfl
  have hnul : (line ++ [0]).length = line.length + 1 := List.length_append
  rw [CArray.bytes_overlay _ (show (line ++ [0]).length ≤ 1024 by omega), staleLocals,
    CArray.bytes_overlay _ (show _ ≤ 1024 by omega), hnul, List.append_assoc, List.append_assoc,
    List.drop_left' List.length_replicate]
  exact ⟨_, rfl⟩

/-- **A bare request** is answered by the url that the buffer held. -/
theorem Request.exists_acceptRequest_eq (r : Request) (fs : FileSystem)
    (filename : CArray buffSize) (hbare : Bare r.text) {c : UInt8} (hc : isspace c = false)
    (hc0 : c ≠ 0) :
    ∃ w, acceptRequest fs (staleLocals (r.text.length + 1) c) filename
        (Calls.reading r.answers) =
      .ok (((located fs (requestPath [c])).1,
        filename.overlay ((located fs (requestPath [c])).2 ++ [0])), w) := by
  obtain ⟨hword, hserved, hlength⟩ := hbare
  have htext : r.text ≠ [] := fun hnil ↦ by
    rw [hnil] at hserved
    exact absurd hserved (by decide)
  have hnl : newline ∉ r.text := fun hmem ↦ absurd (hword newline hmem) (by decide)
  obtain ⟨a, ha, hline, hbuffer⟩ :=
    r.exists_requestLine_eq htext (staleLocals (r.text.length + 1) c).buf
  rw [firstLine_of_notMem hnl] at hline hbuffer
  have hroom : a.line.length < buffSize := hline ▸ hlength.trans (by decide)
  obtain ⟨rest, hbytes⟩ := exists_bytes_overlay_staleLocals hlength c
  rw [← hbuffer] at hbytes
  have hfit : TokensFit a.buffer.bytes := hbytes ▸ tokensFit_of_word hword hlength hc rest
  refine ⟨{ Calls.reading r.answers with reads := a.rest }, ?_⟩
  rw [acceptRequest_of_fits ha hroom hfit (le_refl _), hbytes,
    answer_of_word fs filename hword hserved hc hc0]

/-- The path begins with the root and the url. -/
theorem documentRoot_append_isPrefix (fs : FileSystem) (u : List UInt8) :
    documentRoot ++ u <+: (located fs (requestPath u)).2 := by
  have hrequest : documentRoot ++ u <+: requestPath u := by
    rw [requestPath]
    split
    · exact List.prefix_append _ _
    · exact List.prefix_rfl
  refine hrequest.trans ?_
  rw [located]
  split
  next => exact List.prefix_rfl
  next => exact List.prefix_append _ _
  next => exact List.prefix_rfl

/-- Two urls in stale memory, and two paths. -/
theorem Request.not_staleFree_of_bare (r : Request) (fs : FileSystem) (filename : CArray buffSize)
    (hbare : Bare r.text) : ¬ StaleFree r fs filename := by
  intro h
  obtain ⟨w, hw⟩ := r.exists_acceptRequest_eq fs filename hbare (c := 97) (by decide) (by decide)
  obtain ⟨w', hw'⟩ := r.exists_acceptRequest_eq fs filename hbare (c := 98) (by decide) (by decide)
  obtain ⟨-, hcstr⟩ := h _ _ _ _ _ _ hw hw'
  dsimp only at hcstr
  rw [cstr_overlay_located fs filename (by decide) (by decide),
    cstr_overlay_located fs filename (by decide) (by decide)] at hcstr
  have hprefix : documentRoot ++ [97] <+: documentRoot ++ [98] :=
    List.prefix_of_prefix_length_le (documentRoot_append_isPrefix fs [97])
      (hcstr ▸ documentRoot_append_isPrefix fs [98]) (le_of_eq rfl)
  exact absurd hprefix (by decide)

/-- **When the answer depends on stale memory.** For every request and every file system, two calls
that return give the same result and the same path, whatever the local arrays held, if and only if
the request is not bare: it has whitespace in it, or is not a method that is served, or fills its
array. -/
theorem staleFree_iff (r : Request) (fs : FileSystem) (filename : CArray buffSize) :
    StaleFree r fs filename ↔ ¬ Bare r.text := by
  refine ⟨fun h hbare ↦ r.not_staleFree_of_bare fs filename hbare h, fun hbare ↦ ?_⟩
  intro l l' res res' w w' hok hok'
  obtain ⟨-, stale, hfit, rfl⟩ := Request.exists_answer_eq hok
  obtain ⟨-, stale', hfit', rfl⟩ := Request.exists_answer_eq hok'
  rw [Request.answer_eq_of_not_bare hbare hfit, Request.answer_eq_of_not_bare hbare hfit']
  exact ⟨rfl, rfl⟩

/-- A client that sends `GET` and closes. -/
def getThenClose : Request where
  bytes := ascii "GET"
  eofs := 1
  length_lt := by decide
  ends := Or.inl (by decide)

/-- It is answered with a path made of what the buffer held. -/
theorem not_staleFree_of_getThenClose : ¬ StaleFree getThenClose everyFile zeroFilename :=
  getThenClose.not_staleFree_of_bare everyFile zeroFilename
    ⟨isspace_eq_of_all (by decide), by decide, by decide⟩

end PreforkHttpd
