import PreforkHttpd.Http.Containment

/-!
# What `accept_request` answers

Two statements about the result of `accept_request` and the path it leaves to its caller.

`acceptRequest_words` is about requests as they should be: a `RequestWords` is a line of two words
with whitespace behind each, short enough for the arrays. On every such line the four loops find the
two words, and the answer is the one that the method, the url and the file system ask for.

`servable_iff` is about every request that is answered with `HTTP_SUCCESS`. The caller opens the
path without a look at it, so it should name something that can be opened. The path is looked up
once, and for a directory another one is returned, which is not looked up: the answer is right
exactly when the index file below the directory is there and is no directory itself.
-/

open Answered

namespace PreforkHttpd

/-! ### Two words on a line -/

/-- A request line of two words: a method and a url, whitespace behind each of them, and the rest of
the line up to its only newline. -/
structure RequestWords where
  method : List UInt8
  space₁ : List UInt8
  url : List UInt8
  space₂ : List UInt8
  rest : List UInt8
  method_ne_nil : method ≠ []
  isspace_method : ∀ c ∈ method, isspace c = false
  nul_notMem_method : 0 ∉ method
  length_method : method.length ≤ 511
  space₁_ne_nil : space₁ ≠ []
  isspace_space₁ : ∀ c ∈ space₁, isspace c = true
  url_ne_nil : url ≠ []
  isspace_url : ∀ c ∈ url, isspace c = false
  nul_notMem_url : 0 ∉ url
  length_url : url.length ≤ 511
  space₂_ne_nil : space₂ ≠ []
  isspace_space₂ : ∀ c ∈ space₂, isspace c = true
  nul_notMem_rest : 0 ∉ rest
  length_line : (method ++ space₁ ++ url ++ space₂ ++ rest).length ≤ 1023
  newline_line : ∃ text,
    method ++ space₁ ++ url ++ space₂ ++ rest = text ++ [newline] ∧ newline ∉ text

namespace RequestWords

/-- The line. -/
def line (r : RequestWords) : List UInt8 := r.method ++ r.space₁ ++ r.url ++ r.space₂ ++ r.rest

/-- The path that the url stands for. -/
def path (r : RequestWords) : List UInt8 :=
  documentRoot ++ r.url ++ if r.url.getLast? = some slash then ascii "index.html" else []

/-- The method is `GET` or `POST` up to letter case. -/
def GetOrPost (r : RequestWords) : Prop :=
  r.method.map tolower = ascii "get" ∨ r.method.map tolower = ascii "post"

instance (r : RequestWords) : Decidable r.GetOrPost := inferInstanceAs (Decidable (_ ∨ _))

variable (r : RequestWords)

theorem served_method_iff : Served r.method ↔ r.GetOrPost := by
  have hget : (ascii "GET").map tolower = ascii "get" := by decide
  have hpost : (ascii "POST").map tolower = ascii "post" := by decide
  rw [Served, GetOrPost, strcasecmp, strcasecmp, hget, hpost, decide_eq_false_iff_not, not_not,
    decide_eq_false_iff_not, not_not]

/-- A slash at the end of the url is one at the end of the path. -/
theorem requestPath_url : requestPath r.url = r.path := by
  have hlast : (documentRoot ++ r.url).getLast? = r.url.getLast? := by
    rw [List.getLast?_append, List.getLast?_eq_some_getLast r.url_ne_nil]
    rfl
  rw [requestPath, path, hlast]
  split
  · rfl
  · exact (List.append_nil _).symm

/-- The arrival of the line over `under`. -/
def arrival (under : CArray buffSize) (more : List ReadAnswer) : Arrival := ⟨r.line, under, more⟩

/-- **The line arrives whole**: its last byte is its only newline. -/
theorem requestLine_eq (under : CArray buffSize) (more : List ReadAnswer) :
    requestLine (r.line.map .byte ++ more) 0 [] under = some (r.arrival under more) := by
  obtain ⟨text, hline, hnl⟩ := r.newline_line
  have hlength := r.length_line
  have hmethod := List.length_pos_of_ne_nil r.method_ne_nil
  have hspace := List.length_pos_of_ne_nil r.space₁_ne_nil
  have htotal := congrArg List.length hline
  simp only [List.length_append, List.length_singleton] at hlength htotal
  have htext : text ≠ [] := List.ne_nil_of_length_pos (by omega)
  have harrives := requestLine_of_line under more text [] (i := 0) hnl
    (show 0 + text.length < 1024 by omega) (Or.inr htext)
  rw [arrival, line, hline, List.map_append, List.append_assoc]
  exact harrives

/-- **The loops find the words.** -/
theorem tokens_eq (stale : List UInt8) :
    methodToken (r.line ++ 0 :: stale) = r.method ∧ methodGap (r.line ++ 0 :: stale) = r.space₁ ∧
      urlToken (r.line ++ 0 :: stale) = r.url := by
  obtain ⟨b, bs, hbs⟩ := List.exists_cons_of_ne_nil r.space₁_ne_nil
  obtain ⟨c, cs, hcs⟩ := List.exists_cons_of_ne_nil r.url_ne_nil
  obtain ⟨d, ds, hds⟩ := List.exists_cons_of_ne_nil r.space₂_ne_nil
  have hb : isspace b = true := r.isspace_space₁ b (hbs ▸ List.mem_cons_self)
  have hc : isspace c = false := r.isspace_url c (hcs ▸ List.mem_cons_self)
  have hd : isspace d = true := r.isspace_space₂ d (hds ▸ List.mem_cons_self)
  have hline : r.line ++ 0 :: stale =
      r.method ++ (r.space₁ ++ (r.url ++ (r.space₂ ++ (r.rest ++ 0 :: stale)))) := by
    simp only [line, List.append_assoc]
  have hmethod : methodToken (r.line ++ 0 :: stale) = r.method := by
    rw [methodToken, hline, hbs]
    exact token_append r.isspace_method hb
  have hspace : methodGap (r.line ++ 0 :: stale) = r.space₁ := by
    rw [methodGap, hmethod, hline, List.drop_left, hcs]
    exact gap_append r.isspace_space₁ hc
  refine ⟨hmethod, hspace, ?_⟩
  rw [urlToken, hmethod, hspace, hline, ← List.drop_drop, List.drop_left, List.drop_left, hds]
  exact token_append r.isspace_url hd

/-- The words fit their arrays. -/
theorem tokensFit (stale : List UInt8) : TokensFit (r.line ++ 0 :: stale) := by
  obtain ⟨hmethod, hspace, hurl⟩ := r.tokens_eq stale
  have hlength := r.length_line
  simp only [List.length_append] at hlength
  refine ⟨?_, ?_, ?_⟩
  · rw [hmethod]
    exact Nat.lt_succ_of_le r.length_method
  · rw [hurl]
    exact Nat.lt_succ_of_le r.length_url
  · rw [hmethod, hspace, hurl]
    show _ < 1024
    omega

/-- What is made of the line. -/
theorem answer_line (fs : FileSystem) (stale : List UInt8) (filename : CArray buffSize) :
    answer fs (r.line ++ 0 :: stale) filename =
      if r.GetOrPost then
        ((located fs r.path).1, filename.overlay ((located fs r.path).2 ++ [0]))
      else (httpErrorMethod, filename) := by
  obtain ⟨hmethod, -, hurl⟩ := r.tokens_eq stale
  rw [answer, hmethod, hurl, CArray.takeWhile_ne_nul r.nul_notMem_method,
    CArray.takeWhile_ne_nul r.nul_notMem_url, requestPath_url]
  exact if_congr r.served_method_iff rfl rfl

end RequestWords

/-- **The request line is split correctly.** On every line of two words `accept_request` returns.
It refuses a method that is neither `GET` nor `POST` and leaves the caller's array as it was;
otherwise the result and the path are those of the url in the file system. -/
theorem acceptRequest_words (r : RequestWords) (fs : FileSystem) (l : Locals)
    (filename : CArray buffSize) (w : Calls) (more : List ReadAnswer) :
    ∃ code localPath, acceptRequest fs l filename { w with reads := r.line.map .byte ++ more } =
        .ok ((code, localPath), { w with reads := more }) ∧
      (code = httpErrorMethod ↔ ¬ r.GetOrPost) ∧
      (¬ r.GetOrPost → localPath = filename) ∧
      (r.GetOrPost → (code, localPath.cstr) = located fs r.path) := by
  have hline : (r.arrival l.buf more).line.length < buffSize := Nat.lt_succ_of_le r.length_line
  have hbytes : (r.arrival l.buf more).buffer.bytes =
      r.line ++ 0 :: l.buf.bytes.drop (r.line.length + 1) := Arrival.bytes_buffer _ hline
  have hfit : TokensFit (r.arrival l.buf more).buffer.bytes := by
    rw [hbytes]
    exact r.tokensFit _
  have hok : acceptRequest fs l filename { w with reads := r.line.map .byte ++ more } =
      .ok (answer fs (r.arrival l.buf more).buffer.bytes filename, { w with reads := more }) :=
    acceptRequest_of_fits (r.requestLine_eq l.buf more) hline hfit (le_refl _)
  rw [hbytes, RequestWords.answer_line] at hok
  by_cases hserved : r.GetOrPost
  · rw [if_pos hserved] at hok
    have hurl : r.url.length < partSize := Nat.lt_succ_of_le r.length_url
    have hcstr := cstr_overlay_located fs filename r.nul_notMem_url hurl
    rw [r.requestPath_url] at hcstr
    exact ⟨_, _, hok, iff_of_false (located_ne_httpErrorMethod fs r.path) (not_not.2 hserved),
      fun h ↦ absurd hserved h, fun _ ↦ Prod.ext rfl hcstr⟩
  · rw [if_neg hserved] at hok
    exact ⟨_, _, hok, iff_of_true rfl hserved, fun _ ↦ rfl, fun h ↦ absurd h hserved⟩

/-- The line `get /a/ x`. -/
def getSlash : RequestWords where
  method := ascii "get"
  space₁ := [32]
  url := ascii "/a/"
  space₂ := [32]
  rest := 120 :: [newline]
  method_ne_nil := by decide
  isspace_method := isspace_eq_of_all (by decide)
  nul_notMem_method := by decide
  length_method := by decide
  space₁_ne_nil := by decide
  isspace_space₁ := isspace_eq_of_all (by decide)
  url_ne_nil := by decide
  isspace_url := isspace_eq_of_all (by decide)
  nul_notMem_url := by decide
  length_url := by decide
  space₂_ne_nil := by decide
  isspace_space₂ := isspace_eq_of_all (by decide)
  nul_notMem_rest := by decide
  length_line := by decide
  newline_line := ⟨ascii "get /a/ x", by decide, by decide⟩

/-- The line with more behind it, where nothing is found under its path. -/
theorem acceptRequest_words_getSlash :
    ∃ code localPath,
      acceptRequest (fun _ ↦ none) zeroLocals (CArray.fill buffSize 0)
          (Calls.reading (getSlash.line.map .byte ++ [.byte 97])) =
        .ok ((code, localPath), Calls.reading [.byte 97]) ∧
      code = httpErrorNotFind ∧ localPath.cstr = documentRoot ++ ascii "/a/index.html" := by
  obtain ⟨code, localPath, hrun, -, -, hlocated⟩ := acceptRequest_words getSlash (fun _ ↦ none)
    zeroLocals (CArray.fill buffSize 0) (Calls.reading []) [.byte 97]
  have hpath : located (fun _ ↦ none) getSlash.path =
    (httpErrorNotFind, documentRoot ++ ascii "/a/index.html") := by decide
  obtain ⟨hcode, hcstr⟩ := Prod.mk.inj ((hlocated (by decide)).trans hpath)
  exact ⟨code, localPath, hrun, hcode, hcstr⟩

/-! ### Success and what it names -/

/-- The path names an object that is not a directory. -/
def Servable (fs : FileSystem) (p : List UInt8) : Prop := fs p ≠ none ∧ fs p ≠ some .directory

instance (fs : FileSystem) (p : List UInt8) : Decidable (Servable fs p) :=
  inferInstanceAs (Decidable (_ ∧ _))

/-- If the path names a directory, there is an index file in it to be served. -/
def HasIndex (fs : FileSystem) (p : List UInt8) : Prop :=
  fs p = some .directory → Servable fs (p ++ ascii "/index.html")

/-- What is no directory is found under the path that was looked up. -/
theorem located_of_ne_directory {fs : FileSystem} {p : List UInt8} {k : FileKind}
    (hp : fs p = some k) (hk : k ≠ .directory) : located fs p = (httpSuccess, p) := by
  rw [located, hp]
  cases k with
  | directory => exact absurd rfl hk
  | regular content => rfl
  | other => rfl

/-- Of the three shapes of an answer only a directory gives a path that was not looked up. -/
theorem servable_located_iff {fs : FileSystem} {p q : List UInt8}
    (h : located fs p = (httpSuccess, q)) : Servable fs q ↔ HasIndex fs p := by
  match hp : fs p with
  | none =>
    rw [located, hp] at h
    exact absurd (Prod.mk.inj h).1 (by decide)
  | some k =>
    by_cases hk : k = .directory
    · rw [located, hp, hk] at h
      obtain ⟨-, rfl⟩ := Prod.mk.inj h
      exact ⟨fun hserved _ ↦ hserved, fun hindex ↦ hindex (hk ▸ hp)⟩
    · obtain ⟨-, rfl⟩ := Prod.mk.inj ((located_of_ne_directory hp hk).symm.trans h)
      have hdir : fs p ≠ some .directory := fun hdir ↦
        hk (Option.some.inj (hp.symm.trans hdir))
      exact iff_of_true ⟨hp ▸ Option.some_ne_none k, hdir⟩ fun h ↦ absurd h hdir

/-- **When a success names a file.** If `accept_request` returns `HTTP_SUCCESS`, the path it has
left to the caller names an object that is not a directory if and only if the path that was looked
up for the url is not that of a directory, or there is an index file in it to be served. -/
theorem servable_iff {fs : FileSystem} {l : Locals} {filename localPath : CArray buffSize}
    {w w' : Calls} (hok : acceptRequest fs l filename w = .ok ((httpSuccess, localPath), w')) :
    ∃ u, requestUrl l.buf w.reads = some u ∧
      (Servable fs localPath.cstr ↔ HasIndex fs (requestPath u)) := by
  obtain ⟨u, hu, hlocated⟩ := exists_requestUrl_of_success hok
  exact ⟨u, hu, servable_located_iff hlocated⟩

/-- A url that names a regular file. -/
theorem servable_iff_file :
    ∃ localPath w', acceptRequest everyFile zeroLocals zeroFilename (get (ascii "/a")) =
        .ok ((httpSuccess, localPath), w') ∧
      ∃ u, requestUrl zeroLocals.buf (get (ascii "/a")).reads = some u ∧
        (Servable everyFile localPath.cstr ↔ HasIndex everyFile (requestPath u)) := by
  have harrival : requestLine (get (ascii "/a")).reads 0 [] zeroLocals.buf =
      some (getArrival (ascii "/a")) := rfl
  have hok : acceptRequest everyFile zeroLocals zeroFilename (get (ascii "/a")) =
      .ok ((httpSuccess, zeroFilename.overlay (requestPath (ascii "/a") ++ [0])), _) :=
    acceptRequest_of_fits harrival (by decide) ⟨by decide, by decide, by decide⟩ (le_refl _)
  exact ⟨_, _, hok, servable_iff hok⟩

/-- A file system with an empty directory. -/
def emptyDirectory : FileSystem := fun p ↦
  if p = documentRoot ++ ascii "/d" then some .directory else none

/-- The url of the directory is answered with success, and with a path under which there is
nothing. -/
theorem not_servable_of_emptyDirectory :
    ∃ localPath w', acceptRequest emptyDirectory zeroLocals zeroFilename (get (ascii "/d")) =
        .ok ((httpSuccess, localPath), w') ∧ ¬ Servable emptyDirectory localPath.cstr := by
  have harrival : requestLine (get (ascii "/d")).reads 0 [] zeroLocals.buf =
      some (getArrival (ascii "/d")) := rfl
  have hok : acceptRequest emptyDirectory zeroLocals zeroFilename (get (ascii "/d")) =
      .ok ((httpSuccess,
        zeroFilename.overlay (documentRoot ++ ascii "/d" ++ ascii "/index.html" ++ [0])), _) :=
    acceptRequest_of_fits harrival (by decide) ⟨by decide, by decide, by decide⟩ (le_refl _)
  refine ⟨_, _, hok, ?_⟩
  rw [CArray.cstr_overlay (by decide), CArray.takeWhile_ne_nul (by decide)]
  decide

end PreforkHttpd
