import PreforkHttpd.Io.Streams

/-!
# The lines that `fgets` reads

`fgets(s, n, stream)` takes up to `n - 1` bytes from a stream, and none behind a newline.
`lineChunk` is what it takes: a line with its newline, or a part of a line that has no room. What
was taken is stored with a NUL behind it. At the end of the stream nothing is taken, and nothing is
stored: the buffer is left as it is, and the result is a null pointer.

So calls with a fixed size cut a file into pieces (`lineChunks`). The end of a line (`fileLines`) is
always the end of a piece, and the pieces of a file are those of its lines
(`lineChunks_eq_flatten`).
-/

open Answered

namespace PreforkHttpd

variable {φ : Type} {m k n : ℕ} {b : UInt8} {bs line : List UInt8}

/-- Up to `k` bytes, and none behind a newline. -/
def lineChunk : ℕ → List UInt8 → List UInt8
  | 0, _ => []
  | _ + 1, [] => []
  | k + 1, b :: bs => if b = newline then [b] else b :: lineChunk k bs

@[simp] theorem lineChunk_nil (k : ℕ) : lineChunk k [] = [] := by
  cases k <;> rfl

theorem lineChunk_newline (k : ℕ) (bs : List UInt8) :
    lineChunk (k + 1) (newline :: bs) = [newline] := if_pos rfl

theorem lineChunk_cons (k : ℕ) (bs : List UInt8) (hb : b ≠ newline) :
    lineChunk (k + 1) (b :: bs) = b :: lineChunk k bs := if_neg hb

theorem length_lineChunk_le (k : ℕ) (bs : List UInt8) : (lineChunk k bs).length ≤ k := by
  induction k generalizing bs with
  | zero => exact le_refl _
  | succ k ih =>
    cases bs with
    | nil => exact Nat.zero_le _
    | cons b bs =>
      rw [lineChunk]
      split
      · exact Nat.succ_le_succ (Nat.zero_le k)
      · exact Nat.succ_le_succ (ih bs)

/-- **Nothing is lost**: what is taken is the start of the stream. -/
theorem lineChunk_isPrefix (k : ℕ) (bs : List UInt8) : lineChunk k bs <+: bs := by
  induction k generalizing bs with
  | zero => exact List.nil_prefix
  | succ k ih =>
    cases bs with
    | nil => exact List.nil_prefix
    | cons b bs =>
      rw [lineChunk]
      split
      · exact ⟨bs, rfl⟩
      · exact (List.prefix_cons_inj b).2 (ih bs)

theorem lineChunk_ne_nil (hk : 0 < k) (hbs : bs ≠ []) : lineChunk k bs ≠ [] := by
  obtain ⟨k, rfl⟩ := Nat.exists_eq_succ_of_ne_zero hk.ne'
  cases bs with
  | nil => exact absurd rfl hbs
  | cons b bs =>
    rw [lineChunk]
    split <;> exact List.cons_ne_nil _ _

/-- What a call leaves of a stream is shorter. -/
theorem length_drop_lineChunk_lt (hk : 0 < k) (hbs : bs ≠ []) :
    (bs.drop (lineChunk k bs).length).length < bs.length := by
  have hchunk := List.length_pos_of_ne_nil (lineChunk_ne_nil hk hbs)
  have hlength := List.length_pos_of_ne_nil hbs
  rw [List.length_drop]
  omega

/-- A line that has room is taken as a whole. -/
theorem lineChunk_line (hline : newline ∉ line) (hk : line.length < k) (bs : List UInt8) :
    lineChunk k (line ++ newline :: bs) = line ++ [newline] := by
  induction line generalizing k with
  | nil =>
    obtain ⟨k, rfl⟩ := Nat.exists_eq_succ_of_ne_zero hk.ne'
    exact lineChunk_newline k bs
  | cons b line ih =>
    obtain ⟨k, rfl⟩ := Nat.exists_eq_succ_of_ne_zero (Nat.ne_zero_of_lt hk)
    obtain ⟨hb, hline⟩ := not_or.1 (List.mem_cons.not.1 hline)
    rw [List.cons_append, lineChunk_cons k _ (Ne.symm hb), ih hline (Nat.lt_of_succ_lt_succ hk)]
    rfl

/-- **The lines of a file**, as calls with room for `k + 1` bytes cut it. -/
def lineChunks (k : ℕ) (bs : List UInt8) : List (List UInt8) :=
  if h : bs = [] then []
  else lineChunk (k + 1) bs :: lineChunks k (bs.drop (lineChunk (k + 1) bs).length)
termination_by bs.length
decreasing_by
  exact length_drop_lineChunk_lt (Nat.succ_pos k) h

@[simp] theorem lineChunks_nil (k : ℕ) : lineChunks k [] = [] := by
  rw [lineChunks, dif_pos rfl]

theorem lineChunks_of_ne_nil (hbs : bs ≠ []) : lineChunks k bs =
    lineChunk (k + 1) bs :: lineChunks k (bs.drop (lineChunk (k + 1) bs).length) := by
  rw [lineChunks, dif_neg hbs]

theorem length_le_of_mem_lineChunks (h : line ∈ lineChunks k bs) : line.length ≤ k + 1 := by
  induction bs using lineChunks.induct k with
  | case1 => simp at h
  | case2 bs hbs ih =>
    rw [lineChunks_of_ne_nil hbs, List.mem_cons] at h
    obtain rfl | h := h
    · exact length_lineChunk_le _ _
    · exact ih h

/-- **Lines that have room** are what the file is cut into. -/
theorem lineChunks_flatten {lines : List (List UInt8)}
    (h : ∀ line ∈ lines, ∃ text, line = text ++ [newline] ∧ newline ∉ text ∧ text.length ≤ k) :
    lineChunks k lines.flatten = lines := by
  induction lines with
  | nil => exact lineChunks_nil k
  | cons line lines ih =>
    obtain ⟨⟨text, rfl, hline, hk⟩, hrest⟩ := List.forall_mem_cons.1 h
    have hflatten : ((text ++ [newline]) :: lines).flatten =
        text ++ newline :: lines.flatten := by simp
    have hne : text ++ newline :: lines.flatten ≠ [] :=
      List.append_ne_nil_of_right_ne_nil _ (List.cons_ne_nil _ _)
    have hchunk : lineChunk (k + 1) (text ++ newline :: lines.flatten) = text ++ [newline] :=
      lineChunk_line hline (Nat.lt_succ_of_le hk) lines.flatten
    have hdrop : (text ++ newline :: lines.flatten).drop (text ++ [newline]).length =
        lines.flatten := by
      rw [List.append_cons text newline lines.flatten, List.drop_left]
    rw [hflatten, lineChunks_of_ne_nil hne, hchunk, hdrop, ih hrest]

/-! ### The lines of a file -/

/-- What a call takes of a stream that begins with a part of a line for which there is no more
room. -/
theorem lineChunk_append (hline : newline ∉ line) (bs : List UInt8) :
    lineChunk line.length (line ++ bs) = line := by
  induction line with
  | nil => rfl
  | cons b line ih =>
    obtain ⟨hb, hline⟩ := not_or.1 (List.mem_cons.not.1 hline)
    rw [List.cons_append, List.length_cons, lineChunk_cons _ _ (Ne.symm hb), ih hline]

/-- **The end of a line is an end of a piece**, whatever the room. -/
theorem lineChunks_append (k : ℕ) {line : List UInt8} (hline : newline ∉ line) (bs : List UInt8) :
    lineChunks k (line ++ newline :: bs) =
      lineChunks k (line ++ [newline]) ++ lineChunks k bs := by
  have hne : ∀ bs : List UInt8, line ++ newline :: bs ≠ [] := fun _ ↦
    List.append_ne_nil_of_right_ne_nil _ (List.cons_ne_nil _ _)
  rw [lineChunks_of_ne_nil (hne bs), lineChunks_of_ne_nil (hne [])]
  rcases Nat.lt_or_ge k line.length with hk | hk
  · -- a first piece of the line has no newline, and the rest of it is shorter
    have hcut := List.take_append_drop (k + 1) line
    have hpart : newline ∉ line.take (k + 1) := fun h ↦ hline (List.mem_of_mem_take h)
    have hrest : newline ∉ line.drop (k + 1) := fun h ↦ hline (List.mem_of_mem_drop h)
    have hlength : (line.take (k + 1)).length = k + 1 := List.length_take_of_le hk
    have hchunk : ∀ bs : List UInt8,
        lineChunk (k + 1) (line ++ newline :: bs) = line.take (k + 1) := fun bs ↦ by
      have h := lineChunk_append hpart (line.drop (k + 1) ++ newline :: bs)
      rwa [hlength, ← List.append_assoc, hcut] at h
    have hdrop : ∀ bs : List UInt8, (line ++ newline :: bs).drop (line.take (k + 1)).length =
        line.drop (k + 1) ++ newline :: bs := fun bs ↦ by
      rw [hlength, List.drop_append_of_le_length hk]
    rw [hchunk, hchunk, hdrop, hdrop, List.cons_append, lineChunks_append k hrest bs]
  · have hchunk := lineChunk_line hline (Nat.lt_succ_of_le hk)
    rw [hchunk, hchunk, List.append_cons line newline bs, List.drop_left, List.drop_length,
      lineChunks_nil, List.singleton_append]
termination_by line.length
decreasing_by
  rw [List.length_drop]
  omega

/-- **The lines of a file**, each with its newline. The last one need not have one. -/
def fileLines (bs : List UInt8) : List (List UInt8) :=
  if _ : bs = [] then []
  else lineChunk bs.length bs :: fileLines (bs.drop (lineChunk bs.length bs).length)
termination_by bs.length
decreasing_by
  have hbs : bs ≠ [] := ‹_›
  exact length_drop_lineChunk_lt (List.length_pos_of_ne_nil hbs) hbs

/-- A line that is taken with less room is the same line, as long as it fits. -/
theorem lineChunk_lineChunk {j : ℕ} (h : (lineChunk j bs).length ≤ k) :
    lineChunk k (lineChunk j bs) = lineChunk j bs := by
  induction j generalizing k bs with
  | zero => exact lineChunk_nil k
  | succ j ih =>
    cases bs with
    | nil => exact lineChunk_nil k
    | cons b bs =>
      by_cases hb : b = newline
      · subst hb
        rw [lineChunk_newline] at h ⊢
        obtain ⟨k, rfl⟩ := Nat.exists_eq_add_of_le' h
        exact lineChunk_newline k []
      · rw [lineChunk_cons j bs hb] at h ⊢
        obtain ⟨k, rfl⟩ := Nat.exists_eq_add_of_lt (Nat.lt_of_succ_le h)
        rw [lineChunk_cons _ _ hb, ih (by omega)]

/-- **A line that fits is one piece.** -/
theorem lineChunks_of_mem_fileLines (hline : line ∈ fileLines bs) (hk : line.length ≤ k + 1) :
    lineChunks k line = [line] := by
  induction bs using fileLines.induct with
  | case1 => simp [fileLines] at hline
  | case2 bs hbs ih =>
    rw [fileLines, dif_neg hbs, List.mem_cons] at hline
    obtain rfl | hline := hline
    · have hne := lineChunk_ne_nil (List.length_pos_of_ne_nil hbs) hbs
      rw [lineChunks_of_ne_nil hne, lineChunk_lineChunk hk, List.drop_length, lineChunks_nil]
    · exact ih hline

/-- **A file is cut line by line**: the pieces of a file are the pieces of its lines. -/
theorem lineChunks_eq_flatten (k : ℕ) (bs : List UInt8) :
    lineChunks k bs = ((fileLines bs).map (lineChunks k)).flatten := by
  induction bs using fileLines.induct with
  | case1 => simp [fileLines]
  | case2 bs hbs ih =>
    rw [fileLines, dif_neg hbs, List.map_cons, List.flatten_cons, ← ih]
    by_cases hmem : newline ∈ bs
    · obtain ⟨line, rest, rfl, hline⟩ := List.eq_append_cons_of_mem hmem
      have hlt : line.length < (line ++ newline :: rest).length := by simp
      rw [lineChunk_line hline hlt, lineChunks_append k hline, List.append_cons line newline rest,
        List.drop_left]
    · have hlast := lineChunk_append hmem []
      rw [List.append_nil] at hlast
      rw [hlast, List.drop_length, lineChunks_nil, List.append_nil]

/-! ### The function -/

/-- What a call of `fgets` leaves: the buffer, the rest of the stream, and whether it returned a
null pointer. -/
structure Fetched (m : ℕ) where
  buffer : CArray m
  stream : List UInt8
  null : Bool
deriving DecidableEq

/-- `fgets(s, n, stream)`, with no failure of the stream. -/
def fgets (loc : ℕ → φ) (buffer : CArray m) (n : ℕ) (stream : List UInt8) :
    Checked φ (Fetched m) :=
  let chunk := lineChunk (n - 1) stream
  if stream = [] then .ok ⟨buffer, [], true⟩
  else (buffer.storeAll loc 0 (chunk ++ [0])).map fun buffer ↦
    ⟨buffer, stream.drop chunk.length, false⟩

theorem fgets_nil (loc : ℕ → φ) (buffer : CArray m) (n : ℕ) :
    fgets loc buffer n [] = .ok ⟨buffer, [], true⟩ := by
  rw [fgets, if_pos rfl]

/-- What is taken has room in a buffer of the size that `fgets` is given. -/
theorem length_lineChunk_lt (hn : 0 < n) (hnm : n ≤ m) (bs : List UInt8) :
    (lineChunk (n - 1) bs).length < m := by
  have hlength := length_lineChunk_le (n - 1) bs
  omega

/-- **`fgets` stores what it takes**, in a buffer of the size that it is given. -/
theorem fgets_of_ne_nil (loc : ℕ → φ) (buffer : CArray m) (hn : 0 < n) (hnm : n ≤ m)
    (hbs : bs ≠ []) :
    fgets loc buffer n bs = .ok ⟨CArray.overlay (lineChunk (n - 1) bs ++ [0]) buffer,
      bs.drop (lineChunk (n - 1) bs).length, false⟩ := by
  have hlength : (lineChunk (n - 1) bs ++ [0]).length ≤ m :=
    CArray.length_concat_le (length_lineChunk_lt hn hnm bs)
  rw [fgets, if_neg hbs, CArray.storeAll_zero _ _ hlength]
  rfl

end PreforkHttpd
