import PreforkHttpd.Conf.FileParam

/-!
# When a malformed configuration is harmless

A line of the configuration that holds no address and no port should change nothing. For
`file_param` every call of `fgets` gives it a configuration line, a long line several of them, and
what it does is decided by the two tokens that `strtok` finds: with both, it stores them, whatever
they are; with one or none, it gives a null pointer to `strcpy`.

The condition for both tokens can be read off the bytes. Where the tokens are looked for, there has
to be a byte other than `':'`, later a `':'`, and behind that a byte other than `'@'` (`TwoParted`),
and then the two strings between them are stored (`Spells`).

A line contains an address and a port when a byte of the one, a `':'` and a byte of the other stand
side by side in it (`ContainsPair`), and a text that does has both parts (`twoParted_scanned`). So a
configuration of short lines that all contain them is harmless (`harmlessFile_of_containsPair`). On
any other line the code is harmless only if the line spells the strings that are at `ip_addr` and
`port` already, which the line before it has spelled, and `harmlessFile_iff` is exact for a file of
any content.
-/

open LabelledRun

namespace PreforkHttpd

/-- The text contains an address and a port: a byte of the one, a `':'` and a byte of the other. -/
def ContainsPair (text : List UInt8) : Prop :=
  ∃ before b c after, text = before ++ b :: colon :: c :: after ∧ FieldByte b ∧ FieldByte c

/-- The place to start is not behind a byte of an address. -/
theorem scanned_append (before after : List UInt8) {b : UInt8} (hb : FieldByte b) :
    ∃ before', scanned (before ++ b :: after) = before' ++ b :: after := by
  have hspace : decide (b ∈ [space]) = false :=
    decide_eq_false (List.mem_singleton.not.2 hb.1)
  have hat : decide (b ∈ [atSign]) = false :=
    decide_eq_false (List.mem_singleton.not.2 hb.2.1)
  have hpos : ((before.dropWhile (· ∈ [space])).takeWhile (· ∈ [atSign])).length ≤
      before.length :=
    (List.takeWhile_prefix _).length_le.trans (List.dropWhile_suffix _).length_le
  rw [scanned, dropWhile_append_cons hspace, takeWhile_append_cons hat,
    List.drop_append_of_le_length hpos]
  exact ⟨_, rfl⟩

/-- The text has a byte other than `':'`, later a `':'`, and behind it a byte other than `'@'`. -/
def TwoParted (text : List UInt8) : Prop :=
  ∃ x b y z c w, text = (x ++ b :: y) ++ colon :: (z ++ c :: w) ∧ b ≠ colon ∧ c ≠ atSign

/-- From its first byte other than `':'` up to the next `':'` the text is `p.1`, and from the first
byte other than `'@'` behind that up to the next `'@'`, or to its end, it is `p.2`. -/
def Spells (text : List UInt8) (p : List UInt8 × List UInt8) : Prop :=
  ∃ colons ats rest, text = colons ++ (p.1 ++ colon :: (ats ++ (p.2 ++ rest))) ∧
    (∀ b ∈ colons, b = colon) ∧ p.1 ≠ [] ∧ colon ∉ p.1 ∧
    (∀ b ∈ ats, b = atSign) ∧ p.2 ≠ [] ∧ atSign ∉ p.2 ∧ ∀ b ∈ rest.head?, b = atSign

theorem spells_of_fields_eq_some {text : List UInt8} {p : List UInt8 × List UInt8}
    (h : fields text = some p) : Spells (scanned text) p := by
  obtain ⟨⟨ip, behind⟩, hip, h⟩ := Option.bind_eq_some_iff.1 h
  obtain ⟨⟨port, rest⟩, hport, rfl⟩ := Option.map_eq_some_iff.1 h
  obtain ⟨colons, hcolons, hne, hnot, hcut⟩ := firstToken_singleton_eq_some_iff.1 hip
  obtain ⟨ats, hats, hne', hnot', hcut'⟩ := firstToken_singleton_eq_some_iff.1 hport
  obtain hscanned | ⟨-, rfl⟩ := hcut
  · obtain ⟨rest', rfl, hhead⟩ : ∃ rest', behind = ats ++ (port ++ rest') ∧
        ∀ b ∈ rest'.head?, b = atSign := by
      obtain hrest | ⟨hrest, -⟩ := hcut'
      · exact ⟨atSign :: rest, hrest, fun b hb ↦ (Option.some.inj hb).symm⟩
      · exact ⟨[], (List.append_nil port).symm ▸ hrest,
          fun b hb ↦ absurd hb (Option.not_mem_none b)⟩
    exact ⟨colons, ats, rest', hscanned, hcolons, hne, hnot, hats, hne', hnot', hhead⟩
  · -- behind the end there is no second token
    cases hport

/-- **What a line gives, in its bytes.** -/
theorem fields_eq_some_iff {text : List UInt8} {p : List UInt8 × List UInt8} :
    fields text = some p ↔ Spells (scanned text) p := by
  refine ⟨spells_of_fields_eq_some, ?_⟩
  rintro ⟨colons, ats, rest, hscanned, hcolons, hne, hnot, hats, hne', hnot', hhead⟩
  have hip : firstToken [colon] (scanned text) = some (p.1, ats ++ (p.2 ++ rest)) :=
    firstToken_singleton_eq_some_iff.2 ⟨colons, hcolons, hne, hnot, Or.inl hscanned⟩
  have hport : firstToken [atSign] (ats ++ (p.2 ++ rest)) = some (p.2, rest.tail) := by
    refine firstToken_singleton_eq_some_iff.2 ⟨ats, hats, hne', hnot', ?_⟩
    cases rest with
    | nil => exact Or.inr ⟨by rw [List.append_nil], rfl⟩
    | cons c rest => exact Or.inl (by rw [hhead c rfl, List.tail_cons])
  rw [fields, hip, Option.bind_some, hport, Option.map_some]

/-- **When a line gives something**, and `strcpy` no null pointer. -/
theorem fields_ne_none_iff {text : List UInt8} : fields text ≠ none ↔ TwoParted (scanned text) := by
  constructor
  · intro h
    obtain ⟨⟨ip, port⟩, h⟩ := Option.ne_none_iff_exists'.1 h
    obtain ⟨colons, ats, rest, hscanned, -, hne, hnot, -, hne', hnot', -⟩ := fields_eq_some_iff.1 h
    obtain ⟨b, ip, rfl⟩ := List.exists_cons_of_ne_nil hne
    obtain ⟨c, port, rfl⟩ := List.exists_cons_of_ne_nil hne'
    refine ⟨colons, b, ip, ats, c, port ++ rest, ?_, fun hb ↦ hnot (hb ▸ List.mem_cons_self),
      fun hc ↦ hnot' (hc ▸ List.mem_cons_self)⟩
    rw [hscanned, List.append_assoc]
    rfl
  · rintro ⟨x, b, y, z, c, w, hscanned, hb, hc⟩
    have hmem : b ∈ x ++ b :: y := List.mem_append_right _ List.mem_cons_self
    obtain ⟨ip, rest, hip, hrest⟩ := exists_firstToken_of_append hmem
      (List.mem_singleton.not.2 hb) (List.mem_singleton_self colon) (z ++ c :: w)
    have hport : firstToken [atSign] rest ≠ none :=
      firstToken_ne_none (hrest.subset (List.mem_append_right _ List.mem_cons_self))
        (List.mem_singleton.not.2 hc)
    rw [fields, hscanned, hip, Option.bind_some, ne_eq, Option.map_eq_none_iff]
    exact hport

/-- Here `strtok` would find two tokens, but they are looked for from the second byte on. -/
example : fields (ascii "@:x\n") = none := by decide

/-- **A line with an address and a port has both parts**, whatever else it holds. -/
theorem twoParted_scanned {text : List UInt8} (h : ContainsPair text) :
    TwoParted (scanned text) := by
  obtain ⟨before, b, c, after, rfl, hb, hc⟩ := h
  obtain ⟨before', hscanned⟩ := scanned_append before (colon :: c :: after) hb
  refine ⟨before', b, [], [], c, after, ?_, hb.2.2.1, hc.2.1⟩
  rw [hscanned, List.append_assoc]
  rfl

namespace FileParam

/-- A line of the file, from its first `fgets` on: one after the other, the pieces into which calls
of `fgets` cut it. -/
def lineStep (s : FileParam) (line : List UInt8) : Option FileParam :=
  runFrom step s (lineChunks (bufsize - 2) line)

/-- **The line is harmless to the code**: it is dealt with, and if it does not contain an address
and a port it leaves the strings at `ip_addr` and `port` as they were. -/
def Keeps (s : FileParam) (line : List UInt8) : Prop :=
  ∃ s', s.lineStep line = some s' ∧ (¬ ContainsPair line → s'.strings = s.strings)

/-- Of each piece of a line, where the tokens are looked for. -/
def texts (line : List UInt8) : List (List UInt8) :=
  (lineChunks (bufsize - 2) line).map fun piece ↦ scanned (lineText piece)

/-- **Lines that are harmless** when `p` are the strings at `ip_addr` and `port`: every piece of
them has both parts, and a line without an address and a port spells what is there already, `p` at
first and then what the line before it has spelled. -/
def HarmlessFrom : List UInt8 × List UInt8 → List (List UInt8) → Prop
  | _, [] => True
  | p, line :: lines => (∀ text ∈ texts line, TwoParted text) ∧
    ∃ q, (∀ text ∈ (texts line).getLast?, Spells text q) ∧ (ContainsPair line ∨ q = p) ∧
      HarmlessFrom q lines

variable {s s' : FileParam} {line : List UInt8} {pieces : List (List UInt8)}

/-- Pieces are dealt with when all of them have two tokens, -/
theorem exists_runFrom_step_iff (hpieces : ∀ piece ∈ pieces, piece.length < bufsize) :
    (∃ s', runFrom step s pieces = some s') ↔
      ∀ piece ∈ pieces, fields (lineText piece) ≠ none :=
  exists_runFrom_iff_forall fun piece hpiece _ ↦ exists_step_iff (hpieces piece hpiece)

/-- and what they leave are the tokens of the last one. -/
theorem fields_getLast (hpieces : ∀ piece ∈ pieces, piece.length < bufsize)
    (hrun : runFrom step s pieces = some s') {piece : List UInt8}
    (hpiece : piece ∈ pieces.getLast?) : fields (lineText piece) = some s'.strings := by
  obtain ⟨before, rfl⟩ := List.getLast?_eq_some_iff.1 hpiece
  obtain ⟨m, -, hlast⟩ := runFrom_append_eq_some_iff.1 hrun
  obtain ⟨t, ht, hrest⟩ := runFrom_cons_eq_some_iff.1 hlast
  obtain rfl := Option.some.inj hrest
  have hlength := hpieces piece (List.mem_append_right _ (List.mem_singleton_self piece))
  exact (step_eq_some_iff hlength).1 ⟨t, ht, rfl⟩

theorem length_lt_of_mem_lineChunks {piece : List UInt8}
    (hpiece : piece ∈ lineChunks (bufsize - 2) line) : piece.length < bufsize :=
  Nat.lt_succ_of_le (length_le_of_mem_lineChunks hpiece)

/-- A line is dealt with when its pieces have both parts, -/
theorem exists_lineStep_iff :
    (∃ s', s.lineStep line = some s') ↔ ∀ text ∈ texts line, TwoParted text := by
  rw [texts, List.forall_mem_map]
  exact (exists_runFrom_step_iff fun _ ↦ length_lt_of_mem_lineChunks).trans
    (forall₂_congr fun _ _ ↦ fields_ne_none_iff)

/-- and what it leaves is what it spells in the last of them, if it has any. -/
theorem strings_eq_iff (h : s.lineStep line = some s') {q : List UInt8 × List UInt8} :
    s'.strings = q ↔ (∀ text ∈ (texts line).getLast?, Spells text q) ∧
      (lineChunks (bufsize - 2) line = [] → q = s.strings) := by
  rw [texts, List.getLast?_map]
  cases hlast : (lineChunks (bufsize - 2) line).getLast? with
  | none =>
    have hnil := List.getLast?_eq_none_iff.1 hlast
    rw [lineStep, hnil] at h
    obtain rfl := Option.some.inj h
    simp [hnil, eq_comm]
  | some piece =>
    have hne : lineChunks (bufsize - 2) line ≠ [] := fun hnil ↦ by
      rw [hnil] at hlast
      cases hlast
    have hfields := fields_getLast (fun _ ↦ length_lt_of_mem_lineChunks) h hlast
    simp only [Option.map_some, Option.mem_some_iff, forall_eq', hne, false_imp_iff, and_true,
      ← fields_eq_some_iff, hfields, Option.some.injEq]

/-- A line without pieces holds nothing. -/
theorem not_containsPair (h : lineChunks (bufsize - 2) line = []) : ¬ ContainsPair line := by
  rintro ⟨before, b, c, after, rfl, -, -⟩
  rw [lineChunks_of_ne_nil (List.append_ne_nil_of_right_ne_nil _ (List.cons_ne_nil _ _))] at h
  cases h

/-- A line in one piece that contains an address and a port is dealt with, unless a NUL hides
them. -/
theorem keeps_of_containsPair (hline : lineChunks (bufsize - 2) line = [line])
    (hzero : 0 ∉ line) (hpair : ContainsPair line) : s.Keeps line := by
  obtain ⟨s', hs'⟩ := (exists_lineStep_iff (s := s)).2 fun text htext ↦ by
    rw [texts, hline, List.map_singleton, List.mem_singleton] at htext
    rw [htext, lineText, CArray.takeWhile_ne_nul hzero]
    exact twoParted_scanned hpair
  exact ⟨s', hs', fun hnot ↦ absurd hpair hnot⟩

/-- **What harmless lines look like.** The induction is on the lines, and what one of them leaves is
what the next one finds. -/
theorem along_keeps_iff {lines : List (List UInt8)} :
    Along lineStep Keeps s lines ↔ HarmlessFrom s.strings lines := by
  induction lines generalizing s with
  | nil => exact iff_of_true trivial trivial
  | cons line lines ih =>
    by_cases hparts : ∀ text ∈ texts line, TwoParted text
    swap
    · refine iff_of_false (fun h ↦ hparts ?_) fun h ↦ hparts h.1
      obtain ⟨s', hs', -⟩ := h.1
      exact exists_lineStep_iff.1 ⟨s', hs'⟩
    obtain ⟨s', hs'⟩ := (exists_lineStep_iff (s := s)).2 hparts
    rw [along_cons_iff hs', ih, HarmlessFrom, and_iff_right hparts]
    constructor
    · rintro ⟨⟨s'', hs'', hkeep⟩, hrest⟩
      obtain rfl := Option.some.inj (hs'.symm.trans hs'')
      exact ⟨s'.strings, ((strings_eq_iff hs').1 rfl).1, or_iff_not_imp_left.2 hkeep, hrest⟩
    · rintro ⟨q, hspells, hor, hrest⟩
      obtain rfl : s'.strings = q :=
        (strings_eq_iff hs').2 ⟨hspells, fun hnil ↦ hor.resolve_left (not_containsPair hnil)⟩
      exact ⟨⟨s', hs', or_iff_not_imp_left.1 hor⟩, hrest⟩

end FileParam

open FileParam

/-- **The configuration is harmless**: `file_param` ends and returns, so that no null pointer is
given to `strcpy` and nothing is written outside an array, and every line without an address and a
port leaves `ip_addr` and `port` as they were. -/
def HarmlessFile (st : SockPair) (content : List UInt8) : Prop :=
  (∃ st', fileParam st (some content) = .ok (.returned st')) ∧
    Along lineStep Keeps (start st) (fileLines content)

/-- When all lines are dealt with, `file_param` returns. -/
theorem exists_fileParam_of_along {st : SockPair} {content : List UInt8}
    (h : Along lineStep Keeps (start st) (fileLines content)) :
    ∃ st', fileParam st (some content) = .ok (.returned st') := by
  have hdeals : ∀ {s : FileParam} {line : List UInt8}, True → s.Keeps line →
      ∃ s', s.lineStep line = some s' ∧ True := fun {s line} _ hkeep ↦ by
    obtain ⟨s', hs', -⟩ := hkeep
    exact ⟨s', hs', trivial⟩
  obtain ⟨t, hrun⟩ := exists_runFrom_of_along (fun _ ↦ True) hdeals trivial h
  refine ⟨t.st, fileParam_eq_ok_iff.2 ⟨t, ?_, rfl⟩⟩
  rw [lineChunks_eq_flatten, runFrom_flatten]
  exact hrun

/-- **A well-formed configuration is harmless**: one whose lines are short, have no NUL and contain
an address and a port each. -/
theorem harmlessFile_of_containsPair (st : SockPair) {content : List UInt8}
    (h : ∀ line ∈ fileLines content, line.length < bufsize ∧ 0 ∉ line ∧ ContainsPair line) :
    HarmlessFile st content := by
  have halong : Along lineStep Keeps (start st) (fileLines content) :=
    along_of_forall fun line hline s ↦ by
      obtain ⟨hlength, hzero, hpair⟩ := h line hline
      have hpiece := lineChunks_of_mem_fileLines hline (Nat.le_of_lt_succ hlength)
      exact keeps_of_containsPair hpiece hzero hpair
  exact ⟨exists_fileParam_of_along halong, halong⟩

/-- **When a malformed configuration is harmless**: when every piece of a line that `fgets` cuts has
both parts where the tokens are looked for, and every line contains an address and a port, or spells
what the line before it has spelled, and the first line what is at `ip_addr` and `port`. -/
theorem harmlessFile_iff (st : SockPair) (content : List UInt8) :
    HarmlessFile st content ↔
      HarmlessFrom (st.ipAddr.cstr, st.port.cstr) (fileLines content) := by
  have hstrings : (start st).strings = (st.ipAddr.cstr, st.port.cstr) := rfl
  rw [HarmlessFile, ← hstrings, ← along_keeps_iff, and_iff_right_iff_imp]
  exact exists_fileParam_of_along

/-- A file of one blank line ends in `strcpy` of a null pointer. -/
theorem not_harmlessFile_blank : initSockpair (some [newline]) = .error (.fault .null) ∧
    ¬ HarmlessFile ⟨CArray.fill _ 0, CArray.fill _ 0⟩ [newline] := by
  have hlines : lineChunks (bufsize - 2) [[newline]].flatten = [[newline]] :=
    lineChunks_flatten fun line hline ↦
      ⟨[], List.mem_singleton.1 hline, List.not_mem_nil, Nat.zero_le _⟩
  have hstep : ∀ s : FileParam, s.step [newline] = none := by
    intro s
    by_contra hne
    have hstep := Option.ne_none_iff_exists'.1 hne
    exact (exists_step_iff (by decide)).1 hstep (by decide)
  have hfile : ∀ st, fileParam st (some [newline]) = .error (.fault .null) := fun st ↦ by
    rw [fileParam_eq, show lineChunks (bufsize - 2) [newline] = [[newline]] from hlines,
      runFrom_cons, hstep]
    rfl
  refine ⟨hfile _, fun h ↦ ?_⟩
  obtain ⟨st', hst'⟩ := h.1
  rw [hfile] at hst'
  cases hst'

end PreforkHttpd
