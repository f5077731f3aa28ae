import PreforkHttpd.Conf.FileParam

/-!
# When a configuration is read back

A configuration line is some spaces, an `'@'`, the address, a `':'`, the port, an `'@'` and a
newline. Read by `file_param`, it gives the address and the port that it was written with as long as
there are no spaces before it: with one space or more, the code looks for the address right behind
the first of them, and finds what is left of the spaces, the `'@'` and the address.

A NUL in a field is the end of the line for all the functions of `string.h`. In an address, or at
the start of a port, it leaves `strtok` without a second token.

`fields_line` is what is read of a line, and `readBack_iff` is exact for a file of any number of
lines: the last of them decides what is read, and all of them whether the code gets there.
-/

open LabelledRun

namespace PreforkHttpd

/-- What a configuration line is made of, shorter than `BUFSIZE - 1` without its newline. -/
structure ConfLine where
  spaces : ℕ
  ip : List UInt8
  port : List UInt8
  ip_ne_nil : ip ≠ []
  port_ne_nil : port ≠ []
  fieldByte_ip : ∀ b ∈ ip, FieldByte b
  fieldByte_port : ∀ b ∈ port, FieldByte b
  short : spaces + ip.length + port.length + 3 < bufsize - 1

namespace ConfLine

variable (l : ConfLine)

/-- The line without its newline. -/
def content : List UInt8 :=
  List.replicate l.spaces space ++ atSign :: (l.ip ++ colon :: (l.port ++ [atSign]))

/-- The line. -/
def bytes : List UInt8 := l.content ++ [newline]

/-- No field ends at a NUL before it has begun, and the address does not end at one at all. -/
def NulFree : Prop := 0 ∉ l.ip ∧ l.port.head? ≠ some 0

instance : Decidable l.NulFree := inferInstanceAs (Decidable (_ ∧ _))

/-- What `file_param` takes for the address. -/
def readIp : List UInt8 := (List.replicate l.spaces space ++ atSign :: l.ip).tail

/-- What `file_param` takes for the port. -/
def readPort : List UInt8 := l.port.takeWhile (· ≠ 0)

theorem length_bytes : l.bytes.length = l.spaces + l.ip.length + l.port.length + 4 := by
  simp only [bytes, content, List.length_append, List.length_replicate, List.length_cons,
    List.length_nil]
  omega

theorem lead_ne_nil : List.replicate l.spaces space ++ atSign :: l.ip ≠ [] :=
  List.append_ne_nil_of_right_ne_nil _ (List.cons_ne_nil _ _)

theorem length_readIp : l.readIp.length = l.spaces + l.ip.length := by
  simp only [readIp, List.length_tail, List.length_append, List.length_replicate,
    List.length_cons]
  omega

theorem readIp_ne_nil : l.readIp ≠ [] := by
  have hip := List.length_pos_of_ne_nil l.ip_ne_nil
  have hlength := l.length_readIp
  exact List.ne_nil_of_length_pos (by omega)

theorem newline_not_mem_content : newline ∉ l.content := by
  have hip : newline ∉ l.ip := fun h ↦ (l.fieldByte_ip _ h).2.2.2 rfl
  have hport : newline ∉ l.port := fun h ↦ (l.fieldByte_port _ h).2.2.2 rfl
  intro h
  simp only [content, List.mem_append, List.mem_cons, List.mem_replicate, List.not_mem_nil, hip,
    hport, false_or, or_false] at h
  rcases h with ⟨-, h⟩ | h | h | h <;> exact absurd h (by decide)

end ConfLine

/-! ### What is read of a line -/

/-- With one `'@'` behind the spaces, the code starts at the second byte. -/
theorem scanned_spaces (k : ℕ) {x : List UInt8} (hx : x.head? ≠ some atSign) :
    scanned (List.replicate k space ++ atSign :: x) =
      (List.replicate k space ++ atSign :: x).tail := by
  have hspaces : ∀ b ∈ List.replicate k space, decide (b ∈ [space]) = true := fun b hb ↦ by
    rw [List.eq_of_mem_replicate hb]
    rfl
  have hx : x.takeWhile (· ∈ [atSign]) = [] := by
    cases x with
    | nil => rfl
    | cons b x =>
      refine List.takeWhile_cons_of_neg fun hb ↦ hx ?_
      rw [List.mem_singleton.1 (of_decide_eq_true hb)]
      rfl
  rw [scanned, List.dropWhile_append_of_pos hspaces, List.dropWhile_cons_of_neg (by decide),
    List.takeWhile_cons_of_pos (by decide), hx, List.length_singleton, List.drop_one]

/-- Without a `':'` there is no second token. -/
theorem fields_of_not_mem {text : List UInt8} (h : colon ∉ scanned text) : fields text = none := by
  have hword : ∀ b ∈ scanned text, b ∉ [colon] := fun b hb hc ↦
    h (List.mem_singleton.1 hc ▸ hb)
  rw [fields]
  by_cases hnil : scanned text = []
  · rw [hnil, firstToken_nil, Option.bind_none]
  · rw [firstToken_self hword hnil, Option.bind_some, firstToken_nil, Option.map_none]

/-- A NUL ends the text of a line, -/
theorem lineText_append_nul {x y : List UInt8} (hx : 0 ∉ x) : lineText (x ++ 0 :: y) = x :=
  (CArray.takeWhile_append_nul x y).trans (CArray.takeWhile_ne_nul hx)

/-- and no other byte does. -/
theorem lineText_append {x : List UInt8} (hx : 0 ∉ x) (y : List UInt8) :
    lineText (x ++ y) = x ++ lineText y :=
  List.takeWhile_append_of_pos fun _ hb ↦ decide_eq_true fun hzero ↦ hx (hzero ▸ hb)

namespace ConfLine

variable (l : ConfLine)

theorem bytes_eq : l.bytes = (List.replicate l.spaces space ++ [atSign]) ++
    (l.ip ++ (colon :: (l.port ++ [atSign, newline]))) := by
  simp only [bytes, content, List.append_assoc, List.cons_append, List.nil_append]

/-- The text of a line, up to its address. -/
theorem lineText_bytes : lineText l.bytes = List.replicate l.spaces space ++
    atSign :: lineText (l.ip ++ (colon :: (l.port ++ [atSign, newline]))) := by
  have hlead : (0 : UInt8) ∉ List.replicate l.spaces space ++ [atSign] := fun h ↦ by
    rcases List.mem_append.1 h with h | h
    · exact absurd (List.eq_of_mem_replicate h) (by decide)
    · exact absurd (List.mem_singleton.1 h) (by decide)
  rw [bytes_eq, lineText_append hlead, List.append_assoc, List.singleton_append]

/-- Where the tokens of a line are looked for. -/
theorem scanned_line : scanned (lineText l.bytes) = (List.replicate l.spaces space ++
    atSign :: lineText (l.ip ++ (colon :: (l.port ++ [atSign, newline])))).tail := by
  rw [lineText_bytes, scanned_spaces]
  intro h
  have hip : (l.ip ++ colon :: (l.port ++ [atSign, newline])).head? = some atSign := by
    rw [lineText, List.head?_takeWhile, Option.filter_eq_some_iff] at h
    exact h.1
  obtain ⟨b, ip, hb⟩ := List.exists_cons_of_ne_nil l.ip_ne_nil
  rw [hb, List.cons_append, List.head?_cons, Option.some.injEq] at hip
  exact (l.fieldByte_ip b (hb ▸ List.mem_cons_self)).2.1 hip

theorem colon_not_mem_lead {x : List UInt8} (hx : ∀ b ∈ x, b ∈ l.ip) :
    colon ∉ (List.replicate l.spaces space ++ atSign :: x).tail := by
  intro h
  rcases List.mem_append.1 (List.mem_of_mem_tail h) with h | h
  · exact absurd (List.eq_of_mem_replicate h) (by decide)
  · rcases List.mem_cons.1 h with h | h
    · exact absurd h (by decide)
    · exact (l.fieldByte_ip _ (hx _ h)).2.2.1 rfl

/-- What is read as the port, when it does not begin with a NUL. -/
theorem token_port (h : l.port.head? ≠ some 0) :
    ∃ rest, firstToken [atSign] (lineText (l.port ++ [atSign, newline])) =
      some (l.readPort, rest) := by
  have hword : ∀ b ∈ l.readPort, b ∉ [atSign] := fun b hb hat ↦
    (l.fieldByte_port b ((List.takeWhile_prefix _).subset hb)).2.1 (List.mem_singleton.1 hat)
  have hne : l.readPort ≠ [] := by
    obtain ⟨b, port, hb⟩ := List.exists_cons_of_ne_nil l.port_ne_nil
    rw [hb, List.head?_cons, ne_eq, Option.some.injEq] at h
    simp [readPort, hb, h]
  by_cases hzero : 0 ∈ l.port
  · obtain ⟨x, y, hport, hx⟩ := List.eq_append_cons_of_mem hzero
    have hread : l.readPort = x := by rw [readPort, hport]; exact lineText_append_nul hx
    rw [hport, List.append_assoc, List.cons_append, lineText_append_nul hx, ← hread]
    exact ⟨[], firstToken_self hword hne⟩
  · have hread : l.readPort = l.port := CArray.takeWhile_ne_nul hzero
    rw [lineText_append hzero, ← hread]
    exact ⟨[newline], firstToken_append hword hne (List.mem_singleton_self _) _⟩

/-- **What is read of a line**: the address with all that stands before it but the first byte, and
the port. -/
theorem fields_line : fields (lineText l.bytes) =
    if l.NulFree then some (l.readIp, l.readPort) else none := by
  have hscanned := l.scanned_line
  by_cases hip : 0 ∈ l.ip
  · -- the address is cut, and the `':'` with it
    obtain ⟨x, y, hx, hzero⟩ := List.eq_append_cons_of_mem hip
    rw [hx, List.append_assoc, List.cons_append, lineText_append_nul hzero] at hscanned
    rw [if_neg fun h ↦ h.1 hip, fields_of_not_mem]
    rw [hscanned]
    exact l.colon_not_mem_lead fun b hb ↦ hx ▸ List.mem_append_left _ hb
  · have hread : scanned (lineText l.bytes) =
        l.readIp ++ colon :: lineText (l.port ++ [atSign, newline]) := by
      have hcolon : lineText (colon :: (l.port ++ [atSign, newline])) =
          colon :: lineText (l.port ++ [atSign, newline]) :=
        List.takeWhile_cons_of_pos (by decide)
      rw [hscanned, lineText_append hip, hcolon, readIp,
        ← List.tail_append_of_ne_nil l.lead_ne_nil, List.append_assoc]
      rfl
    have hword : ∀ b ∈ l.readIp, b ∉ [colon] := fun b hb hc ↦
      l.colon_not_mem_lead (fun _ h ↦ h) (List.mem_singleton.1 hc ▸ hb)
    rw [fields, hread, firstToken_append hword l.readIp_ne_nil (List.mem_singleton_self _),
      Option.bind_some]
    by_cases hport : l.port.head? = some 0
    · obtain ⟨port, hport'⟩ : ∃ port, l.port = 0 :: port := List.head?_eq_some_iff.1 hport
      rw [if_neg fun h ↦ h.2 hport, hport']
      rfl
    · obtain ⟨rest, htoken⟩ := l.token_port hport
      rw [if_pos ⟨hip, hport⟩, htoken, Option.map_some]

/-! ### When it is what was written -/

theorem readIp_eq_iff : l.readIp = l.ip ↔ l.spaces = 0 := by
  constructor
  · intro h
    have hlength := congrArg List.length h
    rw [length_readIp] at hlength
    omega
  · intro h
    rw [readIp, h]
    rfl

theorem readPort_eq_iff : l.readPort = l.port ↔ 0 ∉ l.port := by
  refine ⟨fun h hzero ↦ ?_, CArray.takeWhile_ne_nul⟩
  rw [readPort, List.takeWhile_eq_self_iff] at h
  exact absurd (h 0 hzero) (by decide)

theorem length_bytes_lt : l.bytes.length < bufsize := by
  have hshort := l.short
  rw [length_bytes]
  omega

/-- A line is read when its fields are free of NUL, and what is read is at `ip_addr` and `port`. -/
theorem step_line_iff (s : FileParam) {p : List UInt8 × List UInt8} :
    (∃ s', s.step l.bytes = some s' ∧ s'.strings = p) ↔
      l.NulFree ∧ p = (l.readIp, l.readPort) := by
  rw [FileParam.step_eq_some_iff l.length_bytes_lt, fields_line]
  split
  next h => rw [Option.some.injEq, eq_comm, and_iff_right h]
  next h => exact iff_of_false nofun fun hp ↦ h hp.1

theorem exists_step_line_iff (s : FileParam) : (∃ s', s.step l.bytes = some s') ↔ l.NulFree := by
  rw [FileParam.exists_step_iff l.length_bytes_lt, fields_line]
  split
  next h => exact iff_of_true (Option.some_ne_none _) h
  next h => exact iff_of_false (fun hne ↦ hne rfl) h

/-- The lines of a file of configuration lines. -/
theorem lineChunks_bytes (ls : List ConfLine) :
    lineChunks (bufsize - 2) (ls.map bytes).flatten = ls.map bytes := by
  refine lineChunks_flatten fun line hline ↦ ?_
  obtain ⟨l, -, rfl⟩ := List.mem_map.1 hline
  refine ⟨l.content, rfl, l.newline_not_mem_content, ?_⟩
  have hlength := l.length_bytes
  have hshort := l.short
  rw [bytes, List.length_append, List.length_singleton] at hlength
  omega

/-- **What is read of a file of configuration lines**: what is read of its last line, as long as the
code gets there. -/
theorem fileParam_lines_iff (st : SockPair) (lines : List ConfLine) (last : ConfLine)
    (ip port : List UInt8) :
    (∃ st', fileParam st (some ((lines ++ [last]).map bytes).flatten) = .ok (.returned st') ∧
      st'.ipAddr.cstr = ip ∧ st'.port.cstr = port) ↔
      (∀ l ∈ lines ++ [last], l.NulFree) ∧ ip = last.readIp ∧ port = last.readPort := by
  have hlines : (∃ t, runFrom (fun s (l : ConfLine) ↦ s.step l.bytes) (FileParam.start st) lines =
      some t) ↔ ∀ l ∈ lines, l.NulFree :=
    exists_runFrom_iff_forall fun l _ s ↦ l.exists_step_line_iff s
  rw [List.forall_mem_append, List.forall_mem_singleton, and_assoc, ← hlines]
  constructor
  · rintro ⟨st', hfile, hip, hport⟩
    obtain ⟨t, hrun, rfl⟩ := fileParam_eq_ok_iff.1 hfile
    rw [lineChunks_bytes, runFrom_map] at hrun
    obtain ⟨m, hm, hrun⟩ := runFrom_append_eq_some_iff.1 hrun
    obtain ⟨t', ht, hrun⟩ := runFrom_cons_eq_some_iff.1 hrun
    obtain rfl := Option.some.inj hrun
    obtain ⟨hfree, hp⟩ := (last.step_line_iff m (p := (ip, port))).1
      ⟨_, ht, Prod.ext hip hport⟩
    exact ⟨⟨m, hm⟩, hfree, Prod.mk.inj hp⟩
  · rintro ⟨⟨m, hm⟩, hfree, rfl, rfl⟩
    obtain ⟨t, ht, hstrings⟩ := (last.step_line_iff m).2 ⟨hfree, rfl⟩
    refine ⟨t.st, fileParam_eq_ok_iff.2 ⟨t, ?_, rfl⟩, Prod.mk.inj hstrings⟩
    rw [lineChunks_bytes, runFrom_map]
    exact runFrom_append_eq_some_iff.2 ⟨m, hm, runFrom_cons_eq_some_iff.2 ⟨t, ht, rfl⟩⟩

/-- **The configuration is read back**: `file_param` returns, and leaves the address and the port of
the last line. -/
def ReadBack (st : SockPair) (lines : List ConfLine) (last : ConfLine) : Prop :=
  ∃ st', fileParam st (some ((lines ++ [last]).map bytes).flatten) = .ok (.returned st') ∧
    st'.ipAddr.cstr = last.ip ∧ st'.port.cstr = last.port

/-- **When a configuration is read back**: no field begins with a NUL and no address has one, the
last line has no spaces before it, and its port no NUL. -/
theorem readBack_iff (st : SockPair) (lines : List ConfLine) (last : ConfLine) :
    ReadBack st lines last ↔
      (∀ l ∈ lines ++ [last], l.NulFree) ∧ last.spaces = 0 ∧ 0 ∉ last.port := by
  rw [ReadBack, fileParam_lines_iff, eq_comm, readIp_eq_iff, eq_comm (b := last.readPort),
    readPort_eq_iff]

theorem fieldByte_of_all {s : List UInt8} (h : s.all fun b ↦ FieldByte b) : ∀ b ∈ s, FieldByte b :=
  fun b hb ↦ of_decide_eq_true (List.all_eq_true.1 h b hb)

/-- The line of `conf/config`, behind a space. -/
def spaceShipped : ConfLine where
  spaces := 1
  ip := ascii "127.0.0.1"
  port := ascii "8080"
  ip_ne_nil := by decide
  port_ne_nil := by decide
  fieldByte_ip := fieldByte_of_all (by decide)
  fieldByte_port := fieldByte_of_all (by decide)
  short := by decide

/-- Behind one space, the address is read with the `'@'` before it. -/
theorem not_readBack_spaceShipped :
    (∃ st', fileParam ⟨CArray.fill _ 0, CArray.fill _ 0⟩ (some (ascii " @127.0.0.1:8080@\n")) =
      .ok (.returned st') ∧ st'.ipAddr.cstr = ascii "@127.0.0.1" ∧
        st'.port.cstr = ascii "8080") ∧
      ¬ ReadBack ⟨CArray.fill _ 0, CArray.fill _ 0⟩ [] spaceShipped := by
  have hline : ((([] : List ConfLine) ++ [spaceShipped]).map bytes).flatten =
      ascii " @127.0.0.1:8080@\n" := by decide
  have hread := fun st ↦
    fileParam_lines_iff st [] spaceShipped (ascii "@127.0.0.1") (ascii "8080")
  refine ⟨hline ▸ (hread _).2 ⟨by decide, by decide, by decide⟩, fun h ↦ ?_⟩
  exact absurd ((fileParam_lines_iff _ [] spaceShipped _ _).1 h).2.1 (by decide)

end ConfLine

end PreforkHttpd
