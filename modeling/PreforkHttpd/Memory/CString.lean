import PreforkHttpd.Memory.CArray

/-!
# C strings inside byte arrays

The string at an index of an array are the bytes from there on, up to the first NUL. The functions
of `string.h` that take a pointer into an array are given the index: `readFrom` reads the string,
`strspn` measures a span at its start, `strcpy` copies a string to the start of another array, and
`strtok` looks for a token, puts a NUL in the place of the delimiter behind it, and says where the
next call has to go on.

`StringAt v i s` says that the string at index `i` is `s`. In these terms `strtok` does to the array
what `firstToken` does to a string (`strtok_of_token_eq_some`), and the array drops out of the
reasoning.
-/

open Answered

/-- The first token of a string, and what is behind the delimiter that ends it. -/
def firstToken (delim s : List UInt8) : Option (List UInt8 × List UInt8) :=
  let t := s.dropWhile (· ∈ delim)
  if t = [] then none else some (t.takeWhile (· ∉ delim), (t.dropWhile (· ∉ delim)).tail)

section Token

variable {delim s t w : List UInt8} {c : UInt8}

/-- A byte that is not dropped keeps what is behind it. -/
theorem dropWhile_append_cons {p : UInt8 → Bool} (hc : p c = false) (s t : List UInt8) :
    (s ++ c :: t).dropWhile p = s.dropWhile p ++ c :: t := by
  induction s with
  | nil => exact List.dropWhile_cons_of_neg (by rw [hc]; decide)
  | cons b s ih =>
    rw [List.cons_append, List.dropWhile_cons, List.dropWhile_cons]
    split
    · exact ih
    · rfl

theorem takeWhile_append_cons {p : UInt8 → Bool} (hc : p c = false) (s t : List UInt8) :
    (s ++ c :: t).takeWhile p = s.takeWhile p := by
  induction s with
  | nil => exact List.takeWhile_cons_of_neg (by rw [hc]; decide)
  | cons b s ih =>
    rw [List.cons_append, List.takeWhile_cons, List.takeWhile_cons, ih]

/-- A byte that is no delimiter is in a token. -/
theorem firstToken_ne_none (hs : c ∈ s) (hc : c ∉ delim) : firstToken delim s ≠ none := by
  obtain ⟨x, y, rfl⟩ := List.append_of_mem hs
  rw [firstToken, dropWhile_append_cons (decide_eq_false hc),
    if_neg (List.append_ne_nil_of_right_ne_nil _ (List.cons_ne_nil _ _))]
  exact Option.some_ne_none _

/-- What is behind a delimiter that has a token before it comes after the first token. -/
theorem exists_firstToken_of_append {b : UInt8} (hb : b ∈ s) (hdelim : b ∉ delim) (hc : c ∈ delim)
    (t : List UInt8) : ∃ w rest, firstToken delim (s ++ c :: t) = some (w, rest) ∧ t <:+ rest := by
  obtain ⟨x, y, rfl⟩ := List.append_of_mem hb
  have hlead : (x ++ b :: y ++ c :: t).dropWhile (· ∈ delim) =
      x.dropWhile (· ∈ delim) ++ b :: y ++ c :: t := by
    rw [List.append_assoc, List.cons_append, dropWhile_append_cons (decide_eq_false hdelim),
      List.append_assoc, List.cons_append]
  have hne : x.dropWhile (· ∈ delim) ++ b :: y ++ c :: t ≠ [] :=
    List.append_ne_nil_of_right_ne_nil _ (List.cons_ne_nil _ _)
  have hend := dropWhile_append_cons (p := (· ∉ delim)) (by simpa using hc)
    (x.dropWhile (· ∈ delim) ++ b :: y) t
  rw [firstToken, hlead, if_neg hne, hend]
  refine ⟨_, _, rfl, ?_⟩
  cases (x.dropWhile (· ∈ delim) ++ b :: y).dropWhile (· ∉ delim) with
  | nil => exact List.suffix_refl t
  | cons d z => exact ⟨z ++ [c], by simp⟩

theorem firstToken_nil (delim : List UInt8) : firstToken delim [] = none := rfl

/-- A word is a token, up to a delimiter, -/
theorem firstToken_append (hw : ∀ b ∈ w, b ∉ delim) (hne : w ≠ []) (hc : c ∈ delim)
    (t : List UInt8) : firstToken delim (w ++ c :: t) = some (w, t) := by
  obtain ⟨b, w, rfl⟩ := List.exists_cons_of_ne_nil hne
  have hb : b ∉ delim := hw b List.mem_cons_self
  have hlead : (b :: w ++ c :: t).dropWhile (· ∈ delim) = b :: w ++ c :: t :=
    List.dropWhile_cons_of_neg (by simpa using hb)
  have hword : ∀ x ∈ b :: w, decide (x ∉ delim) = true := fun x hx ↦ decide_eq_true (hw x hx)
  have hne : b :: w ++ c :: t ≠ [] := List.cons_ne_nil _ _
  rw [firstToken, hlead, if_neg hne, List.takeWhile_append_of_pos hword,
    List.dropWhile_append_of_pos hword, List.takeWhile_cons_of_neg (by simpa using hc),
    List.dropWhile_cons_of_neg (by simpa using hc), List.append_nil, List.tail_cons]

/-- or up to the end. -/
theorem firstToken_self (hw : ∀ b ∈ w, b ∉ delim) (hne : w ≠ []) :
    firstToken delim w = some (w, []) := by
  obtain ⟨b, w, rfl⟩ := List.exists_cons_of_ne_nil hne
  have hb : b ∉ delim := hw b List.mem_cons_self
  have hlead : (b :: w).dropWhile (· ∈ delim) = b :: w :=
    List.dropWhile_cons_of_neg (by simpa using hb)
  have hword : ∀ x ∈ b :: w, decide (x ∉ delim) = true := fun x hx ↦ decide_eq_true (hw x hx)
  rw [firstToken, hlead, if_neg (List.cons_ne_nil _ _), List.takeWhile_eq_self_iff.2 hword,
    List.dropWhile_eq_nil_iff.2 hword, List.tail_nil]

/-- Delimiters in front make no difference. -/
theorem firstToken_lead (hs : ∀ b ∈ s, b ∈ delim) (t : List UInt8) :
    firstToken delim (s ++ t) = firstToken delim t := by
  rw [firstToken, List.dropWhile_append_of_pos fun b hb ↦ decide_eq_true (hs b hb), firstToken]

theorem exists_of_firstToken_eq_some (h : firstToken delim s = some (w, t)) :
    ∃ lead, (∀ b ∈ lead, b ∈ delim) ∧ w ≠ [] ∧ (∀ b ∈ w, b ∉ delim) ∧
      ((∃ c ∈ delim, s = lead ++ (w ++ c :: t)) ∨ s = lead ++ w ∧ t = []) := by
  rw [firstToken] at h
  obtain ⟨hne, h⟩ := Option.ite_none_left_eq_some.1 h
  obtain ⟨rfl, rfl⟩ := Prod.mk.inj (Option.some.inj h)
  set u := s.dropWhile (· ∈ delim) with hu
  have hs : s = s.takeWhile (· ∈ delim) ++ u := List.takeWhile_append_dropWhile.symm
  have hin : ∀ b ∈ s.takeWhile (· ∈ delim), b ∈ delim := fun b hb ↦ by
    simpa using List.mem_takeWhile_imp hb
  have hout : ∀ b ∈ u.takeWhile (· ∉ delim), b ∉ delim := fun b hb ↦ by
    simpa using List.mem_takeWhile_imp hb
  have hsplit : u = u.takeWhile (· ∉ delim) ++ u.dropWhile (· ∉ delim) :=
    List.takeWhile_append_dropWhile.symm
  have hword : u.takeWhile (· ∉ delim) ≠ [] := by
    obtain ⟨b, v, hbv⟩ := List.exists_cons_of_ne_nil hne
    have hb : b ∉ delim := by
      have hhead := List.head?_dropWhile_not (· ∈ delim) s
      rw [← hu, hbv] at hhead
      simpa using hhead
    rw [hbv, List.takeWhile_cons_of_pos (by simpa using hb)]
    exact List.cons_ne_nil _ _
  refine ⟨_, hin, hword, hout, ?_⟩
  cases hend : u.dropWhile (· ∉ delim) with
  | nil =>
    rw [hend, List.append_nil] at hsplit
    exact Or.inr ⟨hsplit ▸ hs, rfl⟩
  | cons c v =>
    have hc : c ∈ delim := by
      have hhead := List.head?_dropWhile_not (· ∉ delim) u
      rw [hend] at hhead
      simpa using hhead
    rw [hend] at hsplit
    exact Or.inl ⟨c, hc, hsplit ▸ hs⟩

/-- **The first token, in the bytes**: behind some delimiters, up to the next one or to the end. -/
theorem firstToken_eq_some_iff : firstToken delim s = some (w, t) ↔
    ∃ lead, (∀ b ∈ lead, b ∈ delim) ∧ w ≠ [] ∧ (∀ b ∈ w, b ∉ delim) ∧
      ((∃ c ∈ delim, s = lead ++ (w ++ c :: t)) ∨ s = lead ++ w ∧ t = []) := by
  refine ⟨exists_of_firstToken_eq_some, ?_⟩
  rintro ⟨lead, hlead, hne, hw, ⟨c, hc, rfl⟩ | ⟨rfl, rfl⟩⟩
  · rw [firstToken_lead hlead]
    exact firstToken_append hw hne hc t
  · rw [firstToken_lead hlead]
    exact firstToken_self hw hne

/-- The same with one delimiter. -/
theorem firstToken_singleton_eq_some_iff : firstToken [c] s = some (w, t) ↔
    ∃ lead, (∀ b ∈ lead, b = c) ∧ w ≠ [] ∧ c ∉ w ∧
      (s = lead ++ (w ++ c :: t) ∨ s = lead ++ w ∧ t = []) := by
  simp [firstToken_eq_some_iff, List.forall_mem_ne']

end Token

namespace CArray

variable {n : ℕ} {φ : Type}

/-! ### The functions -/

/-- Read the string at an index, looking for its NUL. -/
def readFrom (loc : ℕ → φ) (v : CArray n) (i : ℕ) : Checked φ (List UInt8) :=
  if 0 ∈ v.bytes.drop i then .ok ((v.bytes.drop i).takeWhile (· ≠ 0))
  else .error (.fault (loc n))

/-- `strspn(v + i, accept)`. -/
def strspn (loc : ℕ → φ) (v : CArray n) (i : ℕ) (accept : List UInt8) : Checked φ ℕ :=
  (v.readFrom loc i).map fun s ↦ (s.takeWhile (· ∈ accept)).length

/-- `strcpy(v, s)`. -/
def strcpy (loc : ℕ → φ) (v : CArray n) (s : List UInt8) : Checked φ (CArray n) :=
  v.storeAll loc 0 (s ++ [0])

/-- What a call of `strtok` leaves: the index it returns, or a null pointer, where the next call
goes on, and the array. -/
structure Strtok (n : ℕ) where
  start : Option ℕ
  next : ℕ
  array : CArray n
deriving DecidableEq

/-- `strtok` for the string at index `i`. -/
def strtok (loc : ℕ → φ) (v : CArray n) (i : ℕ) (delim : List UInt8) : Checked φ (Strtok n) := do
  let s ← v.readFrom loc i
  let start := i + (s.takeWhile (· ∈ delim)).length
  let rest := s.dropWhile (· ∈ delim)
  let stop := start + (rest.takeWhile (· ∉ delim)).length
  if rest = [] then return ⟨none, start, v⟩
  else if rest.dropWhile (· ∉ delim) = [] then return ⟨some start, stop, v⟩
  else
    let v ← v.store loc stop 0
    return ⟨some start, stop + 1, v⟩

/-! ### The string at an index -/

/-- The string at index `i` is `s`. -/
def StringAt (v : CArray n) (i : ℕ) (s : List UInt8) : Prop :=
  ∃ before after, v.bytes = before ++ (s ++ 0 :: after) ∧ before.length = i ∧ 0 ∉ s

variable {v v' : CArray n} {i k : ℕ} {s t w : List UInt8} {loc : ℕ → φ} {delim : List UInt8}

theorem readFrom_of_stringAt (h : StringAt v i s) : v.readFrom loc i = .ok s := by
  obtain ⟨before, after, hbytes, rfl, hs⟩ := h
  have hdrop : v.bytes.drop before.length = s ++ 0 :: after := by rw [hbytes, List.drop_left]
  rw [readFrom, hdrop, if_pos (List.mem_append_right _ List.mem_cons_self), takeWhile_append_nul,
    takeWhile_ne_nul hs]

/-- A string and its NUL are inside the array. -/
theorem StringAt.length_lt (h : StringAt v i s) : s.length < n := by
  obtain ⟨before, after, hbytes, rfl, -⟩ := h
  have hlength := congrArg List.length hbytes
  simp only [v.length_bytes, List.length_append, List.length_cons] at hlength
  omega

/-- A string holds no NUL. -/
theorem StringAt.not_mem (h : StringAt v i s) : 0 ∉ s := by
  obtain ⟨-, -, -, -, hs⟩ := h
  exact hs

/-- The bytes of a string, and its NUL, from its index on. -/
theorem StringAt.getElem?_add (h : StringAt v i s) (hk : k ≤ s.length) :
    v.bytes[i + k]? = (s ++ [0])[k]? := by
  obtain ⟨before, after, hbytes, hi, -⟩ := h
  have hlt : k < (s ++ [0]).length := by
    rw [List.length_append]
    exact Nat.lt_succ_of_le hk
  rw [hbytes, List.append_cons]
  exact getElem?_append_middle hi hlt

/-- Further on in a string is its rest. -/
theorem StringAt.add (h : StringAt v i (s ++ t)) : StringAt v (i + s.length) t := by
  obtain ⟨before, after, hbytes, rfl, hs⟩ := h
  refine ⟨before ++ s, after, ?_, List.length_append, fun ht ↦ hs (List.mem_append_right _ ht)⟩
  rw [hbytes, List.append_assoc, List.append_assoc]

theorem strspn_of_stringAt (h : StringAt v i s) :
    v.strspn loc i delim = .ok (s.takeWhile (· ∈ delim)).length := by
  rw [strspn, readFrom_of_stringAt h]
  rfl

/-- What has been stored with its NUL is the string at the start. -/
theorem stringAt_overlay (h : s.length < n) :
    StringAt (overlay (s ++ [0]) v) 0 (s.takeWhile (· ≠ 0)) := by
  have hlength : (s ++ [0]).length ≤ n := length_concat_le h
  have hmem : 0 ∈ s ++ [0] ++ v.bytes.drop (s ++ [0]).length :=
    List.mem_append_left _ (List.mem_append_right _ (List.mem_singleton_self 0))
  obtain ⟨t, after, hbytes, ht⟩ := List.eq_append_cons_of_mem hmem
  have hstring : t = s.takeWhile (· ≠ 0) := by
    rw [← takeWhile_ne_nul ht, ← takeWhile_append_nul t after, ← hbytes, List.append_assoc]
    exact takeWhile_append_nul _ _
  exact ⟨[], after, by rw [bytes_overlay v hlength, hbytes, hstring, List.nil_append], rfl,
    hstring ▸ ht⟩

/-! ### Tokens -/

/-- **A string is cut in two** by a NUL in the place of one of its bytes. -/
theorem StringAt.cut (loc : ℕ → φ) {c : UInt8} (h : StringAt v i (w ++ c :: t)) :
    ∃ v', v.store loc (i + w.length) 0 = .ok v' ∧ StringAt v' i w ∧
      StringAt v' (i + w.length + 1) t := by
  obtain ⟨before, after, hbytes, rfl, hzero⟩ := h
  have hw : 0 ∉ w := fun hw ↦ hzero (List.mem_append_left _ hw)
  have ht : 0 ∉ t := fun ht ↦ hzero (List.mem_append_right _ (List.mem_cons_of_mem _ ht))
  have hlt : before.length + w.length < n := by
    have hlength := congrArg List.length hbytes
    simp only [v.length_bytes, List.length_append, List.length_cons] at hlength
    omega
  have hset : v.bytes.set (before.length + w.length) 0 =
      before ++ (w ++ 0 :: (t ++ 0 :: after)) := by
    rw [hbytes, ← List.length_append, List.append_assoc, ← List.append_assoc,
      List.set_append_right _ _ (le_refl _), Nat.sub_self, List.cons_append, List.set_cons_zero,
      List.append_assoc]
  refine ⟨⟨v.bytes.set (before.length + w.length) 0, List.length_set.trans v.length_bytes⟩,
    if_pos hlt, ⟨before, t ++ 0 :: after, hset, rfl, hw⟩,
    ⟨before ++ (w ++ [0]), after, ?_, ?_, ht⟩⟩
  · refine hset.trans ?_
    rw [List.append_assoc, List.append_assoc]
    rfl
  · simp only [List.length_append, List.length_singleton]
    omega

/-- **There is no token**: `strtok` returns a null pointer. -/
theorem strtok_of_token_eq_none (loc : ℕ → φ) (h : StringAt v i s)
    (htoken : firstToken delim s = none) :
    ∃ j, v.strtok loc i delim = .ok ⟨none, j, v⟩ := by
  have hrest : s.dropWhile (· ∈ delim) = [] := by
    by_contra hne
    rw [firstToken, if_neg hne] at htoken
    cases htoken
  refine ⟨i + (s.takeWhile (· ∈ delim)).length, ?_⟩
  rw [strtok, checked_bind_of_ok (readFrom_of_stringAt h)]
  exact if_pos hrest

/-- **There is a token**: `strtok` returns where it is, and goes on where the rest is. -/
theorem strtok_of_token_eq_some (loc : ℕ → φ) (h : StringAt v i s)
    (htoken : firstToken delim s = some (w, t)) :
    ∃ j k v', v.strtok loc i delim = .ok ⟨some j, k, v'⟩ ∧ StringAt v' j w ∧ StringAt v' k t := by
  rw [firstToken] at htoken
  split at htoken
  · cases htoken
  next hrest =>
    obtain ⟨rfl, rfl⟩ := Prod.mk.inj (Option.some.inj htoken)
    rw [strtok, checked_bind_of_ok (readFrom_of_stringAt h)]
    dsimp only
    rw [if_neg hrest]
    rw [← List.takeWhile_append_dropWhile (p := (· ∈ delim)) (l := s)] at h
    have hstart := h.add
    set start := i + (s.takeWhile (· ∈ delim)).length
    set rest := s.dropWhile (· ∈ delim)
    rw [← List.takeWhile_append_dropWhile (p := (· ∉ delim)) (l := rest)] at hstart
    cases hbehind : rest.dropWhile (· ∉ delim) with
    | nil =>
      -- the token ends with the string
      rw [hbehind] at hstart
      refine ⟨start, _, v, if_pos rfl, ?_, hstart.add⟩
      rwa [List.append_nil] at hstart
    | cons c t =>
      rw [hbehind] at hstart
      obtain ⟨v', hstore, hword, hnext⟩ := hstart.cut loc
      refine ⟨start, _, v', ?_, hword, hnext⟩
      rw [if_neg (List.cons_ne_nil c t), checked_bind_of_ok hstore]
      rfl

end CArray
