import PreforkHttpd.Memory.CString

/-!
# Skipping to a position

`skip` of `common.h` moves a pointer along a string. Its loop is written as a search, "while there
is a character and the rest is not `op`", but where `strcmp` was meant the condition calls `strcpy`:
each round copies `op`, with its NUL, over the string at the cursor, and since `strcpy` returns its
destination, which is not null, the condition never ends the loop.

What then ends it is the NUL that the copies put into the string, so all depends on the length of
`op`. A copy of the empty string puts it at the cursor, where the loop has already been: the string
is erased byte by byte. A copy of one byte puts it right ahead, and the next round stops there. A
longer copy puts a byte of `op` ahead of the cursor in every round, and the loop runs off the end of
the array. `readsOnly_iff` says which strings survive.

The array that `start` points into and the string `op` are separate objects, as `strcpy` asks for.
-/

open Answered CArray

namespace PreforkHttpd

variable {n : ℕ}

/-! ### The code -/

/-- The loop of `skip` from index `i` on, where `left` bytes of the array are ahead. Without one,
the read of `*start` is the fault. -/
def skipLoop (op : List UInt8) : ℕ → CArray n → ℕ → Checked ℕ (ℕ × CArray n)
  | 0, _, i => .error (.fault i)
  | left + 1, v, i => do
    let c ← v.load id i
    if c = 0 then return (i, v)
    else
      -- `strcpy(start, op)`, whose value is not null
      let v ← v.storeAll id i (op ++ [0])
      skipLoop op left v (i + 1)

/-- `skip(v + i, op)`: the index of the pointer it returns, and the array. -/
def skip (op : List UInt8) (v : CArray n) (i : ℕ) : Checked ℕ (ℕ × CArray n) := do
  let r ← skipLoop op (n - i) v i
  let c ← r.2.load id r.1
  return if c ≠ 0 then (r.1 + 1, r.2) else r

/-- **`skip` is a search**: for the string `s` at index `i` it ends, the string is still there, what
is behind its NUL is as it was, and the pointer returned is between the two. -/
def ReadsOnly (op s : List UInt8) (v : CArray n) (i : ℕ) : Prop :=
  ∃ j w, skip op v i = .ok (j, w) ∧ StringAt w i s ∧
    w.bytes.drop (i + s.length + 1) = v.bytes.drop (i + s.length + 1) ∧ i ≤ j ∧ j ≤ i + s.length

/-! ### One round -/

variable {op s : List UInt8} {v w : CArray n} {c d : UInt8} {i left : ℕ} {r : ℕ × CArray n}

theorem skipLoop_of_nul (h : v.bytes[i]? = some 0) : skipLoop op (left + 1) v i = .ok (i, v) := by
  rw [skipLoop, load_of_getElem? h]
  rfl

theorem skipLoop_of_ne (h : v.bytes[i]? = some c) (hc : c ≠ 0) :
    skipLoop op (left + 1) v i =
      (v.storeAll id i (op ++ [0])).bind fun w ↦ skipLoop op left w (i + 1) := by
  rw [skipLoop, load_of_getElem? h, checked_bind_of_ok rfl, if_neg hc]
  rfl

/-- **What a loop that ends has done first**: it has stopped at a NUL, or copied `op` and gone on.
-/
theorem skipLoop_eq_ok (h : skipLoop op (left + 1) v i = .ok r) :
    (v.bytes[i]? = some 0 ∧ r = (i, v)) ∨
      ∃ w, v.bytes[i]? ≠ some 0 ∧ v.storeAll id i (op ++ [0]) = .ok w ∧
        skipLoop op left w (i + 1) = .ok r := by
  cases hload : v.bytes[i]? with
  | none =>
    have hfault : v.load id i = .error (.fault i) := by rw [load, hload]; rfl
    rw [skipLoop, hfault] at h
    cases h
  | some c =>
    by_cases hc : c = 0
    · subst hc
      rw [skipLoop_of_nul hload] at h
      exact Or.inl ⟨rfl, (Except.ok.inj h).symm⟩
    · rw [skipLoop_of_ne hload hc] at h
      cases hstore : v.storeAll id i (op ++ [0]) with
      | error e =>
        rw [hstore] at h
        cases h
      | ok w =>
        rw [hstore] at h
        exact Or.inr ⟨w, fun hzero ↦ hc (Option.some.inj hzero), rfl, h⟩

/-- A copy of `op` is inside the array, -/
theorem bytes_of_copy (h : v.storeAll id i (op ++ [0]) = .ok w) :
    i + (op.length + 1) ≤ n ∧
      w.bytes = v.bytes.take i ++ ((op ++ [0]) ++ v.bytes.drop (i + (op.length + 1))) := by
  have hne : op ++ [0] ≠ [] := List.append_ne_nil_of_right_ne_nil _ (List.cons_ne_nil _ _)
  have hcopy := (storeAll_eq_ok_iff hne).1 h
  rwa [List.length_append, List.length_singleton, List.append_assoc] at hcopy

/-- and is what is found at the cursor. -/
theorem getElem?_of_copy (h : v.storeAll id i (op ++ [0]) = .ok w) {k : ℕ} (hk : k ≤ op.length) :
    w.bytes[i + k]? = (op ++ [0])[k]? := by
  obtain ⟨hfit, hbytes⟩ := bytes_of_copy h
  have htake : (v.bytes.take i).length = i := v.length_take (Nat.le_of_add_right_le hfit)
  have hlt : k < (op ++ [0]).length := by
    rw [List.length_append]
    exact Nat.lt_succ_of_le hk
  rw [hbytes]
  exact getElem?_append_middle htake hlt

/-! ### The loop -/

/-- **The loop leaves what is behind it**: a byte before the cursor is never written again. -/
theorem take_bytes_of_skipLoop (h : skipLoop op left v i = .ok r) :
    r.2.bytes.take i = v.bytes.take i := by
  induction left generalizing v i with
  | zero => cases h
  | succ left ih =>
    obtain ⟨-, rfl⟩ | ⟨w, -, hcopy, hrest⟩ := skipLoop_eq_ok h
    · rfl
    · obtain ⟨hfit, hbytes⟩ := bytes_of_copy hcopy
      have htake : (v.bytes.take i).length = i := v.length_take (Nat.le_of_add_right_le hfit)
      have hnext := congrArg (List.take i) (ih hrest)
      rw [List.take_take, List.take_take, Nat.min_eq_left (Nat.le_succ i)] at hnext
      rw [hnext, hbytes, List.take_left' htake]

/-- **A copy of two bytes or more is never passed**: the byte ahead of the cursor is one of `op`. -/
theorem skipLoop_ne_ok (hd : d ≠ 0) (h : v.bytes[i]? ≠ some 0) :
    skipLoop (c :: d :: op) left v i ≠ .ok r := by
  intro hrun
  induction left generalizing v i with
  | zero => cases hrun
  | succ left ih =>
    obtain ⟨hzero, -⟩ | ⟨w, -, hcopy, hrest⟩ := skipLoop_eq_ok hrun
    · exact h hzero
    · refine ih ?_ hrest
      rw [getElem?_of_copy hcopy (Nat.le_add_left 1 _)]
      exact fun hzero ↦ hd (Option.some.inj hzero)

/-- The loop of a `skip` that ends. -/
theorem exists_skipLoop (h : skip op v i = .ok r) :
    ∃ j, skipLoop op (n - i) v i = .ok (j, r.2) := by
  rw [skip] at h
  cases hloop : skipLoop op (n - i) v i with
  | error e =>
    rw [hloop] at h
    cases h
  | ok q =>
    rw [hloop, checked_bind_of_ok rfl] at h
    cases hload : q.2.load id q.1 with
    | error e =>
      rw [hload] at h
      cases h
    | ok c =>
      rw [hload, checked_bind_of_ok rfl] at h
      have hr := Except.ok.inj h
      refine ⟨q.1, congrArg Except.ok (Prod.ext rfl ?_)⟩
      rw [← hr]
      split <;> rfl

/-- A loop that has stopped at a NUL is all there is. -/
theorem skip_of_skipLoop {j : ℕ} (h : skipLoop op (n - i) v i = .ok (j, w))
    (hzero : w.bytes[j]? = some 0) : skip op v i = .ok (j, w) := by
  rw [skip, h, checked_bind_of_ok rfl, load_of_getElem? hzero]
  rfl

/-! ### Which strings survive -/

/-- **The first copy stays**: what `skip` leaves at the start of the string is a byte of `op`, or
its NUL. -/
theorem getElem?_of_skip (h : skip op v i = .ok r) (hbyte : v.bytes[i]? = some c) (hc : c ≠ 0) :
    ∃ j w left, v.storeAll id i (op ++ [0]) = .ok w ∧ skipLoop op left w (i + 1) = .ok (j, r.2) ∧
      r.2.bytes[i]? = (op ++ [0])[0]? := by
  obtain ⟨j, hloop⟩ := exists_skipLoop h
  cases hleft : n - i with
  | zero =>
    rw [hleft] at hloop
    cases hloop
  | succ left =>
    rw [hleft] at hloop
    obtain ⟨hzero, -⟩ | ⟨w, -, hcopy, hrest⟩ := skipLoop_eq_ok hloop
    · exact absurd (Option.some.inj (hbyte.symm.trans hzero)) hc
    · refine ⟨j, w, left, hcopy, hrest, ?_⟩
      rw [← getElem?_of_copy hcopy (Nat.zero_le _), Nat.add_zero,
        ← List.getElem?_take_of_lt (Nat.lt_succ_self i), take_bytes_of_skipLoop hrest,
        List.getElem?_take_of_lt (Nat.lt_succ_self i)]

/-- A string of one byte is left alone by a copy of the same byte. -/
theorem skip_singleton (hs : StringAt v i [c]) : skip [c] v i = .ok (i + 1, v) := by
  have hfirst : v.bytes[i]? = some c := hs.getElem?_add (Nat.zero_le _)
  have hzero : v.bytes[i + 1]? = some 0 := hs.getElem?_add (le_refl _)
  have hc : c ≠ 0 := fun hc ↦ hs.not_mem (hc ▸ List.mem_singleton_self c)
  have hcopy : v.storeAll id i ([c] ++ [0]) = .ok v := by
    obtain ⟨before, after, hbytes, rfl, -⟩ := hs
    have hne : [c] ++ [0] ≠ [] := List.cons_ne_nil c [0]
    refine (storeAll_eq_ok_iff hne).2 ⟨?_, by rw [hbytes]; simp⟩
    have hlength := congrArg List.length hbytes
    simp only [v.length_bytes, List.length_append, List.length_cons, List.length_nil] at hlength ⊢
    omega
  obtain ⟨hlt, -⟩ := List.getElem?_eq_some_iff.1 hzero
  obtain ⟨left, hleft⟩ : ∃ left, n - i = left + 1 + 1 := by
    rw [v.length_bytes] at hlt
    exact ⟨n - i - 2, by omega⟩
  refine skip_of_skipLoop ?_ hzero
  rw [hleft, skipLoop_of_ne hfirst hc, hcopy]
  exact skipLoop_of_nul hzero

theorem skip_nil (hs : StringAt v i []) : skip op v i = .ok (i, v) := by
  have hzero : v.bytes[i]? = some 0 := hs.getElem?_add (le_refl _)
  obtain ⟨hlt, -⟩ := List.getElem?_eq_some_iff.1 hzero
  obtain ⟨left, hleft⟩ : ∃ left, n - i = left + 1 := by
    rw [v.length_bytes] at hlt
    exact ⟨n - i - 1, by omega⟩
  refine skip_of_skipLoop ?_ hzero
  rw [hleft]
  exact skipLoop_of_nul hzero

/-- **Only a copy of one byte is passed** once its first byte is there. -/
theorem op_eq_singleton (hop : 0 ∉ op) (hc : c ≠ 0) (hfirst : (op ++ [0])[0]? = some c)
    (hcopy : v.storeAll id i (op ++ [0]) = .ok w)
    (hrest : skipLoop op left w (i + 1) = .ok r) : op = [c] := by
  cases op with
  | nil => exact absurd (Option.some.inj hfirst).symm hc
  | cons b op =>
    obtain rfl : b = c := Option.some.inj hfirst
    cases op with
    | nil => rfl
    | cons d op =>
      -- the loop would still be running
      have hd : d ≠ 0 := fun hd ↦ hop (hd ▸ List.mem_cons_of_mem _ List.mem_cons_self)
      refine absurd hrest (skipLoop_ne_ok hd ?_)
      rw [getElem?_of_copy hcopy (Nat.le_add_left 1 _)]
      exact fun hzero ↦ hd (Option.some.inj hzero)

/-- Behind a copy of one byte the loop stops, at the NUL of the copy. -/
theorem getElem?_succ_of_copy (hcopy : v.storeAll id i ([c] ++ [0]) = .ok w)
    (hrest : skipLoop [c] left w (i + 1) = .ok r) : r.2.bytes[i + 1]? = some 0 := by
  have hzero : w.bytes[i + 1]? = some 0 := getElem?_of_copy hcopy (le_refl _)
  cases left with
  | zero => cases hrest
  | succ left =>
    rw [skipLoop_of_nul hzero] at hrest
    rw [← Except.ok.inj hrest]
    exact hzero

/-- A string that is still there after `skip` is one byte long, and `op` is the same string. -/
theorem eq_singleton_of_skip (hs : StringAt v i (c :: s)) (hop : 0 ∉ op)
    (hskip : skip op v i = .ok r) (hr : StringAt r.2 i (c :: s)) : s = [] ∧ op = [c] := by
  have hc : c ≠ 0 := fun hc ↦ hs.not_mem (hc ▸ List.mem_cons_self)
  have hbefore : v.bytes[i]? = some c := hs.getElem?_add (Nat.zero_le _)
  have hafter : r.2.bytes[i]? = some c := hr.getElem?_add (Nat.zero_le _)
  obtain ⟨j, w, left, hcopy, hrest, hfirst⟩ := getElem?_of_skip hskip hbefore hc
  obtain rfl := op_eq_singleton hop hc (hfirst.symm.trans hafter) hcopy hrest
  refine ⟨?_, rfl⟩
  have hsecond := getElem?_succ_of_copy hcopy hrest
  -- the NUL of the copy is where a second byte would be
  cases s with
  | nil => rfl
  | cons d s =>
    have hd : r.2.bytes[i + 1]? = some d := hr.getElem?_add (Nat.le_add_left 1 _)
    obtain rfl : d = 0 := Option.some.inj (hd.symm.trans hsecond)
    exact absurd (List.mem_cons_of_mem _ List.mem_cons_self) hs.not_mem

/-- **Which strings survive a `skip`**: the empty one, and a string of one byte when `op` is the
same string. -/
theorem readsOnly_iff (hs : StringAt v i s) (hop : 0 ∉ op) :
    ReadsOnly op s v i ↔ s = [] ∨ s.length = 1 ∧ op = s := by
  cases s with
  | nil =>
    refine iff_of_true ⟨i, v, skip_nil hs, hs, rfl, le_refl i, le_refl _⟩ (Or.inl rfl)
  | cons c s =>
    rw [or_iff_right (List.cons_ne_nil c s)]
    constructor
    · rintro ⟨j, w, hskip, hw, -⟩
      obtain ⟨rfl, rfl⟩ := eq_singleton_of_skip hs hop hskip hw
      exact ⟨rfl, rfl⟩
    · rintro ⟨hlength, rfl⟩
      obtain rfl : s = [] := List.eq_nil_of_length_eq_zero (Nat.succ.inj hlength)
      exact ⟨i + 1, v, skip_singleton hs, hs, rfl, Nat.le_succ i, le_refl _⟩

/-- The string `"a"`, with `"a"` to look for, is still there. -/
theorem readsOnly_iff_singleton : StringAt (⟨[97, 0], rfl⟩ : CArray 2) 0 [97] ∧
    ReadsOnly [97] [97] (⟨[97, 0], rfl⟩ : CArray 2) 0 :=
  have hs : StringAt (⟨[97, 0], rfl⟩ : CArray 2) 0 [97] := ⟨[], [], rfl, rfl, by decide⟩
  ⟨hs, (readsOnly_iff hs (by decide)).2 (Or.inr ⟨rfl, rfl⟩)⟩

/-- In `"a b"`, with `" "` to look for: the string is cut to `" "`. -/
theorem not_readsOnly_space : StringAt (⟨[97, 32, 98, 0], rfl⟩ : CArray 4) 0 [97, 32, 98] ∧
    skip [32] (⟨[97, 32, 98, 0], rfl⟩ : CArray 4) 0 =
      .ok (1, ⟨[32, 0, 98, 0], rfl⟩) ∧
    ¬ ReadsOnly [32] [97, 32, 98] (⟨[97, 32, 98, 0], rfl⟩ : CArray 4) 0 := by
  have hskip : skip [32] (⟨[97, 32, 98, 0], rfl⟩ : CArray 4) 0 =
    .ok (1, ⟨[32, 0, 98, 0], rfl⟩) := rfl
  refine ⟨⟨[], [], rfl, rfl, by decide⟩, hskip, ?_⟩
  rintro ⟨j, w, hrun, hw, -⟩
  rw [hskip] at hrun
  obtain ⟨rfl, rfl⟩ := Prod.mk.inj (Except.ok.inj hrun)
  exact absurd (hw.getElem?_add (k := 0) (Nat.zero_le _)) (by decide)

end PreforkHttpd
