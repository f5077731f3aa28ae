import Mathlib.Data.List.TakeWhile
import Mathlib.Order.Nat
import PreforkHttpd.Transition.Answered

/-!
# Byte arrays of a fixed size, with checked indices

A C array of `n` bytes is a list of bytes with the proof that there are `n` of them. Every access
is checked: `load` and `store` at an index outside the array stop with a fault, and the caller says
which fault index `i` of this array is (`loc i`).

Code that fills an array from its start is followed by `overlay`: `overlay xs v` is `v` with its
first bytes replaced by `xs`, so the bytes that were there before stay visible behind them.
`store_overlay` is the one fact about a store that such code needs — the next store either makes the
overlay one byte longer or is the fault at the end of the array — and `storeAll_overlay` is its
consequence for a whole string.

A C string is what an array holds up to its first NUL, and `readStr` reads it, running off the end
of an array that holds none.
-/

open Answered

/-- An array of `n` bytes. -/
@[ext] structure CArray (n : ℕ) where
  bytes : List UInt8
  length_bytes : bytes.length = n
deriving DecidableEq

namespace CArray

variable {n : ℕ} {φ : Type}

attribute [simp] length_bytes

/-- An array with one byte all over. -/
def fill (n : ℕ) (c : UInt8) : CArray n := ⟨List.replicate n c, List.length_replicate⟩

/-- A byte of the middle part of a list. -/
theorem getElem?_append_middle {xs ys zs : List UInt8} {i k : ℕ} (hi : xs.length = i)
    (hk : k < ys.length) : (xs ++ (ys ++ zs))[i + k]? = ys[k]? := by
  rw [← hi, List.getElem?_append_right (Nat.le_add_right _ _), Nat.add_sub_cancel_left,
    List.getElem?_append_left hk]

/-! ### Single accesses -/

/-- `v[i]`, read. -/
def load (loc : ℕ → φ) (v : CArray n) (i : ℕ) : Checked φ UInt8 :=
  match v.bytes[i]? with
  | some c => .ok c
  | none => .error (.fault (loc i))

/-- `v[i] = c`. -/
def store (loc : ℕ → φ) (v : CArray n) (i : ℕ) (c : UInt8) : Checked φ (CArray n) :=
  if i < n then .ok ⟨v.bytes.set i c, List.length_set.trans v.length_bytes⟩
  else .error (.fault (loc i))

variable {loc : ℕ → φ} {v : CArray n} {i : ℕ} {c : UInt8} {xs ys : List UInt8}

theorem load_of_getElem? (h : v.bytes[i]? = some c) : v.load loc i = .ok c := by
  rw [load, h]

/-- An index inside the array splits off a byte. -/
theorem exists_load (loc : ℕ → φ) (v : CArray n) (h : i < n) :
    ∃ c, v.load loc i = .ok c ∧ v.bytes.drop i = c :: v.bytes.drop (i + 1) := by
  have hi : i < v.bytes.length := v.length_bytes.symm ▸ h
  exact ⟨v.bytes[i], load_of_getElem? (List.getElem?_eq_getElem hi), List.drop_eq_getElem_cons hi⟩

theorem load_of_le (h : n ≤ i) : v.load loc i = .error (.fault (loc i)) := by
  rw [load, List.getElem?_eq_none (v.length_bytes.trans_le h)]

theorem length_take (v : CArray n) (h : i ≤ n) : (v.bytes.take i).length = i :=
  List.length_take_of_le (h.trans_eq v.length_bytes.symm)

/-! ### Filling from the start -/

/-- The array with its first bytes replaced by `xs`. -/
def overlay (xs : List UInt8) (v : CArray n) : CArray n :=
  ⟨(xs ++ v.bytes.drop xs.length).take n, by
    rw [List.length_take, List.length_append, List.length_drop, v.length_bytes]
    omega⟩

theorem bytes_overlay (v : CArray n) (h : xs.length ≤ n) :
    (overlay xs v).bytes = xs ++ v.bytes.drop xs.length := by
  refine List.take_of_length_le ?_
  rw [List.length_append, List.length_drop, v.length_bytes]
  omega

@[simp] theorem overlay_nil (v : CArray n) : overlay [] v = v :=
  CArray.ext (List.take_of_length_le v.length_bytes.le)

/-- What fits starts the overlay. -/
theorem prefix_bytes_overlay (v : CArray n) (h : xs.length ≤ n) :
    xs <+: (overlay xs v).bytes :=
  bytes_overlay v h ▸ List.prefix_append _ _

/-- Writing what is already there changes nothing. -/
theorem overlay_of_prefix (h : xs <+: v.bytes) : overlay xs v = v := by
  have hlength : xs.length ≤ n := h.length_le.trans v.length_bytes.le
  refine CArray.ext ?_
  rw [bytes_overlay v hlength]
  obtain ⟨zs, hzs⟩ := h
  rw [← hzs, List.drop_left]

/-- A longer overlay hides a shorter one. -/
theorem overlay_overlay (h : ys.length ≤ xs.length) (hxs : xs.length ≤ n) :
    overlay xs (overlay ys v) = overlay xs v := by
  refine CArray.ext ?_
  rw [bytes_overlay _ hxs, bytes_overlay _ hxs, bytes_overlay _ (h.trans hxs),
    List.drop_append, List.drop_of_length_le h, List.drop_drop, List.nil_append,
    Nat.add_sub_cancel' h]

/-- One byte more still fits. -/
theorem length_concat_le (h : xs.length < n) : (xs ++ [c]).length ≤ n := by
  rw [List.length_append]
  exact h

/-- **The next store** makes the overlay one byte longer, as long as there is room. -/
theorem store_overlay (h : xs.length < n) :
    (overlay xs v).store loc xs.length c = .ok (overlay (xs ++ [c]) v) := by
  rw [store, if_pos h]
  refine congrArg Except.ok (CArray.ext ?_)
  have hlength : (xs ++ [c]).length ≤ n := length_concat_le h
  rw [bytes_overlay v hlength]
  show (overlay xs v).bytes.set xs.length c = _
  obtain ⟨d, -, hdrop⟩ := v.exists_load loc h
  rw [bytes_overlay v h.le, hdrop, List.set_append_right _ _ (le_refl _), Nat.sub_self,
    List.set_cons_zero, List.append_assoc, List.length_append]
  rfl

/-- Storing over the last byte. -/
theorem store_overlay_last {d : UInt8} (h : xs.length < n) :
    (overlay (xs ++ [c]) v).store loc xs.length d = .ok (overlay (xs ++ [d]) v) := by
  have hlength : ∀ b : UInt8, (xs ++ [b]).length = xs.length + 1 := fun b ↦ by
    rw [List.length_append, List.length_singleton]
  have hprefix : xs <+: (overlay (xs ++ [c]) v).bytes :=
    (List.prefix_append xs [c]).trans (prefix_bytes_overlay v (by rw [hlength]; exact h))
  rw [← overlay_of_prefix hprefix, store_overlay h, overlay_overlay (by rw [hlength, hlength])
    (by rw [hlength]; exact h)]

/-- The store past the end is a fault. -/
theorem store_of_le (h : n ≤ i) : v.store loc i c = .error (.fault (loc i)) :=
  if_neg (not_lt.2 h)

/-- Store a list of bytes from index `i` on. -/
def storeAll (loc : ℕ → φ) (v : CArray n) (i : ℕ) : List UInt8 → Checked φ (CArray n)
  | [] => .ok v
  | c :: cs => (v.store loc i c).bind fun v' ↦ storeAll loc v' (i + 1) cs

/-- **A whole string** is stored, as long as there is room. -/
theorem storeAll_overlay (loc : ℕ → φ) (v : CArray n) :
    ∀ {ys xs : List UInt8}, (xs ++ ys).length ≤ n →
      (overlay xs v).storeAll loc xs.length ys = .ok (overlay (xs ++ ys) v)
  | [], xs, _ => by rw [storeAll, List.append_nil]
  | c :: cs, xs, h => by
    have hlt : xs.length < n := by
      rw [List.length_append, List.length_cons] at h
      omega
    rw [storeAll, store_overlay hlt]
    have hxs : xs ++ c :: cs = (xs ++ [c]) ++ cs := (List.append_cons xs c cs)
    rw [hxs] at h ⊢
    have ih := storeAll_overlay loc v h
    rw [List.length_append] at ih
    exact ih

/-- A whole string stored from the start. -/
theorem storeAll_zero (loc : ℕ → φ) (v : CArray n) (h : xs.length ≤ n) :
    v.storeAll loc 0 xs = .ok (overlay xs v) := by
  have hstore := storeAll_overlay loc v (show ([] ++ xs).length ≤ n from h)
  rwa [overlay_nil] at hstore

/-- What is stored without a fault is inside the array. -/
theorem le_of_storeAll (hys : ys ≠ []) {w : CArray n} (h : v.storeAll loc i ys = .ok w) :
    i + ys.length ≤ n := by
  induction ys generalizing v i with
  | nil => exact absurd rfl hys
  | cons c cs ih =>
    rw [storeAll, store] at h
    split at h
    next hi =>
      rw [List.length_cons]
      cases cs with
      | nil => exact hi
      | cons d ds =>
        have hrest := ih (List.cons_ne_nil d ds) h
        omega
    next => cases h

/-- **A string stored anywhere**: it is inside the array, and the bytes before and behind it stay.
-/
theorem storeAll_eq_ok_iff (hys : ys ≠ []) {w : CArray n} :
    v.storeAll loc i ys = .ok w ↔
      i + ys.length ≤ n ∧ w.bytes = v.bytes.take i ++ ys ++ v.bytes.drop (i + ys.length) := by
  by_cases hfit : i + ys.length ≤ n
  · have htake : (v.bytes.take i).length = i := v.length_take (Nat.le_of_add_right_le hfit)
    have hlength : (v.bytes.take i ++ ys).length = i + ys.length := by
      rw [List.length_append, htake]
    have hstore := storeAll_overlay loc v (hlength.trans_le hfit)
    rw [htake, overlay_of_prefix (List.take_prefix _ _)] at hstore
    rw [hstore, Except.ok.injEq, CArray.ext_iff, bytes_overlay v (hlength.trans_le hfit), hlength,
      eq_comm, and_iff_right hfit]
  · refine iff_of_false (fun h ↦ hfit ?_) fun h ↦ hfit h.1
    exact le_of_storeAll hys h

/-- A byte just stored is read back. -/
theorem load_overlay (hfit : xs.length ≤ n) (h : xs[i]? = some c) :
    (overlay xs v).load loc i = .ok c := by
  obtain ⟨hi, rfl⟩ := List.getElem?_eq_some_iff.1 h
  exact load_of_getElem? (List.prefix_iff_getElem?.1 (prefix_bytes_overlay v hfit) i hi)

/-! ### Strings -/

/-- The bytes up to the first NUL. -/
def cstr (v : CArray n) : List UInt8 := v.bytes.takeWhile (· ≠ 0)

/-- Read a string, looking for its NUL. -/
def readStr (loc : ℕ → φ) (v : CArray n) : Checked φ (List UInt8) :=
  if 0 ∈ v.bytes then .ok v.cstr else .error (.fault (loc n))

theorem takeWhile_append_nul (xs ys : List UInt8) :
    (xs ++ 0 :: ys).takeWhile (· ≠ 0) = xs.takeWhile (· ≠ 0) := by
  induction xs with
  | nil => rfl
  | cons c cs ih =>
    rw [List.cons_append, List.takeWhile_cons, List.takeWhile_cons, ih]

/-- The string just written is read back, up to a NUL of its own. -/
theorem cstr_overlay (h : xs.length < n) :
    (overlay (xs ++ [0]) v).cstr = xs.takeWhile (· ≠ 0) := by
  have hlength : (xs ++ [0]).length ≤ n := length_concat_le h
  rw [cstr, bytes_overlay v hlength, List.append_assoc]
  exact takeWhile_append_nul _ _

theorem readStr_overlay (h : xs.length < n) :
    (overlay (xs ++ [0]) v).readStr loc = .ok (xs.takeWhile (· ≠ 0)) := by
  have hlength : (xs ++ [0]).length ≤ n := length_concat_le h
  rw [readStr, if_pos, cstr_overlay h]
  rw [bytes_overlay v hlength]
  exact List.mem_append_left _ (List.mem_append_right _ (List.mem_singleton_self 0))

/-- `strcat(v, ys)`: from the NUL of `v` on, `ys` and a NUL. -/
def strcat (loc : ℕ → φ) (v : CArray n) (ys : List UInt8) : Checked φ (CArray n) :=
  (v.readStr loc).bind fun xs ↦ v.storeAll loc xs.length (ys ++ [0])

/-- A string without a NUL of its own is its own reading. -/
theorem takeWhile_ne_nul (h : 0 ∉ xs) : xs.takeWhile (· ≠ 0) = xs :=
  List.takeWhile_eq_self_iff.2 fun _ hc ↦ decide_eq_true fun hzero ↦ h (hzero ▸ hc)

/-- **Strings are joined**, as long as there is room. -/
theorem strcat_overlay (h0 : 0 ∉ xs) (h : (xs ++ ys).length < n) :
    (overlay (xs ++ [0]) v).strcat loc ys = .ok (overlay (xs ++ ys ++ [0]) v) := by
  have hlength : xs.length < n := by
    rw [List.length_append] at h
    omega
  have hfit : (xs ++ [0]).length ≤ n := length_concat_le hlength
  have hfit' : (xs ++ (ys ++ [0])).length ≤ n := by
    rw [← List.append_assoc, List.length_append]
    exact h
  rw [strcat, readStr_overlay hlength, takeWhile_ne_nul h0]
  show storeAll loc (overlay (xs ++ [0]) v) xs.length (ys ++ [0]) = _
  have hprefix := (List.prefix_append xs [0]).trans (prefix_bytes_overlay v hfit)
  rw [← overlay_of_prefix hprefix, storeAll_overlay loc _ hfit', ← List.append_assoc,
    overlay_overlay _ (by rwa [List.append_assoc])]
  rw [List.length_append, List.length_append, List.length_append]
  omega

end CArray
