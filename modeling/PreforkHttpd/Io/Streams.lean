import PreforkHttpd.Http.Readline
import PreforkHttpd.Transition.Scheduled

/-!
# Descriptors with a stream behind them

`utils/http_io.c` and the headers read from a descriptor and write to one. Behind the descriptor
that is read there is a stream, and the kernel decides only **how much** of it a `read` gets: the
answers are a list of numbers and failures, and the bytes are the next ones of the stream. Every
schedule of answers is one the kernel can give, for a `read` gets no more than it asks for.

A `write` names a region of the caller's buffer, a place and a size. One that does not lie inside
the buffer is a fault, for the bytes beside it are other memory of the process.

The sizes are a `size_t`, of which `sizeT` is the arithmetic; `ssize` is that of an `ssize_t`.
-/

open Answered

namespace PreforkHttpd

/-! ### Machine arithmetic -/

/-- The value of an integer as a `size_t`, that is modulo `2 ^ 64`. -/
def sizeT (k : ℤ) : ℤ := k % 18446744073709551616

/-- An `ssize_t` that is not negative. -/
abbrev Size := { n : ℕ // n < 9223372036854775808 }

theorem sizeT_nonneg (k : ℤ) : 0 ≤ sizeT k := Int.emod_nonneg k (by decide)

/-- A `size_t` is not negative, so that a test for it fails. -/
theorem not_sizeT_neg (k : ℤ) : ¬ sizeT k < 0 := Int.not_lt.2 (sizeT_nonneg k)

theorem sizeT_pos_iff {k : ℤ} : 0 < sizeT k ↔ sizeT k ≠ 0 := by
  have hnonneg := sizeT_nonneg k
  omega

theorem sizeT_of_lt {k : ℤ} (h : 0 ≤ k) (hlt : k < 18446744073709551616) : sizeT k = k :=
  Int.emod_eq_of_lt h hlt

theorem ssize_of_lt {k : ℤ} (h : -9223372036854775808 ≤ k) (hlt : k < 9223372036854775808) :
    ssize k = k :=
  Int.bmod_eq_of_le (by omega) (by omega)

/-- An `ssize_t` is what remains modulo `2 ^ 64`, or that less `2 ^ 64`. -/
theorem ssize_cases (k : ℤ) :
    k % 18446744073709551616 < 9223372036854775808 ∧ ssize k = k % 18446744073709551616 ∨
      9223372036854775808 ≤ k % 18446744073709551616 ∧
        ssize k = k % 18446744073709551616 - 18446744073709551616 := by
  rw [ssize, Int.bmod_def]
  split <;> omega

/-- As a signed number it is `-1` again. -/
theorem ssize_sizeT (k : ℤ) : ssize (sizeT k) = ssize k :=
  Int.emod_bmod k 18446744073709551616

theorem ssize_sub_sizeT (j k : ℤ) : ssize (j - sizeT k) = ssize (j - k) :=
  Int.sub_emod_bmod j 18446744073709551616

theorem sizeT_sub_sizeT_right (j k : ℤ) : sizeT (j - sizeT k) = sizeT (j - k) :=
  Int.sub_emod_emod j k 18446744073709551616

theorem sizeT_sub_sizeT (j k : ℤ) : sizeT (sizeT j - sizeT k) = sizeT (j - k) :=
  (Int.sub_emod j k 18446744073709551616).symm

/-! ### The first entries of a sequence -/

section FirstOf

variable {α : Type} (f : ℕ → α)

@[simp] theorem length_firstOf (k : ℕ) : (firstOf f k).length = k := by
  rw [firstOf, List.length_map, List.length_range]

theorem getElem?_firstOf {i k : ℕ} (h : i < k) : (firstOf f k)[i]? = some (f i) := by
  rw [firstOf, List.getElem?_map, List.getElem?_range h, Option.map_some]

theorem firstOf_congr {f g : ℕ → α} {k : ℕ} (h : ∀ i < k, f i = g i) :
    firstOf f k = firstOf g k :=
  List.map_congr_left fun i hi ↦ h i (List.mem_range.1 hi)

theorem mem_firstOf {a : α} {k : ℕ} : a ∈ firstOf f k ↔ ∃ i < k, f i = a := by
  rw [firstOf, List.mem_map]
  simp only [List.mem_range]

theorem firstOf_add (k m : ℕ) :
    firstOf f (k + m) = firstOf f k ++ firstOf (fun j ↦ f (k + j)) m := by
  rw [firstOf, firstOf, firstOf, List.range_add, List.map_append, List.map_map]
  rfl

/-- The entries from the `i`-th on. -/
theorem firstOf_from_succ (i m : ℕ) :
    firstOf (fun j ↦ f (i + j)) (m + 1) = f i :: firstOf (fun j ↦ f (i + 1 + j)) m := by
  rw [Nat.add_comm m 1, firstOf_add]
  simp only [← Nat.add_assoc]
  rfl

theorem take_firstOf {i k : ℕ} (h : i ≤ k) : (firstOf f k).take i = firstOf f i := by
  obtain ⟨d, rfl⟩ := Nat.exists_eq_add_of_le h
  rw [firstOf_add, List.take_left' (length_firstOf f i)]

/-- What stands before all the later entries. -/
theorem eq_firstOf_of_append {k m : ℕ} {l : List α}
    (h : firstOf f (k + m) = l ++ firstOf (fun j ↦ f (k + j)) m) : l = firstOf f k := by
  rw [firstOf_add] at h
  exact (List.append_cancel_right h).symm

/-- The first entries, stored at the start of a buffer. -/
theorem bytes_overlay_firstOf {n m : ℕ} (f : ℕ → UInt8) (buffer : CArray n) (h : m ≤ n) :
    (CArray.overlay (firstOf f m) buffer).bytes = firstOf f m ++ buffer.bytes.drop m := by
  have hlength := length_firstOf f m
  rw [CArray.bytes_overlay _ (hlength.trans_le h), hlength]

end FirstOf

/-! ### Reading -/

/-- What C leaves undefined. -/
inductive IoFault
  /-- Memory outside the caller's buffer, so many bytes from its start. -/
  | outside (i : ℤ)
  /-- A signed number out of range. -/
  | overflow
deriving DecidableEq

/-- The fault of an index of the caller's buffer. -/
def IoFault.index (i : ℕ) : IoFault := .outside i

/-- What `read` is to return: so many bytes, or as many as it asks for when these are fewer, or a
failure. -/
inductive ReadReturn
  | count (n : ℕ)
  | err (e : Errno)
deriving DecidableEq

/-- The answers to come, and the stream with the position that reading has come to. -/
structure Input where
  returns : List ReadReturn
  stream : ℕ → UInt8
  pos : ℕ

namespace Input

/-- Nothing is read yet. -/
def start (stream : ℕ → UInt8) (returns : List ReadReturn) : Input where
  returns := returns
  stream := stream
  pos := 0

/-- The stream at a position, with `m` answers of a schedule to come, from the `i`-th on. -/
def scheduled (stream : ℕ → UInt8) (returns : ℕ → ReadReturn) (pos i m : ℕ) : Input where
  returns := firstOf (fun j ↦ returns (i + j)) m
  stream := stream
  pos := pos

theorem scheduled_zero (stream : ℕ → UInt8) (returns : ℕ → ReadReturn) (k : ℕ) :
    scheduled stream returns 0 0 k = start stream (firstOf returns k) := by
  simp only [scheduled, start, Nat.zero_add]

/-- The next bytes of the stream. -/
def upcoming (w : Input) (n : ℕ) : List UInt8 := firstOf (fun i ↦ w.stream (w.pos + i)) n

end Input

/-- What the call returned. -/
def RecvAnswer.value : RecvAnswer → ℤ
  | .received data => data.length
  | .err _ => -1

/-- What the call stored. -/
def RecvAnswer.data : RecvAnswer → List UInt8
  | .received data => data
  | .err _ => []

/-- `errno` after the call, where it failed. -/
def RecvAnswer.errno : RecvAnswer → Option Errno
  | .received _ => none
  | .err e => some e

/-- `read` of up to `len` bytes. -/
def readStream (len : ℕ) : Code Input IoFault RecvAnswer := fun w ↦
  match w.returns with
  | [] => .error .pending
  | .count n :: rest =>
    .ok (.received (w.upcoming (min n len)), { w with returns := rest, pos := w.pos + min n len })
  | .err e :: rest => .ok (.err e, { w with returns := rest })

/-- `read(fd, buf + ptr, len)`. -/
def readInto {n : ℕ} (buf : CArray n) (ptr len : ℕ) :
    Code Input IoFault (RecvAnswer × CArray n) := do
  let a ← readStream len
  let buf ← buf.storeAll IoFault.index ptr a.data
  pure (a, buf)

/-- How many bytes a `read` of up to `len` bytes gets. -/
def ReadReturn.amount (len : ℕ) : ReadReturn → ℕ
  | .count n => min n len
  | .err _ => 0

/-- What it returns. -/
def ReadReturn.value (len : ℕ) : ReadReturn → ℤ
  | .count n => ((min n len : ℕ) : ℤ)
  | .err _ => -1

/-- What it is answered with, on this stream. -/
def ReadReturn.answer (w : Input) (len : ℕ) : ReadReturn → RecvAnswer
  | .count n => .received (w.upcoming (min n len))
  | .err e => .err e

namespace ReadReturn

variable {w : Input} {len : ℕ} {a : ReadReturn}

theorem amount_le (a : ReadReturn) (len : ℕ) : a.amount len ≤ len := by
  cases a with
  | count n => exact Nat.min_le_right n len
  | err e => exact Nat.zero_le len

@[simp] theorem value_answer (w : Input) (len : ℕ) (a : ReadReturn) :
    (a.answer w len).value = a.value len := by
  cases a with
  | count n => exact congrArg (Nat.cast : ℕ → ℤ) (length_firstOf _ _)
  | err e => rfl

@[simp] theorem data_answer (w : Input) (len : ℕ) (a : ReadReturn) :
    (a.answer w len).data = w.upcoming (a.amount len) := by
  cases a <;> rfl

/-- A number of bytes, or a failure. -/
theorem value_cases (a : ReadReturn) (len : ℕ) :
    (∃ n, a = .count n ∧ a.value len = a.amount len) ∨ ∃ e, a = .err e ∧ a.value len = -1 := by
  cases a with
  | count n => exact Or.inl ⟨n, rfl, rfl⟩
  | err e => exact Or.inr ⟨e, rfl, rfl⟩

/-- Only the end of the stream makes a `read` that asks for something return zero. -/
theorem eq_of_value_eq_zero (hlen : 0 < len) (h : a.value len = 0) : a = .count 0 := by
  rcases a with n | e
  · rw [value] at h
    exact congrArg count (by omega)
  · cases h

end ReadReturn

section Reading

variable {w : Input} {n len ptr : ℕ} {stream : ℕ → UInt8} {returns : ℕ → ReadReturn} {pos i m : ℕ}

theorem readStream_of_cons {a : ReadReturn} {rest : List ReadReturn} (h : w.returns = a :: rest) :
    readStream len w =
      .ok (a.answer w len, { w with returns := rest, pos := w.pos + a.amount len }) := by
  rw [readStream, h]
  cases a <;> rfl

theorem readStream_of_nil (h : w.returns = []) : readStream len w = .error .pending := by
  rw [readStream, h]

/-- A `read` that returns takes an answer. -/
theorem returns_of_readStream {a : RecvAnswer} {w' : Input} (h : readStream len w = .ok (a, w')) :
    w'.returns.length < w.returns.length := by
  rcases hw : w.returns with - | ⟨b, rest⟩
  · rw [readStream_of_nil hw] at h
    cases h
  · rw [readStream_of_cons hw] at h
    obtain ⟨-, rfl⟩ := Prod.mk.inj (Except.ok.inj h)
    exact Nat.lt_succ_self _

theorem returns_of_readInto {buf : CArray n} {p : RecvAnswer × CArray n} {w' : Input}
    (h : readInto buf ptr len w = .ok (p, w')) : w'.returns.length < w.returns.length := by
  rw [readInto, bind_eq_ok_iff] at h
  obtain ⟨a, v, hread, h⟩ := h
  rw [bind_eq_ok_iff] at h
  obtain ⟨buf', v', hstore, h⟩ := h
  obtain ⟨-, rfl⟩ := lift_eq_ok_iff.1 hstore
  obtain ⟨-, rfl⟩ := Prod.mk.inj (Except.ok.inj h)
  exact returns_of_readStream hread

/-- The next answer of a schedule. -/
theorem readStream_scheduled :
    readStream len (Input.scheduled stream returns pos i (m + 1)) =
      .ok ((returns i).answer (Input.scheduled stream returns pos i (m + 1)) len,
        Input.scheduled stream returns (pos + (returns i).amount len) (i + 1) m) :=
  readStream_of_cons (firstOf_from_succ returns i m)

/-- **A `read` behind what the buffer holds**, on a schedule: the bytes it gets stand there
afterwards. -/
theorem readInto_scheduled {xs : List UInt8} (buf : CArray n) (hptr : xs.length = ptr)
    (hfit : ptr + (returns i).amount len ≤ n) :
    readInto (CArray.overlay xs buf) ptr len (Input.scheduled stream returns pos i (m + 1)) =
      .ok (((returns i).answer (Input.scheduled stream returns pos i (m + 1)) len,
          CArray.overlay (xs ++ firstOf (fun j ↦ stream (pos + j)) ((returns i).amount len)) buf),
        Input.scheduled stream returns (pos + (returns i).amount len) (i + 1) m) := by
  have hlength : (xs ++ firstOf (fun j ↦ stream (pos + j))
      ((returns i).amount len)).length ≤ n := by
    rw [List.length_append, length_firstOf, hptr]
    exact hfit
  rw [readInto, bind_of_ok readStream_scheduled, ReadReturn.data_answer, ← hptr]
  exact bind_of_ok (lift_of_ok (CArray.storeAll_overlay IoFault.index buf hlength) _)

/-- A `read` into the start of the buffer. -/
theorem readInto_zero (buf : CArray n) (hfit : (returns i).amount len ≤ n) :
    readInto buf 0 len (Input.scheduled stream returns pos i (m + 1)) =
      .ok (((returns i).answer (Input.scheduled stream returns pos i (m + 1)) len,
          CArray.overlay (firstOf (fun j ↦ stream (pos + j)) ((returns i).amount len)) buf),
        Input.scheduled stream returns (pos + (returns i).amount len) (i + 1) m) := by
  rw [← Nat.zero_add ((returns i).amount len)] at hfit
  have hread : readInto (CArray.overlay [] buf) 0 len
      (Input.scheduled stream returns pos i (m + 1)) = _ :=
    readInto_scheduled buf List.length_nil hfit
  rwa [CArray.overlay_nil] at hread

/-- A `read` behind the beginning of the stream makes it longer. -/
theorem readInto_behind (buf : CArray n) (hfit : pos + (returns i).amount len ≤ n) :
    readInto (CArray.overlay (firstOf stream pos) buf) pos len
        (Input.scheduled stream returns pos i (m + 1)) =
      .ok (((returns i).answer (Input.scheduled stream returns pos i (m + 1)) len,
          CArray.overlay (firstOf stream (pos + (returns i).amount len)) buf),
        Input.scheduled stream returns (pos + (returns i).amount len) (i + 1) m) := by
  rw [firstOf_add]
  exact readInto_scheduled buf (length_firstOf stream pos) hfit

theorem readInto_of_nil {buf : CArray n} (h : w.returns = []) :
    readInto buf ptr len w = .error .pending :=
  bind_of_error (readStream_of_nil h)

end Reading

/-! ### Writing -/

/-- What the call returned. -/
def SendAnswer.value : SendAnswer → ℤ
  | .sent n => n
  | .err _ => -1

/-- `errno` after the call, where it failed. -/
def SendAnswer.errno : SendAnswer → Option Errno
  | .sent _ => none
  | .err e => some e

/-- The answer to a `write` of `cnt` bytes: no more are taken. -/
def SendAnswer.clip (cnt : ℤ) : SendAnswer → SendAnswer
  | .sent n => .sent (min n cnt.toNat)
  | .err e => .err e

/-- The answers to come, and the bytes that the kernel has taken. -/
structure Output where
  returns : List SendAnswer
  accepted : List UInt8
deriving DecidableEq

namespace Output

/-- Nothing is written yet. -/
def start (returns : List SendAnswer) : Output where
  returns := returns
  accepted := []

/-- So much is written, with `m` answers of a schedule to come, from the `i`-th on. -/
def scheduled (returns : ℕ → SendAnswer) (accepted : List UInt8) (i m : ℕ) : Output where
  returns := firstOf (fun j ↦ returns (i + j)) m
  accepted := accepted

theorem scheduled_zero (returns : ℕ → SendAnswer) (k : ℕ) :
    scheduled returns [] 0 k = start (firstOf returns k) := by
  simp only [scheduled, start, Nat.zero_add]

end Output

/-- `write(fd, buf + ptr, cnt)`. -/
def writeFrom (buf : List UInt8) (ptr cnt : ℤ) : Code Output IoFault SendAnswer := fun w ↦
  if 0 ≤ ptr ∧ ptr + cnt ≤ buf.length then
    match w.returns with
    | [] => .error .pending
    | a :: rest => .ok (a.clip cnt,
      { returns := rest
        accepted := w.accepted ++ (buf.drop ptr.toNat).take (a.clip cnt).value.toNat })
  else .error (.fault (.outside (if ptr < 0 then ptr else buf.length)))

section Writing

variable {buf : List UInt8} {ptr cnt : ℤ} {w : Output} {returns : ℕ → SendAnswer}
  {accepted : List UInt8} {i m : ℕ}

/-- The next answer of a schedule. -/
theorem writeFrom_scheduled (h : 0 ≤ ptr ∧ ptr + cnt ≤ buf.length) :
    writeFrom buf ptr cnt (Output.scheduled returns accepted i (m + 1)) =
      .ok ((returns i).clip cnt, Output.scheduled returns
        (accepted ++ (buf.drop ptr.toNat).take ((returns i).clip cnt).value.toNat) (i + 1) m) := by
  rw [writeFrom, if_pos h, Output.scheduled, firstOf_from_succ]
  rfl

/-- A region that reaches outside. -/
theorem writeFrom_outside (h : ¬ (0 ≤ ptr ∧ ptr + cnt ≤ buf.length)) (w : Output) :
    ∃ f, writeFrom buf ptr cnt w = .error (.fault f) :=
  ⟨_, if_neg h⟩

theorem writeFrom_of_nil (buf : List UInt8) (ptr cnt : ℤ) (h : w.returns = []) :
    ∃ e, writeFrom buf ptr cnt w = .error e := by
  rw [writeFrom, h]
  split
  · exact ⟨_, rfl⟩
  · exact ⟨_, rfl⟩

/-- A `write` that returns takes an answer. -/
theorem returns_of_writeFrom {a : SendAnswer} {w' : Output}
    (h : writeFrom buf ptr cnt w = .ok (a, w')) : w'.returns.length < w.returns.length := by
  rw [writeFrom] at h
  split at h
  · rcases hw : w.returns with - | ⟨b, rest⟩ <;> rw [hw] at h
    · cases h
    · obtain ⟨-, rfl⟩ := Prod.mk.inj (Except.ok.inj h)
      exact Nat.lt_succ_self _
  · cases h

end Writing

end PreforkHttpd
