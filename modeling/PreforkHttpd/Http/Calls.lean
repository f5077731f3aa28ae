import Mathlib.Data.List.Infix
import PreforkHttpd.Memory.CArray

/-!
# The system calls of the HTTP module

What `http_module/http_module.h` asks of the operating system while it handles one request: reads
and sends on the client's socket, `recv` on the file it answers with, `open`, `fdopen` and `close`.

The state of the code is the list of answers still to come, one list for each kind of call, with
what the calls have done so far: the bytes the socket has accepted for the client, and the open
descriptors of the process. The file system is fixed during a request and is a parameter of the code
that looks at it.

Two calls take more than their answer says. `send` hands the kernel a piece of a buffer; of an
answer `sent n` the kernel takes the first `n` bytes, or all of them when there are fewer, so that
every list of answers is one the kernel can give. `recv` stores what it received into a buffer,
again no more than was asked for.

The order on states is the passing of time: later, fewer answers are to come, and the client has
what it had and perhaps more; what was handed to the socket stays in the record.
-/

open Answered

namespace PreforkHttpd

/-- `BUFFSIZE`. -/
abbrev buffSize : ℕ := 1024

/-- A value of `errno`. -/
inductive Errno
  | eintr
  | eagain
  | enotsock
  | other (code : ℕ)
deriving DecidableEq

/-- A length that an `int` holds. -/
abbrev IntLength := { len : ℕ // len ≤ 2147483647 }

/-- What `read(fd, &c, 1)` returned. -/
inductive ReadAnswer
  | byte (c : UInt8)
  | eof
  | err (e : Errno)
deriving DecidableEq

/-- What `recv` returned; at end of stream it received nothing. -/
inductive RecvAnswer
  | received (data : List UInt8)
  | err (e : Errno)
deriving DecidableEq

/-- What `send` returned. -/
inductive SendAnswer
  | sent (n : ℕ)
  | err (e : Errno)
deriving DecidableEq

/-- The answers to come, and what the calls so far have done. -/
structure Calls where
  reads : List ReadAnswer
  recvs : List RecvAnswer
  sends : List SendAnswer
  /-- What `open` returned: a descriptor, or `none` for `-1`. -/
  opens : List (Option ℤ)
  /-- Whether `fdopen` returned a stream. -/
  fdopens : List Bool
  /-- The bytes that the client's socket has accepted. -/
  accepted : List UInt8
  /-- What each call of `send` was handed, accepted or not. -/
  handed : List (List UInt8)
  /-- The open descriptors of the process. -/
  fds : List ℤ
deriving DecidableEq

/-- Nothing but reads to come. -/
def Calls.reading (reads : List ReadAnswer) : Calls where
  reads := reads
  recvs := []
  sends := []
  opens := []
  fdopens := []
  accepted := []
  handed := []
  fds := []

/-- The arrays of a request. -/
inductive ArrayName
  | buf
  | method
  | url
  | localPath
  | page
  | chunk
deriving DecidableEq

/-- What C leaves undefined: an index outside an array, a null pointer. -/
inductive Fault
  | index (name : ArrayName) (i : ℕ)
  | null
deriving DecidableEq

/-- Code of the HTTP module. -/
abbrev Http (α : Type) := Code Calls Fault α

/-- `read(fd, &c, 1)`. -/
def readByte : Http ReadAnswer := ask Calls.reads fun rest w ↦ { w with reads := rest }

theorem readByte_of_cons {w : Calls} {a : ReadAnswer} {rest : List ReadAnswer}
    (h : w.reads = a :: rest) : readByte w = .ok (a, { w with reads := rest }) := ask_of_cons h

theorem readByte_eq_ok_iff {w w' : Calls} {a : ReadAnswer} :
    readByte w = .ok (a, w') ↔ ∃ rest, w.reads = a :: rest ∧ w' = { w with reads := rest } :=
  ask_eq_ok_iff

theorem readByte_of_nil {w : Calls} (h : w.reads = []) : readByte w = .error .pending :=
  ask_of_nil h

/-- What exists under a path. -/
inductive FileKind
  | directory
  | regular (content : List UInt8)
  | other
deriving DecidableEq

/-- The objects of a file system by path. -/
abbrev FileSystem := List UInt8 → Option FileKind

/-- The bytes of a string constant. -/
def ascii (s : String) : List UInt8 := s.toList.map fun c ↦ c.toNat.toUInt8

/-! ### The calls of a response -/

/-- `send(fd, data, len, 0)`: what was sent is what the kernel took. -/
def send (data : List UInt8) : Http SendAnswer := fun w ↦
  match w.sends with
  | [] => .error .pending
  | .sent n :: rest =>
    .ok (.sent (min n data.length), { w with
      sends := rest, accepted := w.accepted ++ data.take n, handed := w.handed ++ [data] })
  | .err e :: rest => .ok (.err e, { w with sends := rest, handed := w.handed ++ [data] })

/-- What `recv` gives a caller that asked for `len` bytes. -/
def RecvAnswer.upTo (len : ℕ) : RecvAnswer → RecvAnswer
  | .received data => .received (data.take len)
  | .err e => .err e

/-- `recv(fd, p, len, 0)`. -/
def recv (len : ℕ) : Http RecvAnswer := do
  let a ← ask Calls.recvs fun rest w ↦ { w with recvs := rest }
  pure (a.upTo len)

/-- `open(path, O_RDWR)`: there is no opening what does not exist, or a directory, for writing. -/
def openFile (fs : FileSystem) (path : List UInt8) : Http ℤ :=
  match fs path with
  | none => pure (-1)
  | some .directory => pure (-1)
  | some _ => do
    let a ← ask Calls.opens fun rest w ↦ { w with opens := rest }
    match a with
    | none => pure (-1)
    | some fd => fun w ↦ .ok (fd, { w with fds := fd :: w.fds })

/-- `close(fd)`. -/
def close (fd : ℤ) : Http Unit := fun w ↦ .ok ((), { w with fds := w.fds.erase fd })

/-- A stream of the standard library: its end-of-file indicator. -/
structure FileStream where
  eof : Bool
deriving DecidableEq

/-- `fdopen(fd, "rw")`: a stream whose end-of-file indicator is clear, or a null pointer. -/
def fdopen : Http (Option FileStream) := do
  let opened ← ask Calls.fdopens fun rest w ↦ { w with fdopens := rest }
  pure (if opened then some ⟨false⟩ else none)

/-- `feof(stream)`. -/
def feof : Option FileStream → Checked Fault Bool
  | some stream => .ok stream.eof
  | none => .error (.fault .null)

/-! ### The order of time -/

/-- What is left of the answers, and what the client has got. -/
structure Calls.Later (w w' : Calls) : Prop where
  reads : w'.reads <:+ w.reads
  recvs : w'.recvs <:+ w.recvs
  sends : w'.sends <:+ w.sends
  opens : w'.opens <:+ w.opens
  fdopens : w'.fdopens <:+ w.fdopens
  accepted : w.accepted <+: w'.accepted
  handed : w.handed <+: w'.handed

/-- Nothing has happened. A single call is this, except for what it changes. -/
theorem Calls.Later.refl (w : Calls) : Calls.Later w w where
  reads := List.suffix_rfl
  recvs := List.suffix_rfl
  sends := List.suffix_rfl
  opens := List.suffix_rfl
  fdopens := List.suffix_rfl
  accepted := List.prefix_rfl
  handed := List.prefix_rfl

instance : Preorder Calls where
  le := Calls.Later
  le_refl := Calls.Later.refl
  le_trans _ _ _ h h' := ⟨h'.reads.trans h.reads, h'.recvs.trans h.recvs, h'.sends.trans h.sends,
    h'.opens.trans h.opens, h'.fdopens.trans h.fdopens, h.accepted.trans h'.accepted,
    h.handed.trans h'.handed⟩

theorem forward_send (data : List UInt8) : Forward (send data) := by
  intro w a w' h
  rw [send] at h
  split at h
  next => cases h
  next n rest hw =>
    cases h
    exact { Calls.Later.refl w with
      sends := hw ▸ List.suffix_cons _ _
      accepted := List.prefix_append _ _
      handed := List.prefix_append _ _ }
  next e rest hw =>
    cases h
    exact { Calls.Later.refl w with
      sends := hw ▸ List.suffix_cons _ _
      handed := List.prefix_append _ _ }

theorem safe_send (data : List UInt8) : Safe (send data) := by
  intro w f
  rw [send]
  split <;> nofun

/-- Every `send` takes an answer. -/
theorem sends_of_send {data : List UInt8} {w w' : Calls} {a : SendAnswer}
    (h : send data w = .ok (a, w')) : w'.sends.length < w.sends.length := by
  rw [send] at h
  split at h
  next => cases h
  next n rest hw =>
    cases h
    exact hw ▸ Nat.lt_succ_self _
  next e rest hw =>
    cases h
    exact hw ▸ Nat.lt_succ_self _

theorem recv_eq_ok {len : ℕ} {w w' : Calls} {a : RecvAnswer} (h : recv len w = .ok (a, w')) :
    ∃ b rest, w.recvs = b :: rest ∧ a = b.upTo len ∧ w' = { w with recvs := rest } := by
  rw [recv, bind_eq_ok_iff] at h
  obtain ⟨b, v, hask, h⟩ := h
  obtain ⟨rest, hw, rfl⟩ := ask_eq_ok_iff.1 hask
  cases h
  exact ⟨b, rest, hw, rfl, rfl⟩

theorem forward_recv (len : ℕ) : Forward (recv len) := by
  intro w a w' h
  obtain ⟨b, rest, hw, -, rfl⟩ := recv_eq_ok h
  exact { Calls.Later.refl w with recvs := hw ▸ List.suffix_cons _ _ }

theorem forward_openFile (fs : FileSystem) (path : List UInt8) : Forward (openFile fs path) := by
  have hask : Forward (ask Calls.opens fun rest w ↦ { w with opens := rest } : Http _) := by
    intro w a w' h
    obtain ⟨rest, hw, rfl⟩ := ask_eq_ok_iff.1 h
    exact { Calls.Later.refl w with opens := hw ▸ List.suffix_cons _ _ }
  unfold openFile
  split
  · exact forward_pure _
  · exact forward_pure _
  · refine hask.bind fun a w fd w' h ↦ ?_
    cases a with
    | none => exact forward_pure _ h
    | some fd' =>
      cases h
      exact { Calls.Later.refl w with }

theorem safe_openFile (fs : FileSystem) (path : List UInt8) : Safe (openFile fs path) := by
  unfold openFile
  split
  · exact safe_pure _
  · exact safe_pure _
  · refine (safe_ask _ _).bind fun a ↦ ?_
    cases a with
    | none => exact safe_pure _
    | some fd => exact fun _ _ ↦ nofun

/-- A stream just made is not at its end. -/
theorem fdopen_eq_ok {w w' : Calls} {stream : Option FileStream} (h : fdopen w = .ok (stream, w')) :
    (∃ opened, w.fdopens = opened :: w'.fdopens) ∧ feof stream ≠ .ok true := by
  rw [fdopen, bind_eq_ok_iff] at h
  obtain ⟨opened, v, hask, h⟩ := h
  obtain ⟨rest, hw, rfl⟩ := ask_eq_ok_iff.1 hask
  cases h
  refine ⟨⟨opened, hw⟩, ?_⟩
  cases opened <;> nofun

/-! ### What the kernel will answer -/

/-- The answers of the kernel, without end. -/
structure Environment where
  reads : ℕ → ReadAnswer
  recvs : ℕ → RecvAnswer
  sends : ℕ → SendAnswer
  opens : ℕ → Option ℤ
  fdopens : ℕ → Bool

/-- The first answers of a sequence. -/
def firstOf {α : Type} (f : ℕ → α) (k : ℕ) : List α := (List.range k).map f

theorem firstOf_succ {α : Type} (f : ℕ → α) (k : ℕ) :
    firstOf f (k + 1) = firstOf f k ++ [f k] := by
  rw [firstOf, List.range_succ, List.map_append]
  rfl

theorem firstOf_mono {α : Type} (f : ℕ → α) {k m : ℕ} (h : k ≤ m) :
    firstOf f k <+: firstOf f m := by
  obtain ⟨d, rfl⟩ := Nat.exists_eq_add_of_le h
  rw [firstOf, firstOf, List.range_add, List.map_append]
  exact List.prefix_append _ _

namespace Environment

/-- The first answers of each kind, for a process with the open descriptors `fds`. -/
def first (e : Environment) (fds : List ℤ) (k : ℕ) : Calls where
  reads := firstOf e.reads k
  recvs := firstOf e.recvs k
  sends := firstOf e.sends k
  opens := firstOf e.opens k
  fdopens := firstOf e.fdopens k
  accepted := []
  handed := []
  fds := fds

/-- The code returns, having asked for no more than finitely many answers. -/
def Returns (e : Environment) (fds : List ℤ) {α : Type} (m : Http α) : Prop :=
  ∃ k a w', m (e.first fds k) = .ok (a, w')

end Environment

end PreforkHttpd
