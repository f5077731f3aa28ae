import Mathlib.Data.List.Forall2
import Mathlib.Logic.Function.Basic
import PreforkHttpd.Transition.PartialRun
import PreforkHttpd.Io.MarkedStream

/-!
# Passing descriptors over a socketpair

`Sock_fd_write` and `Sock_fd_read` of `inc/sock.h`: the one builds a control header for the
descriptor it passes, the other checks a control header for the descriptor it takes, and neither
knows of the other. Here they meet on one socketpair, whose writing end is written to and whose
reading end is read from by any number of processes, in any order, each with a table of its own.

A descriptor number means nothing outside its process. What is passed is the **file** that the
number denotes: the kernel looks the number up in the table of the sender, carries the file, and
gives it a new number in the table of whoever receives it. All other fields of the control header
are delivered as they were sent. Where no control message is delivered the receiver's header keeps
what its stack held (`cmsgu`), and only `msg_controllen` tells.

The state keeps the writes and the reads in the order in which they were made. `roundTrip` says that
the writes are those that were called for, and compares the two lists; it rests on `Aligned`, by
which the stream is at every moment the messages that have been written and not yet read, each in
one piece.
-/

open LabelledRun MarkedStream

namespace PreforkHttpd.FdPassing

/-- What a descriptor can denote: an open file, a socket. -/
abbrev File := ℕ

/-- The descriptor table of a process: the file that a number denotes, `none` if it is not open. -/
abbrev Files := ℤ → Option File

/-! ### Control messages -/

abbrev solSocket : ℤ := 1

abbrev scmRights : ℤ := 1

/-- `sizeof(int)`. -/
abbrev sizeofInt : ℕ := 4

/-- `sizeof(struct cmsghdr)`. -/
abbrev sizeofCmsghdr : ℕ := 16

/-- `CMSG_LEN(len)`: the header and the data. -/
def cmsgLen (len : ℕ) : ℕ := sizeofCmsghdr + len

/-- `CMSG_SPACE(len)`: the header and the data, padded to the size of a word. -/
def cmsgSpace (len : ℕ) : ℕ := sizeofCmsghdr + (len + 7) / 8 * 8

/-- The control buffer `cmsgu` of the two functions: `struct cmsghdr`, and the `int` at
`CMSG_DATA`. -/
structure Cmsgu where
  len : ℕ
  level : ℤ
  type : ℤ
  data : ℤ
deriving DecidableEq

/-- `struct msghdr`, without the name, which is `NULL`: `iov` is the one buffer it points to, and
`control` what `msg_control` points to, if it is not `NULL`. -/
structure Msghdr where
  iov : List UInt8
  control : Option Cmsgu
  controllen : ℕ
deriving DecidableEq

/-- `CMSG_FIRSTHDR`. -/
def Msghdr.firsthdr (msg : Msghdr) : Option Cmsgu :=
  if sizeofCmsghdr ≤ msg.controllen then msg.control else none

/-- A control message under way, with the file in the place of the number. -/
structure Rights where
  len : ℕ
  level : ℤ
  type : ℤ
  file : File
deriving DecidableEq

/-- What is under way on the socketpair. -/
abbrev Pair := List (Piece UInt8 Rights)

/-- `sendmsg` by a process with the table `files`: the value returned, and the socketpair after it.
It fails (`EBADF`) when the descriptor to be passed is not open. -/
def sendmsg (files : Files) (pair : Pair) (msg : Msghdr) : ℤ × Pair :=
  match msg.firsthdr with
  | none => (msg.iov.length, push pair ⟨msg.iov, none⟩)
  | some cmsg =>
    match files cmsg.data with
    | none => (-1, pair)
    | some file =>
      (msg.iov.length, push pair ⟨msg.iov, some ⟨cmsg.len, cmsg.level, cmsg.type, file⟩⟩)

/-- What `recvmsg` comes to: the value returned, the message header as it is filled in, and the
table and the socketpair after it. -/
structure RecvResult where
  size : ℤ
  msg : Msghdr
  files : Files
  pair : Pair

/-- `recvmsg` by a process with the table `files`, in which a file that is received gets the number
`newfd`. A control message that does not fit its buffer is discarded. -/
def recvmsg (files : Files) (pair : Pair) (msg : Msghdr) (newfd : ℤ) : RecvResult :=
  let r := pull pair msg.iov.length
  let iov := r.bytes ++ msg.iov.drop r.bytes.length
  match r.mark with
  | none => ⟨r.bytes.length, { msg with iov := iov, controllen := 0 }, files, r.left⟩
  | some rights =>
    if rights.len ≤ msg.controllen then
      let cmsg : Cmsgu := ⟨rights.len, rights.level, rights.type, newfd⟩
      let controllen := min msg.controllen (cmsgSpace (rights.len - sizeofCmsghdr))
      ⟨r.bytes.length, ⟨iov, some cmsg, controllen⟩,
        Function.update files newfd (some rights.file), r.left⟩
    else ⟨r.bytes.length, { msg with iov := iov, controllen := 0 }, files, r.left⟩

/-! ### The two functions -/

/-- `Sock_fd_write(sock, buf, buflen, fd)`, where `buf` is the `buflen` bytes. -/
def sockFdWrite (files : Files) (pair : Pair) (buf : List UInt8) (fd : ℤ) : ℤ × Pair :=
  let msg : Msghdr :=
    if fd ≠ -1 then
      { iov := buf
        control := some ⟨cmsgLen sizeofInt, solSocket, scmRights, fd⟩
        controllen := cmsgSpace sizeofInt }
    else { iov := buf, control := none, controllen := 0 }
  sendmsg files pair msg

/-- What a call of `Sock_fd_read` that returns comes to: the value returned, the buffer and `*fd`
after it, and the table and the socketpair. -/
structure ReadResult where
  size : ℤ
  buf : List UInt8
  fd : Option ℤ
  files : Files
  pair : Pair

/-- `Sock_fd_read(sock, buf, bufsize, fd)`, where `buf` is the `bufsize` bytes and `fd` what the
pointer points to, if it is not `NULL`; `cmsgu` is what the control buffer happens to hold. The
kernel's answer is `none` when the system call fails. The function does not return (`none`) where
it exits. -/
def sockFdRead (files : Files) (pair : Pair) (buf : List UInt8) (fd : Option ℤ) (cmsgu : Cmsgu)
    (answer : Option ℤ) : Option ReadResult :=
  match answer, fd with
  | none, _ => none
  | some newfd, some _ =>
    let r := recvmsg files pair ⟨buf, some cmsgu, cmsgSpace sizeofInt⟩ newfd
    match r.msg.firsthdr with
    | none => some ⟨r.size, r.msg.iov, some (-1), r.files, r.pair⟩
    | some cmsg =>
      if cmsg.len = cmsgLen sizeofInt then
        if cmsg.level ≠ solSocket then none
        else if cmsg.type ≠ scmRights then none
        else some ⟨r.size, r.msg.iov, some cmsg.data, r.files, r.pair⟩
      else some ⟨r.size, r.msg.iov, some (-1), r.files, r.pair⟩
  | some _, none =>
    -- `read`, which has no place for a control message
    let r := pull pair buf.length
    some ⟨r.bytes.length, r.bytes ++ buf.drop r.bytes.length, none, files, r.left⟩

/-! ### Processes on one socketpair -/

/-- A write that has returned: its value, what was passed, and the file it denoted there. -/
structure Written where
  size : ℤ
  buf : List UInt8
  fd : ℤ
  file : Option File
deriving DecidableEq

/-- A read that has returned, with the file that `*fd` denotes where it was read. -/
structure Read where
  size : ℤ
  buf : List UInt8
  fd : Option ℤ
  file : Option File
deriving DecidableEq

/-- Processes with a socketpair between them, the processes that have left by `exit(1)`, and the
writes and reads in their order. -/
structure Channel (P : Type*) where
  files : P → Files
  pair : Pair
  exited : List P
  written : List Written
  reads : List Read

/-- What the caller of `Sock_fd_write` passed. -/
def Written.payload (w : Written) : List UInt8 × ℤ := (w.buf, w.fd)

/-- What can happen: a process writes, or reads, or its table changes for another reason. A write
carries whether its system call succeeded. -/
inductive Act (P : Type*)
  | write (p : P) (buf : List UInt8) (fd : ℤ) (sent : Bool)
  | read (p : P) (buf : List UInt8) (fd : Option ℤ) (cmsgu : Cmsgu) (answer : Option ℤ)
  | retable (p : P) (files : Files)

@[inherit_doc Written.payload] def Act.payload {P : Type*} : Act P → Option (List UInt8 × ℤ)
  | .write _ buf fd _ => some (buf, fd)
  | .read .. | .retable .. => none

namespace Channel

variable {P : Type*} [DecidableEq P]

/-- No message has been written yet. -/
def start (files : P → Files) : Channel P where
  files := files
  pair := []
  exited := []
  written := []
  reads := []

/-- An action that can be taken now. A read waits for a message, and a file that is received gets a
number that is free. -/
def Enabled (s : Channel P) : Act P → Prop
  | .write p _ _ _ => p ∉ s.exited
  | .read p _ _ _ none => p ∉ s.exited
  | .read p _ _ _ (some newfd) =>
    p ∉ s.exited ∧ s.pair.isEmpty = false ∧ 0 ≤ newfd ∧ s.files p newfd = none
  | .retable p _ => p ∉ s.exited

instance (s : Channel P) : (a : Act P) → Decidable (s.Enabled a)
  | .write p _ _ _ => inferInstanceAs (Decidable (p ∉ s.exited))
  | .read p _ _ _ none => inferInstanceAs (Decidable (p ∉ s.exited))
  | .read p _ _ _ (some newfd) =>
    inferInstanceAs (Decidable
      (p ∉ s.exited ∧ s.pair.isEmpty = false ∧ 0 ≤ newfd ∧ s.files p newfd = none))
  | .retable p _ => inferInstanceAs (Decidable (p ∉ s.exited))

def perform (s : Channel P) : Act P → Channel P
  | .write p buf fd sent =>
    let r := if sent then sockFdWrite (s.files p) s.pair buf fd else (-1, s.pair)
    let file := if fd = -1 then none else s.files p fd
    { s with pair := r.2, written := s.written ++ [⟨r.1, buf, fd, file⟩] }
  | .read p buf fd cmsgu answer =>
    match sockFdRead (s.files p) s.pair buf fd cmsgu answer with
    | none => { s with exited := p :: s.exited }
    | some r =>
      { s with
        files := Function.update s.files p r.files
        pair := r.pair
        reads := s.reads ++ [⟨r.size, r.buf, r.fd, r.fd.bind r.files⟩] }
  | .retable p files => { s with files := Function.update s.files p files }

def step (s : Channel P) (a : Act P) : Option (Channel P) :=
  if s.Enabled a then some (s.perform a) else none

/-- A call as it is made by the two loops, with messages of `n` bytes: the system call succeeds, the
descriptor written is `-1` or open, and the reader wants the descriptor. -/
def Proper (n : ℕ) (s : Channel P) : Act P → Prop
  | .write p buf fd sent => buf.length = n ∧ (fd = -1 ∨ s.files p fd ≠ none) ∧ sent = true
  | .read _ buf fd _ answer => buf.length = n ∧ fd ≠ none ∧ answer ≠ none
  | .retable _ _ => True

instance (n : ℕ) (s : Channel P) : (a : Act P) → Decidable (Proper n s a)
  | .write p buf fd sent =>
    inferInstanceAs (Decidable (buf.length = n ∧ (fd = -1 ∨ s.files p fd ≠ none) ∧ sent = true))
  | .read _ buf fd _ answer =>
    inferInstanceAs (Decidable (buf.length = n ∧ fd ≠ none ∧ answer ≠ none))
  | .retable _ _ => instDecidableTrue

end Channel

/-! ### The two functions against each other -/

/-- The message that a write puts on the socketpair. -/
def Written.piece (w : Written) : Piece UInt8 Rights where
  bytes := w.buf
  mark := w.file.map fun file ↦ ⟨cmsgLen sizeofInt, solSocket, scmRights, file⟩

/-- A write of `n` bytes that returned `n`, with the file of the descriptor, or with none for
`-1`. -/
structure Written.Whole (n : ℕ) (w : Written) : Prop where
  size_eq : w.size = n
  length_eq : w.buf.length = n
  file_eq_none_iff : w.file = none ↔ w.fd = -1

/-- A read agrees with a write: it returns the number of bytes and leaves them in the buffer, and
`*fd` denotes the file of the descriptor that was written, or is `-1` as that one was. -/
structure Read.Agrees (n : ℕ) (r : Read) (w : Written) : Prop where
  size_eq : r.size = n
  buf_eq : r.buf = w.buf
  fd_ne_none : r.fd ≠ none
  fd_iff : r.fd = some (-1) ↔ w.fd = -1
  denotes : w.fd ≠ -1 → w.file ≠ none ∧ r.file = w.file

variable {n : ℕ} {files : Files} {pair : Pair} {buf : List UInt8} {fd newfd : ℤ} {cmsgu : Cmsgu}

/-- **Spec of `Sock_fd_write`.** With `-1` or a descriptor that is open, it puts one message on the
socketpair. -/
theorem sockFdWrite_eq (hbuf : buf ≠ []) (hfd : fd = -1 ∨ files fd ≠ none) :
    sockFdWrite files pair buf fd = ((buf.length : ℤ),
      pair ++ [Written.piece ⟨buf.length, buf, fd, if fd = -1 then none else files fd⟩]) := by
  by_cases hnone : fd = -1
  · have hsent : push pair ⟨buf, none⟩ = pair ++ [⟨buf, none⟩] := push_of_ne_nil hbuf
    simp [sockFdWrite, hnone, sendmsg, Msghdr.firsthdr, hsent, Written.piece]
  · obtain ⟨file, hfile⟩ := Option.ne_none_iff_exists'.1 (hfd.resolve_left hnone)
    have hsent (mark : Option Rights) : push pair ⟨buf, mark⟩ = pair ++ [⟨buf, mark⟩] :=
      push_of_ne_nil hbuf
    simp [sockFdWrite, hnone, sendmsg, Msghdr.firsthdr, cmsgSpace, hfile, hsent, Written.piece]

/-- A message without a descriptor arrives without a control message. -/
theorem recvmsg_of_file_eq_none {w : Written} {control : Option Cmsgu} {controllen : ℕ}
    (hw : w.Whole n) (hn : 0 < n) (hlength : buf.length = n) (hfile : w.file = none) :
    recvmsg files (w.piece :: pair) ⟨buf, control, controllen⟩ newfd =
      ⟨n, ⟨w.buf, control, 0⟩, files, pair⟩ := by
  have hpull : pull (w.piece :: pair) buf.length = ⟨w.buf, w.piece.mark, pair⟩ :=
    pull_of_length (hw.length_eq.trans hlength.symm) (hlength ▸ hn)
  have hmark : w.piece.mark = none := by rw [Written.piece, hfile, Option.map_none]
  have hdrop : buf.drop n = [] := hlength ▸ List.drop_length
  simp only [recvmsg, hpull, hmark, hw.length_eq, hdrop, List.append_nil]

/-- A message with a descriptor arrives with the header it was given, and a number for its file. -/
theorem recvmsg_of_file_eq_some {w : Written} {control : Option Cmsgu} {file : File}
    (hw : w.Whole n) (hn : 0 < n) (hlength : buf.length = n) (hfile : w.file = some file) :
    recvmsg files (w.piece :: pair) ⟨buf, control, cmsgSpace sizeofInt⟩ newfd =
      ⟨n, ⟨w.buf, some ⟨cmsgLen sizeofInt, solSocket, scmRights, newfd⟩, cmsgSpace sizeofInt⟩,
        Function.update files newfd (some file), pair⟩ := by
  have hpull : pull (w.piece :: pair) buf.length = ⟨w.buf, w.piece.mark, pair⟩ :=
    pull_of_length (hw.length_eq.trans hlength.symm) (hlength ▸ hn)
  have hmark : w.piece.mark = some ⟨cmsgLen sizeofInt, solSocket, scmRights, file⟩ := by
    rw [Written.piece, hfile, Option.map_some]
  have hdrop : buf.drop n = [] := hlength ▸ List.drop_length
  have hfits : cmsgLen sizeofInt ≤ cmsgSpace sizeofInt := by decide
  have hspace : min (cmsgSpace sizeofInt) (cmsgSpace (cmsgLen sizeofInt - sizeofCmsghdr)) =
      cmsgSpace sizeofInt := by decide
  simp only [recvmsg, hpull, hmark, hw.length_eq, hdrop, List.append_nil, if_pos hfits, hspace]

/-- **Spec of `Sock_fd_read`.** With the message of a write in front and a buffer of its size, it
returns, takes that message and nothing else, and agrees with the write. -/
theorem exists_sockFdRead_eq {w : Written} {x : ℤ} (hw : w.Whole n) (hn : 0 < n)
    (hlength : buf.length = n) (hnewfd : 0 ≤ newfd) :
    ∃ r, sockFdRead files (w.piece :: pair) buf (some x) cmsgu (some newfd) = some r ∧
      r.pair = pair ∧ Read.Agrees n ⟨r.size, r.buf, r.fd, r.fd.bind r.files⟩ w := by
  cases hfile : w.file with
  | none =>
    -- the header keeps what the stack held, and `CMSG_FIRSTHDR` does not look at it
    have hwfd : w.fd = -1 := hw.file_eq_none_iff.1 hfile
    refine ⟨⟨n, w.buf, some (-1), files, pair⟩, ?_, rfl, ⟨rfl, rfl, Option.some_ne_none _,
      iff_of_true rfl hwfd, fun h ↦ absurd hwfd h⟩⟩
    simp only [sockFdRead, recvmsg_of_file_eq_none hw hn hlength hfile]
    rfl
  | some file =>
    -- the header passes the three checks
    have hwfd : w.fd ≠ -1 := fun h ↦ Option.some_ne_none file (hfile ▸ hw.file_eq_none_iff.2 h)
    have hnew : newfd ≠ -1 := by omega
    refine ⟨⟨n, w.buf, some newfd, Function.update files newfd (some file), pair⟩, ?_, rfl,
      ⟨rfl, rfl, Option.some_ne_none _, iff_of_false (fun h ↦ hnew (Option.some.inj h)) hwfd,
        fun _ ↦ ⟨hfile ▸ Option.some_ne_none file, ?_⟩⟩⟩
    · simp only [sockFdRead, recvmsg_of_file_eq_some hw hn hlength hfile]
      rfl
    · rw [hfile]
      exact Function.update_self newfd (some file) files

namespace Channel

variable {P : Type*} [DecidableEq P] {s s' t : Channel P} {a : Act P}

/-- The stream is the messages not yet read, each in one piece, and every read so far agrees with
the write in its place. -/
structure Aligned (n : ℕ) (s : Channel P) (done pending : List Written) : Prop where
  exited_eq : s.exited = []
  written_eq : s.written = done ++ pending
  agrees : List.Forall₂ (Read.Agrees n) s.reads done
  pair_eq : s.pair = pending.map Written.piece
  whole : ∀ w ∈ s.written, w.Whole n

omit [DecidableEq P] in
theorem aligned_start (n : ℕ) (files : P → Files) : Aligned n (start files) [] [] :=
  ⟨rfl, rfl, .nil, rfl, List.forall_mem_nil _⟩

/-- **A write** adds its message to those that wait. -/
theorem Aligned.write {done pending : List Written} {p : P} {sent : Bool}
    (hs : Aligned n s done pending) (hn : 0 < n) (hproper : Proper n s (.write p buf fd sent)) :
    ∃ w, Aligned n (s.perform (.write p buf fd sent)) done (pending ++ [w]) := by
  obtain ⟨hlength, hfd, rfl⟩ := hproper
  have hbuf : buf ≠ [] := List.ne_nil_of_length_pos (hlength ▸ hn)
  have hwhole :
      Written.Whole n ⟨buf.length, buf, fd, if fd = -1 then none else s.files p fd⟩ := by
    refine ⟨congrArg _ hlength, hlength, ?_⟩
    by_cases hnone : fd = -1
    · exact iff_of_true (if_pos hnone) hnone
    · exact iff_of_false (fun h ↦ hfd.resolve_left hnone ((if_neg hnone).symm.trans h)) hnone
  refine ⟨⟨buf.length, buf, fd, if fd = -1 then none else s.files p fd⟩, ?_⟩
  simp only [perform, if_true, sockFdWrite_eq hbuf hfd]
  refine ⟨hs.exited_eq, ?_, hs.agrees, ?_, ?_⟩
  · simp only [hs.written_eq, List.append_assoc]
  · simp only [hs.pair_eq, List.map_append, List.map_cons, List.map_nil]
  · exact List.forall_mem_append.2 ⟨hs.whole, List.forall_mem_singleton.2 hwhole⟩

/-- **A read** takes the first message that waits, and agrees with its write. -/
theorem Aligned.read {done pending : List Written} {p : P} {x : ℤ}
    (hs : Aligned n s done pending) (hn : 0 < n) (hlength : buf.length = n)
    (henabled : s.Enabled (.read p buf (some x) cmsgu (some newfd))) :
    ∃ w rest,
      Aligned n (s.perform (.read p buf (some x) cmsgu (some newfd))) (done ++ [w]) rest := by
  obtain ⟨-, hpair, hnewfd, -⟩ := henabled
  cases pending with
  | nil => rw [hs.pair_eq] at hpair; cases hpair
  | cons w rest =>
    have hw : w.Whole n := hs.whole w (hs.written_eq ▸ List.mem_append_right _ List.mem_cons_self)
    obtain ⟨r, hr, hleft, hagrees⟩ : ∃ r,
        sockFdRead (s.files p) s.pair buf (some x) cmsgu (some newfd) = some r ∧
          r.pair = rest.map Written.piece ∧
          Read.Agrees n ⟨r.size, r.buf, r.fd, r.fd.bind r.files⟩ w := by
      rw [hs.pair_eq, List.map_cons]
      exact exists_sockFdRead_eq hw hn hlength hnewfd
    refine ⟨w, rest, ?_⟩
    simp only [perform, hr]
    refine ⟨hs.exited_eq, ?_, ?_, hleft, hs.whole⟩
    · simp only [hs.written_eq, List.append_assoc, List.singleton_append]
    · exact List.rel_append hs.agrees (.cons hagrees .nil)

/-- The stream is aligned, wherever the reads are. -/
def InStep (n : ℕ) (s : Channel P) : Prop := ∃ done pending, Aligned n s done pending

/-- **A call of the loops keeps reads and writes in step.** -/
theorem InStep.step (hn : 0 < n) (hs : InStep n s) (hproper : Proper n s a)
    (h : s.step a = some s') : InStep n s' := by
  obtain ⟨done, pending, hs⟩ := hs
  obtain ⟨henabled, h⟩ := Option.ite_none_right_eq_some.1 h
  obtain rfl := Option.some.inj h
  cases a with
  | write p buf fd sent =>
    obtain ⟨w, hw⟩ := hs.write hn hproper
    exact ⟨_, _, hw⟩
  | read p buf fd cmsgu answer =>
    obtain ⟨hlength, hfd, hanswer⟩ := hproper
    obtain ⟨x, rfl⟩ := Option.ne_none_iff_exists'.1 hfd
    obtain ⟨newfd, rfl⟩ := Option.ne_none_iff_exists'.1 hanswer
    obtain ⟨w, rest, hw⟩ := hs.read hn hlength henabled
    exact ⟨_, _, hw⟩
  | retable p files => exact ⟨done, pending, ⟨hs.exited_eq, hs.written_eq, hs.agrees, hs.pair_eq,
      hs.whole⟩⟩

/-- A read waits exactly while every message has been read. -/
theorem Aligned.isSome_step_read_iff {done pending : List Written} {p : P} {x : Option ℤ}
    (hs : Aligned n s done pending) (hnewfd : 0 ≤ newfd) (hfree : s.files p newfd = none) :
    (s.step (.read p buf x cmsgu (some newfd))).isSome ↔ s.reads.length < s.written.length := by
  have hlength : s.reads.length < s.written.length ↔ pending ≠ [] := by
    rw [hs.written_eq, List.length_append, ← hs.agrees.length_eq, Nat.lt_add_right_iff_pos,
      List.length_pos_iff]
  have hempty : s.pair.isEmpty = false ↔ pending ≠ [] := by
    rw [hs.pair_eq, List.isEmpty_eq_false_iff, ne_eq, List.map_eq_nil_iff]
  have hin : p ∉ s.exited := hs.exited_eq ▸ List.not_mem_nil
  rw [hlength, ← hempty, Channel.step, Option.isSome_ite]
  exact ⟨fun h ↦ h.2.1, fun h ↦ ⟨hin, h, hnewfd, hfree⟩⟩

/-- **Every write is kept**, in its place. -/
theorem payload_of_runFrom {as : List (Act P)} (hrun : runFrom step s as = some t) :
    t.written.map Written.payload = s.written.map Written.payload ++ as.filterMap Act.payload := by
  induction as generalizing s with
  | nil => rw [Option.some.inj hrun, List.filterMap_nil, List.append_nil]
  | cons a as ih =>
    obtain ⟨s', h, hrest⟩ := runFrom_cons_eq_some_iff.1 hrun
    obtain ⟨-, h⟩ := Option.ite_none_right_eq_some.1 h
    obtain rfl := Option.some.inj h
    rw [ih hrest]
    cases a with
    | write p buf fd sent =>
      rw [perform, List.map_append, List.append_assoc]
      rfl
    | read p buf fd cmsgu answer =>
      rw [perform]
      split <;> rfl
    | retable p files => rfl

/-- **Passing a descriptor gives it back.** In every run of writes and reads of `n` bytes, by any
processes in any order, no process has exited; the writes are those that were called for, and each
has returned `n`; the `k`th read agrees with the `k`th write; and a read waits only while every
message has been read. -/
theorem roundTrip {files : P → Files} {as : List (Act P)} (hn : 1 ≤ n)
    (hrun : runFrom step (start files) as = some s)
    (hproper : Along step (Proper n) (start files) as) :
    s.exited = [] ∧
      (s.written.map Written.payload = as.filterMap Act.payload ∧ ∀ w ∈ s.written, w.size = n) ∧
      (∀ (k : ℕ) r, s.reads[k]? = some r → ∃ w, s.written[k]? = some w ∧ Read.Agrees n r w) ∧
      ∀ p buf fd cmsgu newfd, 0 ≤ newfd → s.files p newfd = none →
        ((s.step (.read p buf fd cmsgu (some newfd))).isSome ↔
          s.reads.length < s.written.length) := by
  have hstart : InStep n (start files) := ⟨[], [], aligned_start n files⟩
  obtain ⟨done, pending, hs⟩ : InStep n s :=
    invariant_of_along (fun hs hproper h ↦ hs.step hn hproper h) hrun hproper hstart
  refine ⟨hs.exited_eq, ⟨payload_of_runFrom hrun, fun w hw ↦ (hs.whole w hw).size_eq⟩,
    fun k r hr ↦ ?_, fun p buf fd cmsgu newfd hnewfd hfree ↦
      hs.isSome_step_read_iff hnewfd hfree⟩
  obtain ⟨hk, rfl⟩ := List.getElem?_eq_some_iff.1 hr
  have hdone : k < done.length := hs.agrees.length_eq ▸ hk
  refine ⟨done.get ⟨k, hdone⟩, ?_, hs.agrees.get hk hdone⟩
  rw [hs.written_eq, List.getElem?_append_left hdone, List.getElem?_eq_getElem hdone]
  rfl

/-- The process `0` has the file `40` at `7`. -/
def oneFile : ℕ → Files := fun p fd ↦ if p = 0 ∧ fd = 7 then some 40 else none

/-- The process `0` writes two messages, the first with its descriptor `7` and the second with none;
`1` and `2` read them, `2` first. -/
def twoReaders : List (Act ℕ) :=
  [.write 0 [1, 2] 7 true, .write 0 [3, 4] (-1) true,
    .read 2 [0, 0] (some 0) ⟨20, 1, 1, 9⟩ (some 3), .read 1 [0, 0] (some 0) ⟨20, 5, 6, 9⟩ (some 3)]

/-- The file `40` arrives at the first reader, and nothing at the second. -/
theorem roundTrip_twoReaders :
    ∃ s, runFrom step (start oneFile) twoReaders = some s ∧
      s.reads = [⟨2, [1, 2], some 3, some 40⟩, ⟨2, [3, 4], some (-1), none⟩] ∧
      s.exited = [] ∧
      (s.written.map Written.payload = [([1, 2], 7), ([3, 4], -1)] ∧
        ∀ w ∈ s.written, w.size = 2) ∧
      ∀ (k : ℕ) r, s.reads[k]? = some r → ∃ w, s.written[k]? = some w ∧ Read.Agrees 2 r w := by
  have hrun : runFrom step (start oneFile) twoReaders = some _ := rfl
  have h := roundTrip (n := 2) (by decide) hrun (by decide)
  exact ⟨_, hrun, rfl, h.1, h.2.1, h.2.2.1⟩

end Channel

end PreforkHttpd.FdPassing
