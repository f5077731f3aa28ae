import PreforkHttpd.Http.AcceptRequest
import PreforkHttpd.Http.Pages

/-!
# Answering a request

`http_module_handler_response` answers with one of the pages, or, for a request that found its file,
with the head of `response_ok` and then with the transfer of the file:

    while (!feof(fdopen(fd, "rw"))) { receive a chunk; send the chunk; }

Both steps are repeated while they return `-1`. Nothing in this loop can end it.

* `feof` is asked of a stream that `fdopen` has just made, and the end-of-file indicator of a new
  stream is clear. The loop goes round again whatever the transfer has seen (`transfer_ne_ok`).
* The chunk is received with `recv`, which fails on a file. `http_rcv` returns `-1` for that, and
  the loop around it calls again (`receive_pending`).
* A chunk received from a socket would be lost as well: `http_rcv` keeps the result of the
  comparison `recv(…) < 0` and not the number of bytes, takes every success for an end of stream,
  and returns zero.

So no file is ever served (`not_servesFile`), and for a file that is there the call hangs in its
receive loop (`handlerResponse_pending`).
-/

open Answered

namespace PreforkHttpd

variable {n : ℕ}

/-! ### Receiving -/

/-- Where `http_rcv` is: `cur_ptr` is `cur` bytes into the buffer, and `nleft` bytes are to go. -/
structure Receiving (n : ℕ) where
  cur : ℕ
  nleft : ℕ
  buf : CArray n

/-- What `recv` stores. -/
def Receiving.store (s : Receiving n) : RecvAnswer → Checked Fault (Receiving n)
  | .received data => do
    let buf ← s.buf.storeAll (Fault.index .chunk) s.cur data
    pure { s with buf := buf }
  | .err _ => pure s

/-- `nread`, assigned by `nread = recv(…) < 0`. -/
def RecvAnswer.nread : RecvAnswer → ℕ
  | .received _ => 0
  | .err _ => 1

/-- What `http_rcv` does after a `recv`: go on, or return. -/
def Receiving.after (s : Receiving n) : RecvAnswer → Receiving n ⊕ ℤ × CArray n
  | .err e => if e = .eintr then .inl s else .inr (-1, s.buf)
  | .received data =>
    -- the `else if (nread == 0) break;` of the source, which every success meets
    let nread := (RecvAnswer.received data).nread
    if nread = 0 then .inr (s.cur, s.buf)
    else .inl { s with cur := s.cur + nread, nleft := s.nleft - nread }

/-- The round of the `while (nleft > 0)` of `http_rcv`. -/
def rcvRound (s : Receiving n) : Http (Receiving n ⊕ ℤ × CArray n) :=
  if s.nleft = 0 then pure (.inr (s.cur, s.buf))
  else do
    let a ← recv s.nleft
    let s ← s.store a
    pure (s.after a)

theorem rcvRound_of_pos {s : Receiving n} (h : 0 < s.nleft) :
    rcvRound s = (do
      let a ← recv s.nleft
      let s ← s.store a
      pure (s.after a)) :=
  if_neg h.ne'

theorem rcvRound_of_zero {s : Receiving n} (h : s.nleft = 0) :
    rcvRound s = pure (.inr (s.cur, s.buf)) :=
  if_pos h

/-- A round with something to receive takes an answer. -/
theorem recvs_of_rcvRound {s : Receiving n} {w w' : Calls} {x : Receiving n ⊕ ℤ × CArray n}
    (hs : 0 < s.nleft) (h : rcvRound s w = .ok (x, w')) : w'.recvs.length < w.recvs.length := by
  rw [rcvRound_of_pos hs, bind_eq_ok_iff] at h
  obtain ⟨a, v, hrecv, h⟩ := h
  obtain ⟨b, rest, hw, -, rfl⟩ := recv_eq_ok hrecv
  rw [bind_eq_ok_iff] at h
  obtain ⟨s', v, hstore, h⟩ := h
  obtain ⟨-, rfl⟩ := lift_eq_ok_iff.1 hstore
  cases h
  exact hw ▸ Nat.lt_succ_self _

/-- The `while (nleft > 0)` of `http_rcv`. -/
def rcvLoop : Round (fun w : Calls ↦ w.recvs.length) Fault (Receiving n) (ℤ × CArray n) where
  run := rcvRound
  size_lt {s w s' w'} h := by
    rcases Nat.eq_zero_or_pos s.nleft with hs | hs
    · rw [rcvRound_of_zero hs] at h
      cases h
    · exact recvs_of_rcvRound hs h

/-- `http_rcv(fd, buf, len)`: its result and the buffer. -/
def httpRcv (buf : CArray n) (len : ℕ) : Http (ℤ × CArray n) := rcvLoop.loop ⟨0, len, buf⟩

theorem forward_rcvRound (s : Receiving n) : Forward (rcvRound s) :=
  Forward.ite (forward_pure _) ((forward_recv _).bind fun _ ↦
    (forward_lift _).bind fun _ ↦ forward_pure _)

theorem forward_httpRcv (buf : CArray n) (len : ℕ) : Forward (httpRcv buf len) :=
  rcvLoop.forward_loop forward_rcvRound _

/-- A call with something to receive takes an answer. -/
theorem recvs_of_httpRcv {buf : CArray n} {len : ℕ} {w w' : Calls} {r : ℤ × CArray n}
    (hlen : 0 < len) (h : httpRcv buf len w = .ok (r, w')) :
    w'.recvs.length < w.recvs.length :=
  rcvLoop.size_lt_of_loop (fun h ↦ (Calls.Later.recvs h).length_le) forward_rcvRound
    (recvs_of_rcvRound hlen) h

/-! ### The transfer -/

/-- `while (read_cnt = http_rcv(fd, buf, BUFFSIZE) == -1) continue;` -/
def receive : Round (fun w : Calls ↦ w.recvs.length) Fault (CArray buffSize) (CArray buffSize) where
  run buf := do
    let r ← httpRcv buf buffSize
    pure (if r.1 = -1 then .inl r.2 else .inr r.2)
  size_lt {s w s' w'} h := by
    rw [bind_eq_ok_iff] at h
    obtain ⟨r, v, hrcv, h⟩ := h
    have hlt := recvs_of_httpRcv (by decide) hrcv
    obtain ⟨-, rfl⟩ := Prod.mk.inj (Except.ok.inj h)
    exact hlt

/-- `while ((write_cnt = http_send(clientfd, buf, BUFFSIZE)) == -1) continue;` -/
def sendChunk (buf : CArray buffSize) : Round (fun w : Calls ↦ w.sends.length) Fault Unit Unit where
  run _ := do
    let r ← httpSend buf.bytes buffSize
    pure (if r = -1 then .inl () else .inr ())
  size_lt {s w s' w'} h := by
    rw [bind_eq_ok_iff] at h
    obtain ⟨r, v, hsend, h⟩ := h
    have hlt := sends_of_httpSend (by decide) hsend
    obtain ⟨-, rfl⟩ := Prod.mk.inj (Except.ok.inj h)
    exact hlt

/-- One chunk: received into the buffer, and sent from there. -/
def carryChunk (buf : CArray buffSize) : Http (CArray buffSize) := do
  let buf ← receive.loop buf
  (sendChunk buf).loop ()
  pure buf

theorem forward_carryChunk (buf : CArray buffSize) : Forward (carryChunk buf) := by
  have hreceive : Forward (receive.loop buf) :=
    receive.forward_loop (fun b ↦ (forward_httpRcv b _).bind fun _ ↦ forward_pure _) buf
  have hsend : ∀ b : CArray buffSize, Forward ((sendChunk b).loop ()) := fun b ↦
    (sendChunk b).forward_loop (fun _ ↦ (forward_httpSend _ _).bind fun _ ↦ forward_pure _) ()
  exact hreceive.bind fun b ↦ (hsend b).bind fun _ ↦ forward_pure _

/-- The round of `while (!feof(fdopen(fd, "rw")))`. -/
def transferRound (buf : CArray buffSize) : Http (CArray buffSize ⊕ Unit) := do
  let stream ← fdopen
  let done ← feof stream
  if done then pure (.inr ())
  else do
    let buf ← carryChunk buf
    pure (.inl buf)

/-- A round that ends goes round again, and has made a stream. -/
theorem transferRound_eq_ok {buf : CArray buffSize} {w w' : Calls} {x : CArray buffSize ⊕ Unit}
    (h : transferRound buf w = .ok (x, w')) :
    (∃ buf', x = .inl buf') ∧ w'.fdopens.length < w.fdopens.length := by
  rw [transferRound, bind_eq_ok_iff] at h
  obtain ⟨stream, v, hopen, h⟩ := h
  obtain ⟨⟨opened, hv⟩, hfeof⟩ := fdopen_eq_ok hopen
  rw [bind_eq_ok_iff] at h
  obtain ⟨done, v, hlift, h⟩ := h
  obtain ⟨hdone, rfl⟩ := lift_eq_ok_iff.1 hlift
  obtain rfl : done = false := Bool.eq_false_iff.2 fun htrue ↦ hfeof (htrue ▸ hdone)
  rw [if_neg Bool.false_ne_true, bind_eq_ok_iff] at h
  obtain ⟨buf', v, hcarry, h⟩ := h
  cases h
  refine ⟨⟨buf', rfl⟩, ?_⟩
  rw [hv]
  exact Nat.lt_succ_of_le (forward_carryChunk buf hcarry).fdopens.length_le

/-- The transfer of a file. -/
def transfer : Round (fun w : Calls ↦ w.fdopens.length) Fault (CArray buffSize) Unit where
  run := transferRound
  size_lt h := (transferRound_eq_ok h).2

/-! ### The response -/

/-- `if (filename != NULL) fd = open(filename, O_RDWR);` -/
def openNamed (fs : FileSystem) (fd : ℤ) : Option (List UInt8) → Http ℤ
  | some path => openFile fs path
  | none => pure fd

theorem forward_openNamed (fs : FileSystem) (fd : ℤ) :
    ∀ filename, Forward (openNamed fs fd filename)
  | some path => forward_openFile fs path
  | none => forward_pure fd

theorem safe_openNamed (fs : FileSystem) (fd : ℤ) : ∀ filename, Safe (openNamed fs fd filename)
  | some path => safe_openFile fs path
  | none => safe_pure fd

/-- What `http_module_handler_response` does for a value of `flag`, up to its two `close`s: the
value is that of the local `fd`. -/
def respond (fs : FileSystem) (filename : Option (List UInt8)) (flag fd : ℤ)
    (page : CArray buffSize) : Http ℤ :=
  if flag = httpSuccess then do
    let fd ← openNamed fs fd filename
    responseOk page
    transfer.loop (CArray.fill _ 0)
    pure fd
  -- no file is opened below: `fd` is still what the call found there
  else if flag = httpErrorNotFind then do
    unknow page
    pure fd
  else if flag = httpErrorMethod then do
    errorMethod page
    pure fd
  else if flag = httpErrorRequest then do
    wrongPath page
    pure fd
  else pure fd

/-- `http_module_handler_response(filename, clientfd, flag)`. The local `fd` is not initialised: its
value when the call begins is `fd`. What the page functions find in their local buffer is `page`. -/
def handlerResponse (fs : FileSystem) (filename : Option (List UInt8)) (clientfd flag fd : ℤ)
    (page : CArray buffSize) : Http Unit := do
  let fd ← respond fs filename flag fd page
  close fd
  close clientfd

/-! ### No file is served -/

variable {fs : FileSystem} {filename : Option (List UInt8)} {clientfd fd : ℤ}
  {page buf : CArray buffSize} {w w' : Calls}

/-- **The transfer does not end.** -/
theorem transfer_ne_ok : transfer.loop buf w ≠ .ok ((), w') := by
  intro h
  refine transfer.loop_rule (fun _ _ ↦ True) (fun _ _ ↦ False) (fun _ _ ↦ trivial) ?_ trivial h
  intro s v b v' _ hrun
  obtain ⟨⟨buf', hinl⟩, -⟩ := transferRound_eq_ok hrun
  cases hinl

/-- A response of success does not return. -/
theorem handlerResponse_ne_ok :
    handlerResponse fs filename clientfd httpSuccess fd page w ≠ .ok ((), w') := by
  intro h
  rw [handlerResponse, bind_eq_ok_iff] at h
  obtain ⟨fd', v, h, -⟩ := h
  rw [respond, if_pos rfl, bind_eq_ok_iff] at h
  obtain ⟨fd'', v', -, h⟩ := h
  rw [bind_eq_ok_iff] at h
  obtain ⟨_, v'', -, h⟩ := h
  rw [bind_eq_ok_iff] at h
  obtain ⟨_, v''', htransfer, -⟩ := h
  exact transfer_ne_ok htransfer

/-- `http_rcv` returns `-1` for what is not a socket. -/
theorem httpRcv_of_enotsock {rest : List RecvAnswer} (buf : CArray buffSize)
    (h : w.recvs = .err .enotsock :: rest) :
    httpRcv buf buffSize w = .ok ((-1, buf), { w with recvs := rest }) := by
  have hrecv : recv buffSize w = .ok (.err .enotsock, { w with recvs := rest }) := by
    rw [recv, bind_of_ok (ask_of_cons h)]
    rfl
  refine rcvLoop.loop_of_inr ?_
  show rcvRound (⟨0, buffSize, buf⟩ : Receiving buffSize) w = _
  rw [rcvRound_of_pos (by decide : 0 < buffSize), bind_of_ok hrecv]
  rfl

/-- **The receive loop hangs on a file**, whatever comes before: a failure that does not go away is
asked for again and again. -/
theorem receive_pending (buf : CArray buffSize) (h : ∀ a ∈ w.recvs, a = .err .enotsock) :
    receive.loop buf w = .error .pending := by
  refine receive.loop_pending (fun _ v ↦ ∀ a ∈ v.recvs, a = .err .enotsock) ?_ h
  intro s v hv
  match hrecvs : v.recvs with
  | [] =>
    refine Or.inl (bind_of_error (rcvLoop.loop_of_error ?_))
    show rcvRound (⟨0, buffSize, s⟩ : Receiving buffSize) v = _
    rw [rcvRound_of_pos (by decide : 0 < buffSize)]
    exact bind_of_error (bind_of_error (ask_of_nil hrecvs))
  | a :: rest =>
    rw [hrecvs] at hv
    obtain rfl := hv a List.mem_cons_self
    refine Or.inr ⟨s, { v with recvs := rest }, bind_of_ok (httpRcv_of_enotsock s hrecvs), ?_⟩
    exact fun b hb ↦ hv b (List.mem_cons_of_mem _ hb)

/-- So does the transfer of a file, in its first round. -/
theorem transfer_pending (buf : CArray buffSize) (h : ∀ a ∈ w.recvs, a = .err .enotsock)
    (hopen : ∀ opened ∈ w.fdopens, opened = true) : transfer.loop buf w = .error .pending := by
  refine transfer.loop_of_error ?_
  show transferRound buf w = _
  rw [transferRound]
  match hw : w.fdopens with
  | [] => exact bind_of_error (bind_of_error (ask_of_nil hw))
  | opened :: rest =>
    obtain rfl := hopen opened (hw ▸ List.mem_cons_self)
    have hstream : fdopen w = .ok (some ⟨false⟩, { w with fdopens := rest }) := by
      rw [fdopen, bind_of_ok (ask_of_cons hw)]
      rfl
    have hfeof : feof (some ⟨false⟩) = .ok false := rfl
    rw [bind_of_ok hstream, bind_of_ok (lift_of_ok hfeof _), if_neg Bool.false_ne_true]
    exact bind_of_error (bind_of_error (receive_pending buf h))

/-- **A file is not served but waited for**: whatever the kernel answers, as long as the file is not
a socket and streams can be made of it, the call with success hangs. -/
theorem handlerResponse_pending (h : ∀ a ∈ w.recvs, a = .err .enotsock)
    (hopen : ∀ opened ∈ w.fdopens, opened = true) :
    handlerResponse fs filename clientfd httpSuccess fd page w = .error .pending := by
  rw [handlerResponse]
  refine bind_of_error ?_
  rw [respond, if_pos rfl]
  obtain hname | ⟨fd', v, hname⟩ := (safe_openNamed fs fd filename).eq_pending_or_ok w
  · exact bind_of_error hname
  · rw [bind_of_ok hname]
    have hv := forward_openNamed fs fd filename hname
    obtain hhead | ⟨u, v', hhead⟩ := (safe_responseOk page).eq_pending_or_ok v
    · exact bind_of_error hhead
    · rw [bind_of_ok hhead]
      have hv' := hv.trans (forward_responseOk page hhead)
      -- what is left of the answers is among them
      exact bind_of_error (transfer_pending _
        (fun a ha ↦ h a ((Calls.Later.recvs hv').subset ha))
        (fun b hb ↦ hopen b ((Calls.Later.fdopens hv').subset hb)))

/-- The file is served: the call returns, and the client has got the head and the content. -/
def ServesFile (fs : FileSystem) (path content : List UInt8) (clientfd fd : ℤ)
    (page : CArray buffSize) (e : Environment) (fds : List ℤ) : Prop :=
  ∃ k w', handlerResponse fs (some path) clientfd httpSuccess fd page (e.first fds k) =
      .ok ((), w') ∧
    w'.accepted = responseOkPieces.flatten ++ content

/-- **No file is served**, whatever is in it and whatever the kernel answers. -/
theorem not_servesFile (fs : FileSystem) (path content : List UInt8) (clientfd fd : ℤ)
    (page : CArray buffSize) (e : Environment) (fds : List ℤ) :
    ¬ ServesFile fs path content clientfd fd page e fds := by
  rintro ⟨k, w', hok, -⟩
  exact handlerResponse_ne_ok hok

/-- The kernel of a server that sends a regular file to a client that takes everything: the file can
be opened, it is not a socket, and every `send` is complete. -/
def wholeSends : Environment where
  reads := fun _ ↦ .eof
  recvs := fun _ ↦ .err .enotsock
  sends := fun _ ↦ .sent 1024
  opens := fun _ ↦ some 5
  fdopens := fun _ ↦ true

/-- Every path names a file of five bytes. -/
def helloFile : FileSystem := fun _ ↦ some (.regular (ascii "hello"))

/-- A file of five bytes is not served to a client that takes everything: however many answers the
kernel has given, the call is waiting for the next. -/
theorem not_servesFile_hello :
    helloFile (ascii "/a") = some (.regular (ascii "hello")) ∧
      (∀ k, handlerResponse helloFile (some (ascii "/a")) 4 httpSuccess 0 (CArray.fill _ 0)
        (wholeSends.first [4] k) = .error .pending) ∧
      ¬ ServesFile helloFile (ascii "/a") (ascii "hello") 4 0 (CArray.fill _ 0) wholeSends [4] := by
  have hpending : ∀ k, handlerResponse helloFile (some (ascii "/a")) 4 httpSuccess 0
      (CArray.fill _ 0) (wholeSends.first [4] k) = .error .pending := by
    intro k
    refine handlerResponse_pending (fun a ha ↦ ?_) (fun b hb ↦ ?_)
    · obtain ⟨i, -, rfl⟩ := List.mem_map.1 ha
      rfl
    · obtain ⟨i, -, rfl⟩ := List.mem_map.1 hb
      rfl
  refine ⟨rfl, hpending, ?_⟩
  rintro ⟨k, w', hok, -⟩
  rw [hpending k] at hok
  cases hok

end PreforkHttpd
