import PreforkHttpd.Http.Disconnect
import PreforkHttpd.Http.PageBytes
import PreforkHttpd.Http.Results

/-!
# What a client gets for its request

`http_module_handler_request` as a whole, from the bytes of a request line to those of the answer.
The line and the file system decide about the page (`RequestWords.refusal`). The page is sent piece
by piece, and each piece takes up some of the kernel's answers: `http_send` asks on, so that only a
failure or a `send` that takes nothing cuts a piece of `unknow` short, whereas a piece of
`error_method` has a single `send`. Nobody looks at what became of a piece, and so the next one
follows all the same.

`SendsPart` is what the two ways of handing over have in common, and `SendsPart.sendPieces` is the
page. The answers that are enough for it are counted without the interruptions.
-/

open Answered Drain

namespace PreforkHttpd

/-! ### One piece -/

/-- How many of the answers are no interruptions. -/
def uninterrupted (sends : List SendAnswer) : ℕ := sends.countP (· ≠ .err .eintr)

theorem SendAnswer.uptake_eq_again_iff {a : SendAnswer} : a.uptake = .again ↔ a = .err .eintr := by
  rcases a with n | e
  · exact iff_of_false (by rw [uptake_sent]; nofun) nofun
  · by_cases he : e = .eintr
    · exact iff_of_true (he ▸ uptake_eintr) (he ▸ rfl)
    · exact iff_of_false (by rw [uptake_err he]; nofun) fun h ↦ he (err.inj h)

theorem uninterrupted_eq (sends : List SendAnswer) :
    uninterrupted sends = sends.countP fun a ↦ a.uptake ≠ .again :=
  List.countP_congr fun _ _ ↦ by
    rw [decide_eq_true_iff, decide_eq_true_iff, Ne, Ne, SendAnswer.uptake_eq_again_iff]

/-- `http_send` asks on: a piece is taken as a whole unless a call fails or takes nothing. -/
def AsksOn (piece : List UInt8) (used : List SendAnswer) : Prop :=
  piece.length ≤ bytesTaken used ↔ ∀ a ∈ used, ¬ a.Fails ∧ a ≠ .sent 0

/-- A single `send`. -/
def AsksOnce (_ : List UInt8) (used : List SendAnswer) : Prop := used.length = 1

/-- The way of handing over sends a part of the piece in the buffer, on as many answers as it asks
for. -/
def SendsPart (asks : List UInt8 → List SendAnswer → Prop)
    (handOver : CArray buffSize → Http Unit) : Prop :=
  ∀ {piece : List UInt8} (page : CArray buffSize) {w : Calls},
    piece ≠ [] ∧ 0 ∉ piece ∧ piece.length < buffSize → piece.length ≤ uninterrupted w.sends →
    ∃ used rest handed, asks piece used ∧ w.sends = used ++ rest ∧
      uninterrupted w.sends ≤ piece.length + uninterrupted rest ∧
      handOver (page.overlay (piece ++ [0])) w = .ok ((), { w with
        sends := rest, accepted := w.accepted ++ piece.take (bytesTaken used), handed := handed })

theorem sendsPart_sendString : SendsPart AsksOn sendString := by
  intro piece page w hpiece henough
  rw [uninterrupted_eq] at henough
  obtain ⟨d, hd⟩ := Option.isSome_iff_exists.1 (isSome_drain henough)
  obtain ⟨used, hused, hexact⟩ := exact_of_drain hd
  refine ⟨used, d.rest, w.handed ++ d.handed, ?_, hused, ?_, ?_⟩
  · rw [AsksOn, ← List.take_eq_self_iff]
    refine (Eq.congr hexact.accepted_eq.symm rfl).trans (hexact.whole_iff.trans ?_)
    refine forall₂_congr fun a _ ↦ and_congr (not_congr SendAnswer.uptake_eq_failed_iff) ?_
    exact not_congr SendAnswer.uptake_eq_took_iff
  · rw [uninterrupted_eq, uninterrupted_eq]
    exact countP_le_of_drain hd
  · rw [sendString_overlay page hpiece.2.1 hpiece.2.2, hd, drained, hexact.accepted_eq]
    rfl

theorem bytesTaken_err (e : Errno) : bytesTaken [.err e] = 0 := by
  by_cases he : e = .eintr
  · rw [he, bytesTaken, taken, SendAnswer.uptake_eintr]
    rfl
  · rw [bytesTaken, taken, SendAnswer.uptake_err he]
    rfl

theorem sendsPart_sendOnce : SendsPart AsksOnce sendOnce := by
  intro piece page w hpiece henough
  have hpos := List.length_pos_of_ne_nil hpiece.1
  rcases hsends : w.sends with - | ⟨a, rest⟩
  · rw [hsends] at henough
    exact absurd henough (Nat.not_le_of_lt hpos)
  refine ⟨[a], rest, w.handed ++ [piece], rfl, rfl, ?_, ?_⟩
  · rw [uninterrupted, List.countP_cons, uninterrupted]
    split <;> omega
  · rw [sendOnce_overlay page hpiece.2.1 hpiece.2.2]
    rcases a with n | e
    · rw [send_of_sent hsends]
      rfl
    · rw [send_of_err hsends, bytesTaken_err, List.take_zero, List.append_nil]
      rfl

/-! ### A page -/

/-- What the client gets of the pieces, when each has taken up answers of its own. -/
def gotPieces (pieces : List (List UInt8)) (answers : List (List SendAnswer)) : List UInt8 :=
  (List.zipWith (fun piece used ↦ piece.take (bytesTaken used)) pieces answers).flatten

/-- **A page, piece by piece.** -/
theorem SendsPart.sendPieces {asks : List UInt8 → List SendAnswer → Prop}
    {handOver : CArray buffSize → Http Unit} (h : SendsPart asks handOver) :
    ∀ {pieces : List (List UInt8)} (page : CArray buffSize) {w : Calls},
      (∀ piece ∈ pieces, piece ≠ [] ∧ 0 ∉ piece ∧ piece.length < buffSize) →
      pieces.flatten.length ≤ uninterrupted w.sends →
      ∃ answers rest handed, List.Forall₂ asks pieces answers ∧
        w.sends = answers.flatten ++ rest ∧
        sendPieces handOver pieces page w = .ok ((), { w with
          sends := rest, accepted := w.accepted ++ gotPieces pieces answers, handed := handed })
  | [], page, w, _, _ => ⟨[], w.sends, w.handed, .nil, rfl, by
      rw [gotPieces, List.zipWith_nil_left, List.flatten_nil, List.append_nil]
      rfl⟩
  | piece :: pieces, page, w, hpieces, henough => by
    have hpiece := hpieces piece List.mem_cons_self
    rw [List.flatten_cons, List.length_append] at henough
    obtain ⟨used, rest, handed, hasks, hused, hcount, hsent⟩ :=
      h page hpiece (by omega : piece.length ≤ uninterrupted w.sends)
    obtain ⟨answers, rest', handed', hall, hrest, hpage⟩ :=
      h.sendPieces (page.overlay (piece ++ [0]))
        (fun p hp ↦ hpieces p (List.mem_cons_of_mem piece hp)) (w := { w with
          sends := rest
          accepted := w.accepted ++ piece.take (bytesTaken used)
          handed := handed }) (show _ ≤ uninterrupted rest by omega)
    have hsplit : rest = answers.flatten ++ rest' := hrest
    refine ⟨used :: answers, rest', handed', .cons hasks hall, ?_, ?_⟩
    · rw [hused, hsplit, List.flatten_cons, List.append_assoc]
    · rw [PreforkHttpd.sendPieces, bind_of_ok (lift_of_ok (storeAll_piece page hpiece.2.2) w),
        bind_of_ok hsent, hpage, List.append_assoc]
      rfl

/-- The client does not get more than there is, -/
theorem length_gotPieces_le : ∀ (pieces : List (List UInt8)) (answers : List (List SendAnswer)),
    (gotPieces pieces answers).length ≤ pieces.flatten.length
  | [], _ => Nat.zero_le _
  | _ :: _, [] => Nat.zero_le _
  | piece :: pieces, used :: answers => by
    have hrest := length_gotPieces_le pieces answers
    have hpiece : (piece.take (bytesTaken used)).length ≤ piece.length := List.length_take_le' _ _
    rw [gotPieces, List.zipWith_cons_cons, List.flatten_cons, List.flatten_cons,
      List.length_append, List.length_append]
    exact Nat.add_le_add hpiece hrest

/-- and it gets everything when every piece is taken as a whole. -/
theorem gotPieces_eq_flatten_iff : ∀ {pieces : List (List UInt8)}
    {answers : List (List SendAnswer)}, answers.length = pieces.length →
      (gotPieces pieces answers = pieces.flatten ↔
        List.Forall₂ (fun piece used ↦ piece.length ≤ bytesTaken used) pieces answers)
  | [], [], _ => iff_of_true rfl .nil
  | piece :: pieces, used :: answers, h => by
    have ih := gotPieces_eq_flatten_iff (Nat.succ.inj h)
    have hcons : gotPieces (piece :: pieces) (used :: answers) =
      piece.take (bytesTaken used) ++ gotPieces pieces answers := rfl
    rw [List.forall₂_cons, ← ih, hcons, List.flatten_cons]
    refine ⟨fun heq ↦ ?_, fun ⟨hwhole, hrest⟩ ↦ by rw [List.take_of_length_le hwhole, hrest]⟩
    have hlength := congrArg List.length heq
    have hrest := length_gotPieces_le pieces answers
    rw [List.length_append, List.length_append, List.length_take] at hlength
    have hwhole : piece.length ≤ bytesTaken used := by omega
    rw [List.take_of_length_le hwhole] at heq
    exact ⟨hwhole, List.append_cancel_left heq⟩

/-- `http_send` leaves something out only where a call fails or takes nothing. -/
theorem gotPieces_eq_flatten_of_asksOn {pieces : List (List UInt8)}
    {answers : List (List SendAnswer)} (h : List.Forall₂ AsksOn pieces answers) :
    gotPieces pieces answers = pieces.flatten ↔
      ∀ a ∈ answers.flatten, ¬ a.Fails ∧ a ≠ .sent 0 := by
  rw [gotPieces_eq_flatten_iff h.length_eq.symm]
  induction h with
  | nil => exact iff_of_true .nil (List.forall_mem_nil _)
  | cons hasks _ ih =>
    rw [List.forall₂_cons, ih, List.flatten_cons, List.forall_mem_append]
    exact and_congr_left fun _ ↦ hasks

/-! ### From the request to the answer -/

/-- The page that a request is refused with. -/
def RequestWords.refusal (fs : FileSystem) (r : RequestWords) : Option ResponsePage :=
  if r.GetOrPost then if (fs r.path).isNone then some .unknow else none else some .errorMethod

/-- How the pieces of a refusal take up the answers. -/
def ResponsePage.Asks : ResponsePage → List UInt8 → List SendAnswer → Prop
  | .errorMethod => AsksOnce
  | _ => AsksOn

section Reply

variable {fs : FileSystem} {filename : List UInt8} {clientfd fd : ℤ} {page : CArray buffSize}
  {w v : Calls}

/-- A method that is not served: the page, and both descriptors. -/
theorem reply_of_errorMethod (h : errorMethod page w = .ok ((), v)) :
    reply fs filename clientfd httpErrorMethod fd page w =
      .ok ((), { v with fds := (v.fds.erase fd).erase clientfd }) := by
  have hrespond : respond fs (some filename) httpErrorMethod fd page w = .ok (fd, v) := by
    rw [respond, if_neg (by decide), if_neg (by decide), if_pos rfl, bind_of_ok h]
    rfl
  rw [reply, if_pos rfl, handlerResponse, bind_of_ok hrespond]
  rfl

/-- Nothing under the path: the same with the other page. -/
theorem reply_of_unknow (h : unknow page w = .ok ((), v)) :
    reply fs filename clientfd httpErrorNotFind fd page w =
      .ok ((), { v with fds := (v.fds.erase fd).erase clientfd }) := by
  have hrespond : respond fs (some filename) httpErrorNotFind fd page w = .ok (fd, v) := by
    rw [respond, if_neg (by decide), if_pos rfl, bind_of_ok h]
    rfl
  rw [reply, if_neg (by decide), if_neg (by decide), if_pos rfl, handlerResponse,
    bind_of_ok hrespond]
  rfl

/-- The request is read up to the end of its line, and the rest is up to the `switch`. -/
theorem exists_handlerRequest_eq (r : RequestWords) (fs : FileSystem) (l : Locals)
    (clientfd fd : ℤ) (page : CArray buffSize) (w : Calls) (more : List ReadAnswer) :
    ∃ name, handlerRequest fs l clientfd fd page { w with reads := r.line.map .byte ++ more } =
      reply fs name clientfd (if r.GetOrPost then (located fs r.path).1 else httpErrorMethod)
        fd page { w with reads := more } := by
  have hline : (r.arrival l.buf more).line.length < buffSize := Nat.lt_succ_of_le r.length_line
  have hbytes : (r.arrival l.buf more).buffer.bytes =
      r.line ++ 0 :: l.buf.bytes.drop (r.line.length + 1) := Arrival.bytes_buffer _ hline
  have hfit : TokensFit (r.arrival l.buf more).buffer.bytes := by
    rw [hbytes]
    exact r.tokensFit _
  have hok : acceptRequest fs l zeroFilename { w with reads := r.line.map .byte ++ more } =
      .ok (answer fs (r.arrival l.buf more).buffer.bytes zeroFilename, { w with reads := more }) :=
    acceptRequest_of_fits (r.requestLine_eq l.buf more) hline hfit (le_refl _)
  obtain ⟨name, hname⟩ := exists_readStr_answer fs hfit
  refine ⟨name, ?_⟩
  have hcode : (answer fs (r.arrival l.buf more).buffer.bytes zeroFilename).1 =
      if r.GetOrPost then (located fs r.path).1 else httpErrorMethod := by
    rw [hbytes, r.answer_line]
    split <;> rfl
  rw [handlerRequest, bind_of_ok hok, bind_of_ok (lift_of_ok hname _), hcode]

/-- **What a client gets for its request.** For every request line of two words, every file system,
and everything that may come behind the line: a method that is not served is answered with the page
of `error_method`, a path with nothing under it with that of `unknow`, both descriptors are closed,
and nothing behind the line is read. The client gets the page piece by piece, each as far as the
answers go that it takes up: one for a piece of `error_method`, and for one of `unknow` as many as
it needs, so that this page arrives as a whole unless a call fails or takes nothing. Any other
request is not done with, whatever the kernel answers. -/
theorem handlerRequest_words (r : RequestWords) (fs : FileSystem) (l : Locals) (clientfd fd : ℤ)
    (page : CArray buffSize) (w : Calls) (more : List ReadAnswer)
    (henough : ∀ f ∈ r.refusal fs, f.pieces.flatten.length ≤ uninterrupted w.sends) :
    (r.refusal fs = none → ∀ w', handlerRequest fs l clientfd fd page
      { w with reads := r.line.map .byte ++ more } ≠ .ok ((), w')) ∧
    ∀ f ∈ r.refusal fs, ∃ answers rest handed, w.sends = answers.flatten ++ rest ∧
      List.Forall₂ f.Asks f.pieces answers ∧
      handlerRequest fs l clientfd fd page { w with reads := r.line.map .byte ++ more } =
        .ok ((), { w with
          reads := more
          sends := rest
          accepted := w.accepted ++ gotPieces f.pieces answers
          handed := handed
          fds := (w.fds.erase fd).erase clientfd }) ∧
      (f = .unknow → (gotPieces f.pieces answers = f.pieces.flatten ↔
        ∀ a ∈ answers.flatten, ¬ a.Fails ∧ a ≠ .sent 0)) := by
  obtain ⟨name, hrequest⟩ := exists_handlerRequest_eq r fs l clientfd fd page w more
  rw [hrequest]
  by_cases hserved : r.GetOrPost
  · rw [if_pos hserved]
    rw [RequestWords.refusal, if_pos hserved] at henough ⊢
    rcases hfound : fs r.path with - | k
    · rw [hfound] at henough
      have hcode : (located fs r.path).1 = httpErrorNotFind := by rw [located, hfound]
      rw [hcode]
      refine ⟨fun h ↦ absurd h (Option.some_ne_none _), fun f hf ↦ ?_⟩
      obtain rfl : ResponsePage.unknow = f := Option.some.inj hf
      obtain ⟨answers, rest, handed, hasks, hsends, hpage⟩ := sendsPart_sendString.sendPieces page
        (w := { w with reads := more }) ResponsePage.unknow.forall_mem_pieces (henough _ rfl)
      exact ⟨answers, rest, handed, hsends, hasks, reply_of_unknow hpage,
        fun _ ↦ gotPieces_eq_flatten_of_asksOn hasks⟩
    · have hcode : (located fs r.path).1 = httpSuccess := by
        rw [located, hfound]
        cases k <;> rfl
      rw [hcode]
      exact ⟨fun _ w' ↦ reply_ne_ok, fun f hf ↦ absurd hf (Option.not_mem_none f)⟩
  · rw [if_neg hserved]
    rw [RequestWords.refusal, if_neg hserved] at henough ⊢
    refine ⟨fun h ↦ absurd h (Option.some_ne_none _), fun f hf ↦ ?_⟩
    obtain rfl : ResponsePage.errorMethod = f := Option.some.inj hf
    obtain ⟨answers, rest, handed, hasks, hsends, hpage⟩ := sendsPart_sendOnce.sendPieces page
      (w := { w with reads := more }) ResponsePage.errorMethod.forall_mem_pieces (henough _ rfl)
    exact ⟨answers, rest, handed, hsends, hasks, reply_of_errorMethod hpage,
      fun h ↦ absurd h (by decide)⟩

/-- A client that asks for what is not there, and takes ten bytes at a time, gets the whole page. -/
theorem handlerRequest_words_tens : ∃ answers rest handed,
    handlerRequest (fun _ ↦ none) zeroLocals 4 0 (CArray.fill _ 0)
        { Calls.sending (List.replicate 300 (.sent 10)) with
          reads := getSlash.line.map .byte ++ []
          fds := [3, 4] } =
      .ok ((), { Calls.sending rest with
        accepted := gotPieces unknowPieces answers
        handed := handed
        fds := [3] }) ∧
    gotPieces unknowPieces answers = unknowPieces.flatten := by
  let w : Calls := { Calls.sending (List.replicate 300 (.sent 10)) with fds := [3, 4] }
  have hrefusal : getSlash.refusal (fun _ ↦ none) = some .unknow := by decide
  have henough : ∀ f ∈ getSlash.refusal fun _ ↦ none,
      f.pieces.flatten.length ≤ uninterrupted w.sends := fun f hf ↦ by
    obtain rfl : ResponsePage.unknow = f := Option.some.inj (hrefusal.symm.trans hf)
    decide +kernel
  obtain ⟨answers, rest, handed, hsends, -, hrun, hwhole⟩ :=
    (handlerRequest_words getSlash (fun _ ↦ none) zeroLocals 4 0 (CArray.fill _ 0) w [] henough).2
      .unknow hrefusal
  refine ⟨answers, rest, handed, hrun, (hwhole rfl).2 fun a ha ↦ ?_⟩
  have hmem : a ∈ w.sends := hsends ▸ List.mem_append_left rest ha
  rw [List.eq_of_mem_replicate hmem]
  exact ⟨id, by decide⟩

end Reply

end PreforkHttpd
