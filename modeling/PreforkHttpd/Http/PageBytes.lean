import PreforkHttpd.Http.Pages
import PreforkHttpd.Http.SendLoops

/-!
# What a page hands to the socket

The local buffer of a page is not initialised, and each piece is written over its beginning. How
much of the buffer goes to the socket depends on how it is handed over. A page that sends **the
string** in the buffer sends its pieces and nothing else: whatever the buffer held before, the run
is the same (`sendPieces_eq_of_sendsPiece`). A page that sends `sizeof(buf)` bytes hands over,
behind its first piece, the stack of the worker as it found it.

`handedAlike_iff` is exact: on every list of answers the same bytes are handed over, for two initial
contents of the buffer, if and only if the page sends strings or the contents agree behind the first
piece and its NUL.
-/

open Answered Drain

namespace PreforkHttpd

/-- The functions of `http_module.h` that send a page. -/
inductive ResponsePage
  | responseOk
  | unknow
  | errorMethod
  | badRequest
  | contiRequest
  | wrongPath
  | toolongUrl
  | badHttp
deriving DecidableEq

namespace ResponsePage

/-- The pieces of a page. -/
def pieces : ResponsePage → List (List UInt8)
  | responseOk => responseOkPieces
  | unknow => unknowPieces
  | errorMethod => errorMethodPieces
  | badRequest => badRequestPieces
  | contiRequest => contiRequestPieces
  | wrongPath => wrongPathPieces
  | toolongUrl => toolongUrlPieces
  | badHttp => badHttpPieces

/-- The call of a page, with the initial content of its buffer. -/
def run : ResponsePage → CArray buffSize → Http Unit
  | responseOk => PreforkHttpd.responseOk
  | unknow => PreforkHttpd.unknow
  | errorMethod => PreforkHttpd.errorMethod
  | badRequest => PreforkHttpd.badRequest
  | contiRequest => PreforkHttpd.contiRequest
  | wrongPath => PreforkHttpd.wrongPath
  | toolongUrl => PreforkHttpd.toolongUrl
  | badHttp => PreforkHttpd.badHttp

/-- The page is sent with `strlen(buf)`, and not with `sizeof(buf)`. -/
def SendsStrings : ResponsePage → Prop
  | responseOk | unknow | errorMethod => True
  | _ => False

/-- How a page hands its buffer over. -/
def handOver : ResponsePage → CArray buffSize → Http Unit
  | responseOk | unknow => sendString
  | errorMethod => sendOnce
  | badRequest | contiRequest | wrongPath | toolongUrl | badHttp => sendBuffer

theorem run_eq (f : ResponsePage) : f.run = sendPieces f.handOver f.pieces := by
  cases f <;> rfl

/-- Every piece is a nonempty string that fits into the buffer. -/
theorem forall_mem_pieces (f : ResponsePage) :
    ∀ piece ∈ f.pieces, piece ≠ [] ∧ 0 ∉ piece ∧ piece.length < buffSize := by
  cases f <;> decide +kernel

theorem pieces_ne_nil (f : ResponsePage) : f.pieces ≠ [] := by
  cases f <;> nofun

end ResponsePage

/-! ### Handing over a piece -/

section HandOver

variable {piece : List UInt8} (page : CArray buffSize)

/-- What the buffer begins with once a piece is written. -/
theorem take_bytes_overlay (hpiece : piece.length < buffSize) :
    (page.overlay (piece ++ [0])).bytes.take piece.length = piece := by
  have hfit : (piece ++ [0]).length ≤ buffSize := CArray.length_concat_le hpiece
  have hprefix := (List.prefix_append piece [0]).trans (CArray.prefix_bytes_overlay page hfit)
  exact (List.prefix_iff_eq_take.1 hprefix).symm

/-- **A string is sent as a whole**: what is behind it in the buffer plays no part. -/
theorem sendString_overlay (hnul : 0 ∉ piece) (hpiece : piece.length < buffSize) (w : Calls) :
    sendString (page.overlay (piece ++ [0])) w =
      (drained 0 w (drain SendAnswer.uptake w.sends piece)).map fun p ↦ ((), p.2) := by
  have hread : (page.overlay (piece ++ [0])).readStr (Fault.index .page) =
      .ok (piece.takeWhile (· ≠ 0)) := CArray.readStr_overlay hpiece
  rw [CArray.takeWhile_ne_nul hnul] at hread
  have hlen : piece.length ≤ (page.overlay (piece ++ [0])).bytes.length := by
    rw [CArray.length_bytes]
    exact hpiece.le
  rw [sendString, bind_of_ok (lift_of_ok hread w), bind_pure_eq_map, httpSend_eq hlen,
    take_bytes_overlay page hpiece]

/-- With a single `send` as well. -/
theorem sendOnce_overlay (hnul : 0 ∉ piece) (hpiece : piece.length < buffSize) (w : Calls) :
    sendOnce (page.overlay (piece ++ [0])) w = (send piece w).map fun p ↦ ((), p.2) := by
  have hread : (page.overlay (piece ++ [0])).readStr (Fault.index .page) =
      .ok (piece.takeWhile (· ≠ 0)) := CArray.readStr_overlay hpiece
  rw [CArray.takeWhile_ne_nul hnul] at hread
  rw [sendOnce, bind_of_ok (lift_of_ok hread w), bind_pure_eq_map,
    take_bytes_overlay page hpiece]

end HandOver

/-- The way of handing over sends the piece in the buffer, whatever is behind it. -/
def SendsPiece (handOver : CArray buffSize → Http Unit) : Prop :=
  ∀ {piece : List UInt8} (page page' : CArray buffSize), 0 ∉ piece → piece.length < buffSize →
    handOver (page.overlay (piece ++ [0])) = handOver (page'.overlay (piece ++ [0]))

theorem sendsPiece_sendString : SendsPiece sendString := fun page page' hnul hpiece ↦
  funext fun w ↦ (sendString_overlay page hnul hpiece w).trans
    (sendString_overlay page' hnul hpiece w).symm

theorem sendsPiece_sendOnce : SendsPiece sendOnce := fun page page' hnul hpiece ↦
  funext fun w ↦ (sendOnce_overlay page hnul hpiece w).trans
    (sendOnce_overlay page' hnul hpiece w).symm

/-- The first piece is written, handed over, and followed by the others. -/
theorem sendPieces_cons (handOver : CArray buffSize → Http Unit) {piece : List UInt8}
    (pieces : List (List UInt8)) (page : CArray buffSize) (hpiece : piece.length < buffSize) :
    sendPieces handOver (piece :: pieces) page =
      (handOver (page.overlay (piece ++ [0])) >>= fun _ ↦
        sendPieces handOver pieces (page.overlay (piece ++ [0]))) :=
  funext fun w ↦ bind_of_ok (lift_of_ok (storeAll_piece page hpiece) w)

/-- **A page of strings does not depend on its buffer.** -/
theorem sendPieces_eq_of_sendsPiece {handOver : CArray buffSize → Http Unit}
    (h : SendsPiece handOver) : ∀ {pieces : List (List UInt8)} (page page' : CArray buffSize),
      (∀ piece ∈ pieces, 0 ∉ piece ∧ piece.length < buffSize) →
      sendPieces handOver pieces page = sendPieces handOver pieces page'
  | [], _, _, _ => rfl
  | piece :: pieces, page, page', hpieces => by
    obtain ⟨⟨hnul, hpiece⟩, hrest⟩ := List.forall_mem_cons.1 hpieces
    rw [sendPieces_cons handOver pieces page hpiece, sendPieces_cons handOver pieces page' hpiece,
      h page page' hnul hpiece, sendPieces_eq_of_sendsPiece h _ _ hrest]

/-! ### Two runs -/

/-- What a run hands to the socket, call by call. -/
def handedBy (m : Http Unit) (w : Calls) : Except (Stop Fault) (List (List UInt8)) :=
  (m w).map fun p ↦ p.2.handed

/-- On every list of answers, the page hands the same bytes to the socket in both runs. -/
def HandedAlike (f : ResponsePage) (page page' : CArray buffSize) : Prop :=
  ∀ w, handedBy (f.run page) w = handedBy (f.run page') w

/-- The contents agree behind the first piece and its NUL. -/
def AgreeBehind (f : ResponsePage) (page page' : CArray buffSize) : Prop :=
  ∀ piece ∈ f.pieces.head?,
    page.bytes.drop (piece.length + 1) = page'.bytes.drop (piece.length + 1)

/-- Two contents agree behind a piece when they are the same once it is written. -/
theorem overlay_eq_iff {n : ℕ} {piece : List UInt8} (page page' : CArray n) (h : piece.length < n) :
    page.overlay (piece ++ [0]) = page'.overlay (piece ++ [0]) ↔
      page.bytes.drop (piece.length + 1) = page'.bytes.drop (piece.length + 1) := by
  have hfit : (piece ++ [0]).length ≤ n := CArray.length_concat_le h
  rw [CArray.ext_iff, CArray.bytes_overlay page hfit, CArray.bytes_overlay page' hfit,
    List.append_cancel_left_eq, List.length_append, List.length_singleton]

/-- Nothing is sent while every answer fails. -/
def allFail (k : ℕ) : Calls := Calls.sending (List.replicate k (.err .eagain))

/-- A failed call with the whole buffer. -/
theorem sendBuffer_allFail (page : CArray buffSize) (k : ℕ) :
    sendBuffer page (allFail (k + 1)) = .ok ((), { allFail k with handed := [page.bytes] }) := by
  have hne : page.bytes ≠ [] := List.ne_nil_of_length_pos (page.length_bytes.symm ▸ by decide)
  have htake : page.bytes.take buffSize = page.bytes := List.take_of_length_le page.length_bytes.le
  have hsend : httpSend page.bytes buffSize (allFail (k + 1)) =
      .ok (-1, { allFail k with handed := [page.bytes] }) := by
    rw [httpSend_eq page.length_bytes.ge, htake]
    show drained 0 _ (drain SendAnswer.uptake (.err .eagain :: List.replicate k _) page.bytes) = _
    rw [drain_of_failed hne (SendAnswer.uptake_err (by decide))]
    rfl
  rw [sendBuffer, bind_of_ok hsend]
  rfl

/-- **The first call of a page that sends its whole buffer** shows all of it. -/
theorem exists_handedBy_sendBuffer {piece : List UInt8} {pieces : List (List UInt8)}
    (page : CArray buffSize) (hpieces : ∀ p ∈ piece :: pieces, p.length < buffSize) :
    ∃ later, handedBy (sendPieces sendBuffer (piece :: pieces) page)
      (allFail (pieces.length + 1)) = .ok ((page.overlay (piece ++ [0])).bytes :: later) := by
  have hfailures : failures (allFail (pieces.length + 1)).sends = (piece :: pieces).length :=
    (List.countP_replicate).trans (if_pos (by decide))
  obtain ⟨w', hw'⟩ := sendPieces_returns usesOneFailure_sendBuffer page hpieces hfailures.ge
  have hpiece : piece.length < buffSize := hpieces piece List.mem_cons_self
  have hlater := hw'
  rw [sendPieces_cons sendBuffer pieces page hpiece, bind_of_ok (sendBuffer_allFail _ _)] at hlater
  obtain ⟨later, hhanded⟩ :=
    (handsOver_sendBuffer.forward_sendPieces pieces _ hlater).handed
  refine ⟨later, ?_⟩
  rw [handedBy, hw']
  exact congrArg Except.ok hhanded.symm

/-- **Which pages leak their stack.** For every page and any two initial contents of its buffer: the
bytes handed to the socket are the same on all lists of answers if and only if the page sends
strings, or the contents agree behind the first piece and its NUL. -/
theorem handedAlike_iff (f : ResponsePage) (page page' : CArray buffSize) :
    HandedAlike f page page' ↔ f.SendsStrings ∨ AgreeBehind f page page' := by
  have hpieces := f.forall_mem_pieces
  by_cases hstrings : f.SendsStrings
  · refine iff_of_true (fun w ↦ ?_) (Or.inl hstrings)
    have hsends : SendsPiece f.handOver := by
      cases f with
      | responseOk | unknow => exact sendsPiece_sendString
      | errorMethod => exact sendsPiece_sendOnce
      | badRequest | contiRequest | wrongPath | toolongUrl | badHttp => exact hstrings.elim
    rw [f.run_eq, sendPieces_eq_of_sendsPiece hsends page page' fun p hp ↦ (hpieces p hp).2]
  · rw [or_iff_right hstrings]
    have hbuffer : f.handOver = sendBuffer := by
      cases f with
      | responseOk | unknow | errorMethod => exact absurd trivial hstrings
      | badRequest | contiRequest | wrongPath | toolongUrl | badHttp => rfl
    obtain ⟨piece, pieces, hcons⟩ := List.exists_cons_of_ne_nil f.pieces_ne_nil
    rw [hcons] at hpieces
    have hfits : ∀ p ∈ piece :: pieces, p.length < buffSize := fun p hp ↦ (hpieces p hp).2.2
    have hpiece := hfits piece List.mem_cons_self
    have hagree : AgreeBehind f page page' ↔
        page.overlay (piece ++ [0]) = page'.overlay (piece ++ [0]) := by
      rw [AgreeBehind, hcons, overlay_eq_iff page page' hpiece]
      exact ⟨fun h ↦ h piece rfl, fun h p hp ↦ Option.some.inj hp ▸ h⟩
    rw [hagree, HandedAlike, f.run_eq, hbuffer, hcons]
    refine ⟨fun h ↦ ?_, fun h w ↦ ?_⟩
    · obtain ⟨later, hlater⟩ := exists_handedBy_sendBuffer page hfits
      obtain ⟨later', hlater'⟩ := exists_handedBy_sendBuffer page' hfits
      have hfirst := (hlater.symm.trans (h _)).trans hlater'
      exact CArray.ext (List.cons.inj (Except.ok.inj hfirst)).1
    · rw [sendPieces_cons sendBuffer pieces page hpiece,
        sendPieces_cons sendBuffer pieces page' hpiece, h]

/-- `wrong_path` hands over what was on the stack: zeros in one run, `A`s in the other. -/
theorem not_handedAlike_of_wrongPath :
    ¬ HandedAlike .wrongPath (CArray.fill _ 0) (CArray.fill _ 65) := by
  intro h
  have hfirst := h (allFail 5)
  revert hfirst
  decide +kernel

end PreforkHttpd
