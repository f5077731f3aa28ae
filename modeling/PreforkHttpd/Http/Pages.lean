import PreforkHttpd.Http.Send

/-!
# The pages of the server

Every page is sent in pieces: a piece is written into a local buffer as a string, and the buffer is
handed to the socket. The pages differ in their pieces and in how the buffer is handed over.

* `response_ok` and `unknow` send the string in the buffer with `http_send`.
* `error_method` sends it with a single `send`, whatever comes of it.
* `wrong_path`, `bad_request`, `Conti_request`, `toolongUrl` and `bad_http` send the whole buffer,
  and with it what was in the buffer before.

No page looks at what became of its pieces. `sendPieces_returns` is what they have in common: a page
is sent, or given up piece by piece, as long as there is a failure to come for each piece.
-/

open Answered

namespace PreforkHttpd

/-! ### The code -/

/-- `SERVER_TYPE`. -/
def serverType : List UInt8 := ascii "httpd of file get and sent system"

/-- `http_send(sockfd, buf, strlen(buf));` -/
def sendString (page : CArray buffSize) : Http Unit := do
  let s ← page.readStr (Fault.index .page)
  let _ ← httpSend page.bytes s.length
  pure ()

/-- `send(sockfd, buf, strlen(buf), 0);` -/
def sendOnce (page : CArray buffSize) : Http Unit := do
  let s ← page.readStr (Fault.index .page)
  let _ ← send (page.bytes.take s.length)
  pure ()

/-- `http_send(sockfd, buf, sizeof(buf));` -/
def sendBuffer (page : CArray buffSize) : Http Unit := do
  let _ ← httpSend page.bytes buffSize
  pure ()

/-- Write each piece into the buffer, and hand the buffer over. -/
def sendPieces (handOver : CArray buffSize → Http Unit) :
    List (List UInt8) → CArray buffSize → Http Unit
  | [], _ => pure ()
  | piece :: pieces, page => do
    let page ← page.storeAll (Fault.index .page) 0 (piece ++ [0])
    handOver page
    sendPieces handOver pieces page

/-- The pieces of `response_ok`. -/
def responseOkPieces : List (List UInt8) := [
  ascii "HTTP/1.0 200 OK\r\n",
  serverType,
  ascii "Content-Type: text/html\r\n",
  ascii "\r\n"]

/-- `response_ok`. -/
def responseOk : CArray buffSize → Http Unit := sendPieces sendString responseOkPieces

/-- The pieces of `unknow`. -/
def unknowPieces : List (List UInt8) := [
  ascii "HTTP/1.0 404 NOT FOUND\r\n",
  serverType,
  ascii "Content-Type: text/html\r\n",
  ascii "\r\n",
  ascii "<HTML><TITLE>Not Found</TITLE>\r\n",
  ascii "<BODY><P>The server could not fulfill\r\n",
  ascii "your request because the resource specified\r\n",
  ascii "is unavailable or nonexistent.\r\n",
  ascii "</BODY></HTML>\r\n"]

/-- `unknow`. -/
def unknow : CArray buffSize → Http Unit := sendPieces sendString unknowPieces

/-- The pieces of `error_method`. -/
def errorMethodPieces : List (List UInt8) := [
  ascii "HTTP/1.0 501 Method Not Implemented\r\n",
  serverType,
  ascii "Content-Type: text/html\r\n",
  ascii "\r\n",
  ascii "<HTML><HEAD><TITLE>Method Not Implemented\r\n",
  ascii "</TITLE></HEAD>\r\n",
  ascii "<BODY><P>HTTP request method not supported.\r\n",
  ascii "</BODY></HTML>\r\n"]

/-- `error_method`. -/
def errorMethod : CArray buffSize → Http Unit := sendPieces sendOnce errorMethodPieces

/-- The pieces of `wrong_path`. -/
def wrongPathPieces : List (List UInt8) := [
  ascii "HTTP/1.0 303 BAD PATH\r\n",
  ascii "Content-type: text/html\r\n",
  ascii "\r\n",
  ascii "<P>Your browser sent a wrong localpath, ",
  ascii "such as a POST without a Content-Length.\r\n"]

/-- `wrong_path`. -/
def wrongPath : CArray buffSize → Http Unit := sendPieces sendBuffer wrongPathPieces

/-- The pieces of `bad_request`. -/
def badRequestPieces : List (List UInt8) := [
  ascii "HTTP/1.0 400 BAD REQUEST\r\n",
  ascii "Content-type: text/html\r\n",
  ascii "\r\n",
  ascii "<P>Your browser sent a bad request, ",
  ascii "such as a POST without a Content-Length.\r\n"]

/-- `bad_request`. -/
def badRequest : CArray buffSize → Http Unit := sendPieces sendBuffer badRequestPieces

/-- The pieces of `Conti_request`. -/
def contiRequestPieces : List (List UInt8) := [
  ascii "HTTP/1.0 100 REQUEST not full\r\n",
  ascii "Content-type: text/html\r\n",
  ascii "\r\n",
  ascii "<P>Your browser sent a missing data, ",
  ascii "such as a POST without a Content-Length.\r\n"]

/-- `Conti_request`. -/
def contiRequest : CArray buffSize → Http Unit := sendPieces sendBuffer contiRequestPieces

/-- The pieces of `toolongUrl`. -/
def toolongUrlPieces : List (List UInt8) := [
  ascii "HTTP/1.0 411 BAD REQUEST\r\n",
  ascii "Content-type: text/html\r\n",
  ascii "\r\n",
  ascii "<P>Your browser sent a so long request that cant read full, ",
  ascii "such as a POST without a Content-Length.\r\n"]

/-- `toolongUrl`. -/
def toolongUrl : CArray buffSize → Http Unit := sendPieces sendBuffer toolongUrlPieces

/-- The pieces of `bad_http`. -/
def badHttpPieces : List (List UInt8) := [
  ascii "HTTP/1.0 505 BAD REQUEST\r\n",
  ascii "Content-type: text/html\r\n",
  ascii "\r\n",
  ascii "<P>Your http is not fit, ",
  ascii "such as a POST without a Content-Length.\r\n"]

/-- `bad_http`. -/
def badHttp : CArray buffSize → Http Unit := sendPieces sendBuffer badHttpPieces

/-! ### What a page can do -/

/-- The way of handing over uses the answers in order, and has no fault on a string. -/
structure HandsOver (handOver : CArray buffSize → Http Unit) : Prop where
  forward : ∀ page, Forward (handOver page)
  safe : ∀ {piece : List UInt8} (page : CArray buffSize), piece.length < buffSize →
    Safe (handOver (page.overlay (piece ++ [0])))

theorem handsOver_sendBuffer : HandsOver sendBuffer where
  forward _ := (forward_httpSend _ _).bind fun _ ↦ forward_pure _
  safe _ _ := (safe_httpSend _ _).bind fun _ ↦ safe_pure _

theorem handsOver_sendString : HandsOver sendString where
  forward _ := (forward_lift _).bind fun _ ↦ (forward_httpSend _ _).bind fun _ ↦ forward_pure _
  safe _ hpiece := (safe_lift_of_ok (CArray.readStr_overlay hpiece)).bind fun _ ↦
    (safe_httpSend _ _).bind fun _ ↦ safe_pure _

/-- A piece that fits is written into the buffer. -/
theorem storeAll_piece {piece : List UInt8} (page : CArray buffSize)
    (hpiece : piece.length < buffSize) :
    page.storeAll (Fault.index .page) 0 (piece ++ [0]) = .ok (page.overlay (piece ++ [0])) := by
  refine CArray.storeAll_zero _ page ?_
  rw [List.length_append]
  exact hpiece

theorem HandsOver.forward_sendPieces {handOver : CArray buffSize → Http Unit}
    (hover : HandsOver handOver) : ∀ (pieces : List (List UInt8)) (page : CArray buffSize),
      Forward (sendPieces handOver pieces page)
  | [], _ => forward_pure _
  | _ :: pieces, _ => (forward_lift _).bind fun _ ↦ (hover.forward _).bind fun _ ↦
    hover.forward_sendPieces pieces _

/-- **A page has no fault** when its pieces fit. -/
theorem HandsOver.safe_sendPieces {handOver : CArray buffSize → Http Unit}
    (hover : HandsOver handOver) : ∀ {pieces : List (List UInt8)} (page : CArray buffSize),
      (∀ piece ∈ pieces, piece.length < buffSize) → Safe (sendPieces handOver pieces page)
  | [], _, _ => safe_pure _
  | piece :: pieces, page, hfit => by
    have hpiece : piece.length < buffSize := hfit piece List.mem_cons_self
    have hrest := hover.safe_sendPieces (page.overlay (piece ++ [0]))
      fun p hp ↦ hfit p (List.mem_cons_of_mem piece hp)
    intro w f
    rw [sendPieces, bind_of_ok (lift_of_ok (storeAll_piece page hpiece) w)]
    exact ((hover.safe page hpiece).bind fun _ ↦ hrest) w f

/-! ### When a page returns -/

/-- Handing over a buffer with a string in it returns as long as there is a failure to come, and
uses up one at most. -/
def UsesOneFailure (handOver : CArray buffSize → Http Unit) : Prop :=
  ∀ {piece : List UInt8} (page : CArray buffSize) {w : Calls}, piece.length < buffSize →
    0 < failures w.sends → ∃ w', handOver (page.overlay (piece ++ [0])) w = .ok ((), w') ∧
      failures w.sends ≤ failures w'.sends + 1

theorem usesOneFailure_sendString : UsesOneFailure sendString := by
  intro piece page w hpiece h
  obtain ⟨r, w', hsend, hle⟩ := httpSend_returns (page.overlay (piece ++ [0])).bytes
    (piece.takeWhile (· ≠ 0)).length h
  refine ⟨w', ?_, hle⟩
  rw [sendString, bind_of_ok (lift_of_ok (CArray.readStr_overlay hpiece) w), bind_of_ok hsend]
  rfl

theorem usesOneFailure_sendBuffer : UsesOneFailure sendBuffer := by
  intro piece page w _ h
  obtain ⟨r, w', hsend, hle⟩ := httpSend_returns (page.overlay (piece ++ [0])).bytes buffSize h
  refine ⟨w', ?_, hle⟩
  rw [sendBuffer, bind_of_ok hsend]
  rfl

theorem usesOneFailure_sendOnce : UsesOneFailure sendOnce := by
  intro piece page w hpiece h
  obtain ⟨a, w', hsend, hle, -⟩ := send_returns ((page.overlay (piece ++ [0])).bytes.take
    (piece.takeWhile (· ≠ 0)).length) h
  refine ⟨w', ?_, hle⟩
  rw [sendOnce, bind_of_ok (lift_of_ok (CArray.readStr_overlay hpiece) w), bind_of_ok hsend]
  rfl

/-- **A page returns** as long as there is a failure to come for each of its pieces. -/
theorem sendPieces_returns {handOver : CArray buffSize → Http Unit}
    (hover : UsesOneFailure handOver) : ∀ {pieces : List (List UInt8)} (page : CArray buffSize)
      {w : Calls}, (∀ piece ∈ pieces, piece.length < buffSize) →
      pieces.length ≤ failures w.sends → ∃ w', sendPieces handOver pieces page w = .ok ((), w')
  | [], page, w, _, _ => ⟨w, rfl⟩
  | piece :: pieces, page, w, hfit, h => by
    have hpiece : piece.length < buffSize := hfit piece List.mem_cons_self
    rw [List.length_cons] at h
    obtain ⟨v, hv, hle⟩ := hover page hpiece (by omega : 0 < failures w.sends)
    obtain ⟨w', hw'⟩ := sendPieces_returns hover (page.overlay (piece ++ [0]))
      (fun p hp ↦ hfit p (List.mem_cons_of_mem piece hp)) (by omega : _ ≤ failures v.sends)
    refine ⟨w', ?_⟩
    rw [sendPieces, bind_of_ok (lift_of_ok (storeAll_piece page hpiece) w), bind_of_ok hv]
    exact hw'

/-- The head of a file's response uses the answers in order, -/
theorem forward_responseOk (page : CArray buffSize) : Forward (responseOk page) :=
  handsOver_sendString.forward_sendPieces responseOkPieces page

/-- and has no fault. -/
theorem safe_responseOk (page : CArray buffSize) : Safe (responseOk page) :=
  handsOver_sendString.safe_sendPieces page (by decide +kernel)

theorem unknow_returns (page : CArray buffSize) {w : Calls} (h : 9 ≤ failures w.sends) :
    ∃ w', unknow page w = .ok ((), w') :=
  sendPieces_returns usesOneFailure_sendString page (by decide +kernel) h

theorem errorMethod_returns (page : CArray buffSize) {w : Calls} (h : 8 ≤ failures w.sends) :
    ∃ w', errorMethod page w = .ok ((), w') :=
  sendPieces_returns usesOneFailure_sendOnce page (by decide +kernel) h

end PreforkHttpd
