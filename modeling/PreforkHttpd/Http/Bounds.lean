import PreforkHttpd.Http.AcceptRequest

/-!
# When a request stays inside the arrays

Every index `accept_request` and `readline` use is checked in the model, and an index outside its
array stops the run with a fault. `inBounds_iff` says exactly which requests do not: those for which
`RequestFits` holds of what the loop finds in the buffer. Three bounds make it up.

* The line leaves room for its NUL: `readline` stores up to `BUFFSIZE` bytes and then one more.
* Each token leaves room for its NUL: the copying loops stop at `PARTSIZE` bytes and then store one
  more.
* Whitespace follows the method and the url inside `buf`: the loops test `buf[j]` before they test
  `j`, and a line without whitespace is scanned into whatever lies behind its NUL.

The caller's array is never overrun: the longest path fits it (`parseRequest_eq` needs no more of it
than its size).
-/

open Answered

namespace PreforkHttpd

/-- The line that arrives over `buf`, if one does, leaves room for its NUL, and the tokens found in
the buffer fit. -/
def RequestFits (buf : CArray buffSize) (reads : List ReadAnswer) : Prop :=
  ∀ a ∈ requestLine reads 0 [] buf, a.line.length < buffSize ∧ TokensFit a.buffer.bytes

/-- **When a request stays inside the arrays**: a call of `accept_request` uses no index outside
`buf`, `method`, `url` and the caller's array if and only if the request fits. -/
theorem inBounds_iff (fs : FileSystem) (l : Locals) (filename : CArray buffSize) (w : Calls) :
    (∀ f, acceptRequest fs l filename w ≠ .error (.fault f)) ↔ RequestFits l.buf w.reads := by
  rw [RequestFits]
  match h : requestLine w.reads 0 [] l.buf with
  | none =>
    rw [acceptRequest_of_none h]
    exact iff_of_true (fun f ↦ nofun) nofun
  | some a =>
    constructor
    · intro hfault b hb
      obtain rfl := Option.some.inj hb
      by_contra hfit
      obtain ⟨f, hf⟩ := acceptRequest_fault fs filename h hfit
      exact hfault f hf
    · intro hfit f
      obtain ⟨hline, htokens⟩ := hfit a rfl
      rw [acceptRequest_of_fits h hline htokens (le_refl _)]
      nofun

/-- The caller's array, which `http_module_handler_request` zeroes. -/
def zeroFilename : CArray buffSize := CArray.fill _ 0

/-- The local arrays of a call, all zero. -/
def zeroLocals : Locals where
  buf := CArray.fill _ 0
  method := CArray.fill _ 0
  url := CArray.fill _ 0

/-- A url of `PARTSIZE` bytes. -/
def longUrl : List UInt8 := slash :: List.replicate 511 97

theorem isspace_of_mem_longUrl : ∀ c ∈ longUrl, isspace c = false := by
  intro c hc
  rcases List.mem_cons.1 hc with rfl | hc
  · rfl
  · rw [List.eq_of_mem_replicate hc]
    rfl

theorem length_longUrl : longUrl.length = partSize := by
  rw [longUrl, List.length_cons, List.length_replicate]

/-- `GET`, a blank, the long url and a newline: the NUL of `url` is stored past its end. -/
theorem fault_of_longUrl :
    ∃ f, acceptRequest (fun _ ↦ none) zeroLocals zeroFilename
      (Calls.reading (([71, 69, 84, 32] ++ longUrl).map .byte ++ [.byte newline])) =
        .error (.fault f) := by
  have hnl : newline ∉ [71, 69, 84, 32] ++ longUrl :=
    List.not_mem_append (by decide) fun h ↦ absurd (isspace_of_mem_longUrl _ h) (by decide)
  have hlength : ([71, 69, 84, 32] ++ longUrl).length = 516 := by
    rw [List.length_append, length_longUrl]
    rfl
  have hline := requestLine_of_line zeroLocals.buf [] ([71, 69, 84, 32] ++ longUrl) (i := 0) []
    hnl (by rw [hlength]; decide) (Or.inr nofun)
  refine acceptRequest_fault _ _ hline fun hfit ↦ ?_
  -- what the loops scan, with the blank and the newline around the url
  let bytes := [71, 69, 84, 32] ++ (longUrl ++ newline :: 0 :: zeroLocals.buf.bytes.drop 518)
  have hbytes : (Arrival.buffer ⟨[] ++ ([71, 69, 84, 32] ++ longUrl) ++ [newline],
      zeroLocals.buf, []⟩).bytes = bytes := by
    refine (Arrival.bytes_buffer _ hfit.1).trans ?_
    simp [bytes, length_longUrl]
  have hstart : (methodToken bytes).length + (methodGap bytes).length = 4 := rfl
  have htoken : token (bytes.drop 4) = longUrl := token_append isspace_of_mem_longUrl rfl
  have hurl := hfit.2.url
  rw [hbytes, urlToken, hstart, htoken, length_longUrl] at hurl
  exact absurd hurl (lt_irrefl _)

end PreforkHttpd
