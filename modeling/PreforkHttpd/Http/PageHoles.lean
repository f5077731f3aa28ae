import PreforkHttpd.Http.PageBytes

/-!
# Holes in a page

A page is sent piece by piece, and no page looks at what became of a piece. When the socket takes a
piece only in part, or not at all, the next one is sent all the same, and what the client gets has a
hole.

`PiecesSent` follows a run piece by piece: the answers that each piece used, what was handed over
for it and what the socket accepted of it. A piece is **cut short** by one of its own answers
(`CutsShort`), which one depends on how it is handed over: `http_send` goes on after a short count
or `EINTR`, and the single `send` of `error_method` does not.

`noHoles_iff` is about a run that returned and is exact. No piece is sent after one that was cut
short if and only if no answer cuts short a piece other than the last; and no byte of a later piece
gets through if and only if the answers to the pieces behind the cut accept nothing. Either way,
what the socket has accepted is then a prefix of the message.
-/

open Answered Drain

namespace PreforkHttpd

/-- What became of one piece. -/
structure PieceSent where
  piece : List UInt8
  /-- The answers of the calls for it. -/
  answers : List SendAnswer
  accepted : List UInt8
  handed : List (List UInt8)
deriving DecidableEq

namespace PieceSent

/-- Between `w` and `v` this piece was sent. -/
structure Between (s : PieceSent) (w v : Calls) : Prop where
  sends_eq : w.sends = s.answers ++ v.sends
  accepted_eq : v.accepted = w.accepted ++ s.accepted
  handed_eq : v.handed = w.handed ++ s.handed

/-- A call was made for the piece. -/
def Attempted (s : PieceSent) : Prop := s.handed ≠ []

/-- A byte of the piece got through. -/
def Arrived (s : PieceSent) : Prop := s.accepted ≠ []

end PieceSent

/-- The run of a page from `w` to `w'`, piece by piece. -/
inductive PiecesSent (handOver : CArray buffSize → Http Unit) :
    List (List UInt8) → CArray buffSize → Calls → List PieceSent → Calls → Prop
  | nil {page w} : PiecesSent handOver [] page w [] w
  | cons {piece pieces page page' w v w' s trace} :
      page.storeAll (Fault.index .page) 0 (piece ++ [0]) = .ok page' →
      handOver page' w = .ok ((), v) → s.piece = piece → s.Between w v →
      PiecesSent handOver pieces page' v trace w' →
      PiecesSent handOver (piece :: pieces) page w (s :: trace) w'

/-- The run has no holes: the socket has accepted a prefix of the message, and no piece was `Sent`
after one that was cut short. -/
structure NoHoles (f : ResponsePage) (Sent : PieceSent → Prop) (w w' : Calls)
    (trace : List PieceSent) : Prop where
  accepted_prefix : ∃ sent, w'.accepted = w.accepted ++ sent ∧ sent <+: f.pieces.flatten
  stops : trace.Pairwise fun s t ↦ s.accepted ≠ s.piece → ¬ Sent t

/-- An answer to the piece cuts it short. -/
def ResponsePage.CutsShort : ResponsePage → PieceSent → Prop
  | errorMethod, s => ∃ a ∈ s.answers, a.uptake.amount < s.piece.length
  | _, s => ∃ a ∈ s.answers, a.Fails ∨ a = .sent 0

/-! ### One piece -/

/-- What holds of a piece that was sent. -/
structure PieceSent.Sound (f : ResponsePage) (s : PieceSent) : Prop where
  accepted_prefix : s.accepted <+: s.piece
  attempted : s.Attempted
  whole_iff : s.accepted = s.piece ↔ ¬ f.CutsShort s
  arrived_iff : ¬ s.Arrived ↔ ∀ a ∈ s.answers, a.uptake.amount = 0

variable {f : ResponsePage} {piece : List UInt8} {w v w' : Calls}

/-- A piece that was handed to `http_send`. -/
theorem exists_sound_of_sendString
    (hcuts : ∀ s, f.CutsShort s ↔ ∃ a ∈ s.answers, a.Fails ∨ a = .sent 0) (hne : piece ≠ [])
    (hnul : 0 ∉ piece) (hpiece : piece.length < buffSize) {page : CArray buffSize}
    (h : sendString (page.overlay (piece ++ [0])) w = .ok ((), v)) :
    ∃ s : PieceSent, s.piece = piece ∧ s.Between w v ∧ s.Sound f := by
  rw [sendString_overlay page hnul hpiece] at h
  match hd : drain SendAnswer.uptake w.sends piece with
  | none =>
    rw [hd] at h
    cases h
  | some d =>
    rw [hd] at h
    obtain ⟨-, rfl⟩ := Prod.mk.inj (Except.ok.inj h)
    obtain ⟨used, hused, hexact⟩ := exact_of_drain hd
    refine ⟨⟨piece, used, d.accepted, d.handed⟩, rfl, ⟨hused, rfl, rfl⟩, ?_, ?_, ?_, ?_⟩
    · exact hexact.accepted_eq ▸ List.take_prefix _ _
    · exact hexact.handed_ne_nil hne
    · rw [hcuts, hexact.whole_iff]
      simp only [not_exists, not_and, not_or, ne_eq, SendAnswer.uptake_eq_failed_iff,
        SendAnswer.uptake_eq_took_iff]
    · exact not_not.trans (hexact.accepted_eq_nil_iff hne)

/-- A piece that was handed to a single `send`. -/
theorem exists_sound_of_sendOnce (hne : piece ≠ []) (hnul : 0 ∉ piece)
    (hpiece : piece.length < buffSize) {page : CArray buffSize}
    (h : sendOnce (page.overlay (piece ++ [0])) w = .ok ((), v)) :
    ∃ s : PieceSent, s.piece = piece ∧ s.Between w v ∧ s.Sound .errorMethod := by
  rw [sendOnce_overlay page hnul hpiece] at h
  have hpos := List.length_pos_of_ne_nil hne
  rcases hw : w.sends with - | ⟨n | e, rest⟩
  · rw [send_of_nil hw] at h
    cases h
  · rw [send_of_sent hw] at h
    obtain ⟨-, rfl⟩ := Prod.mk.inj (Except.ok.inj h)
    refine ⟨⟨piece, [.sent n], piece.take n, [piece]⟩, rfl, ⟨hw, rfl, rfl⟩, List.take_prefix _ _,
      List.cons_ne_nil _ _, ?_, ?_⟩
    · show piece.take n = piece ↔ ¬ ∃ a ∈ [SendAnswer.sent n], a.uptake.amount < piece.length
      simp only [List.take_eq_self_iff, List.mem_singleton, exists_eq_left, not_lt]
      rfl
    · show ¬ piece.take n ≠ [] ↔ ∀ a ∈ [SendAnswer.sent n], a.uptake.amount = 0
      rw [not_not, List.take_eq_nil_iff, or_iff_left hne, List.forall_mem_singleton]
      rfl
  · rw [send_of_err hw] at h
    obtain ⟨-, rfl⟩ := Prod.mk.inj (Except.ok.inj h)
    have hzero : (SendAnswer.err e).uptake.amount = 0 := by
      rw [SendAnswer.uptake]
      split <;> rfl
    refine ⟨⟨piece, [.err e], [], [piece]⟩, rfl, ⟨hw, (List.append_nil _).symm, rfl⟩,
      List.nil_prefix, List.cons_ne_nil _ _, ?_, ?_⟩
    · show [] = piece ↔ ¬ ∃ a ∈ [SendAnswer.err e], a.uptake.amount < piece.length
      simp only [List.mem_singleton, exists_eq_left, hzero]
      exact iff_of_false hne.symm (not_not.2 hpos)
    · show ¬ ([] : List UInt8) ≠ [] ↔ ∀ a ∈ [SendAnswer.err e], a.uptake.amount = 0
      rw [List.forall_mem_singleton, hzero]
      exact iff_of_true (not_not.2 rfl) rfl

/-- **One piece** of a page of strings. -/
theorem exists_sound (hf : f.SendsStrings) (hpieces : piece ∈ f.pieces) {page : CArray buffSize}
    (h : f.handOver (page.overlay (piece ++ [0])) w = .ok ((), v)) :
    ∃ s : PieceSent, s.piece = piece ∧ s.Between w v ∧ s.Sound f := by
  obtain ⟨hne, hnul, hpiece⟩ := f.forall_mem_pieces piece hpieces
  cases f with
  | responseOk | unknow => exact exists_sound_of_sendString (fun _ ↦ Iff.rfl) hne hnul hpiece h
  | errorMethod => exact exists_sound_of_sendOnce hne hnul hpiece h
  | badRequest | contiRequest | wrongPath | toolongUrl | badHttp => exact hf.elim

/-! ### The whole page -/

/-- **A run that returns falls into pieces.** -/
theorem exists_piecesSent (hf : f.SendsStrings) : ∀ {pieces : List (List UInt8)}
    {page : CArray buffSize} {w : Calls}, (∀ piece ∈ pieces, piece ∈ f.pieces) →
    sendPieces f.handOver pieces page w = .ok ((), w') →
    ∃ trace, PiecesSent f.handOver pieces page w trace w' ∧ ∀ s ∈ trace, s.Sound f
  | [], page, w, _, h => by
    obtain ⟨-, rfl⟩ := Prod.mk.inj (Except.ok.inj h)
    exact ⟨[], .nil, List.forall_mem_nil _⟩
  | piece :: pieces, page, w, hpieces, h => by
    obtain ⟨hmem, hrest⟩ := List.forall_mem_cons.1 hpieces
    obtain ⟨-, -, hpiece⟩ := f.forall_mem_pieces piece hmem
    rw [sendPieces_cons _ pieces page hpiece, bind_eq_ok_iff] at h
    obtain ⟨⟨⟩, v, hover, h⟩ := h
    obtain ⟨s, hs, hbetween, hsound⟩ := exists_sound hf hmem hover
    obtain ⟨trace, htrace, hall⟩ := exists_piecesSent hf hrest h
    exact ⟨s :: trace, .cons (storeAll_piece page hpiece) hover hs hbetween htrace,
      List.forall_mem_cons.2 ⟨hsound, hall⟩⟩

/-- What the pieces say about the whole. -/
theorem PiecesSent.whole {handOver : CArray buffSize → Http Unit} {pieces : List (List UInt8)}
    {page : CArray buffSize} {trace : List PieceSent}
    (h : PiecesSent handOver pieces page w trace w') :
    trace.map PieceSent.piece = pieces ∧
      w'.accepted = w.accepted ++ (trace.map PieceSent.accepted).flatten := by
  induction h with
  | nil => exact ⟨rfl, (List.append_nil _).symm⟩
  | cons _ _ hs hbetween _ ih =>
    refine ⟨?_, ?_⟩
    · rw [List.map_cons, hs, ih.1]
    · rw [ih.2, hbetween.accepted_eq, List.append_assoc, List.map_cons, List.flatten_cons]

/-- **No gap, no hole**: when nothing gets through behind a piece that was cut short, what was
accepted is a prefix. -/
theorem flatten_accepted_isPrefix {trace : List PieceSent} (hsound : ∀ s ∈ trace, s.Sound f)
    (hstops : trace.Pairwise fun s t ↦ s.accepted ≠ s.piece → ¬ t.Arrived) :
    (trace.map PieceSent.accepted).flatten <+: (trace.map PieceSent.piece).flatten := by
  induction trace with
  | nil => exact List.prefix_rfl
  | cons s trace ih =>
    obtain ⟨hs, hrest⟩ := List.forall_mem_cons.1 hsound
    obtain ⟨hafter, htail⟩ := List.pairwise_cons.1 hstops
    rw [List.map_cons, List.map_cons, List.flatten_cons, List.flatten_cons]
    by_cases hwhole : s.accepted = s.piece
    · rw [hwhole, List.prefix_append_right_inj]
      exact ih hrest htail
    · have hnone : (trace.map PieceSent.accepted).flatten = [] := by
        rw [List.flatten_eq_nil_iff]
        intro xs hxs
        obtain ⟨t, ht, rfl⟩ := List.mem_map.1 hxs
        exact not_not.1 (hafter t ht hwhole)
      rw [hnone, List.append_nil]
      exact hs.accepted_prefix.trans (List.prefix_append _ _)

/-- A law about pairs that fails whenever its first half holds is about all but the last. -/
theorem pairwise_imp_false_iff {α : Type} {P : α → Prop} : ∀ {xs : List α},
    (xs.Pairwise fun a _ ↦ ¬ P a) ↔ ∀ a ∈ xs.dropLast, ¬ P a
  | [] => iff_of_true .nil (List.forall_mem_nil _)
  | [a] => iff_of_true (List.pairwise_singleton _ _) (List.forall_mem_nil _)
  | a :: b :: xs => by
    have hall : (∀ c ∈ b :: xs, ¬ P a) ↔ ¬ P a := ⟨fun h ↦ h b List.mem_cons_self, fun h _ _ ↦ h⟩
    rw [List.pairwise_cons, hall, pairwise_imp_false_iff, List.dropLast_cons_cons,
      List.forall_mem_cons]

/-- **When a page has no holes.** For every run of `response_ok`, `unknow` or `error_method` that
returned: no piece was attempted after one that was cut short, and the bytes accepted are a prefix
of the message, if and only if no answer cut short a piece other than the last. And no byte got
through after such a piece, and the bytes accepted are a prefix, if and only if behind an answer
that cut its piece short the answers to later pieces accept nothing. -/
theorem noHoles_iff (hf : f.SendsStrings) (page : CArray buffSize)
    (hrun : f.run page w = .ok ((), w')) :
    ∃ trace, PiecesSent f.handOver f.pieces page w trace w' ∧
      (NoHoles f PieceSent.Attempted w w' trace ↔ ∀ s ∈ trace.dropLast, ¬ f.CutsShort s) ∧
      (NoHoles f PieceSent.Arrived w w' trace ↔
        trace.Pairwise fun s t ↦ f.CutsShort s → ∀ a ∈ t.answers, a.uptake.amount = 0) := by
  rw [f.run_eq] at hrun
  obtain ⟨trace, htrace, hsound⟩ := exists_piecesSent hf (fun _ h ↦ h) hrun
  obtain ⟨hpieces, haccepted⟩ := htrace.whole
  have hstart (hstops : trace.Pairwise fun s t ↦ s.accepted ≠ s.piece → ¬ t.Arrived) :
      ∃ sent, w'.accepted = w.accepted ++ sent ∧ sent <+: f.pieces.flatten :=
    ⟨_, haccepted, hpieces ▸ flatten_accepted_isPrefix hsound hstops⟩
  have hcut : ∀ s ∈ trace, s.accepted ≠ s.piece ↔ f.CutsShort s := fun s hs ↦
    (not_congr (hsound s hs).whole_iff).trans not_not
  refine ⟨trace, htrace, ?_, ?_⟩
  · -- every piece is attempted, so the law says that only the last one is cut short
    have hstops : (trace.Pairwise fun s t ↦ s.accepted ≠ s.piece → ¬ t.Attempted) ↔
        ∀ s ∈ trace.dropLast, ¬ f.CutsShort s := by
      rw [← pairwise_imp_false_iff]
      refine List.Pairwise.iff_of_mem fun {s t} hs ht ↦ ?_
      rw [hcut s hs]
      exact imp_congr_right fun _ ↦ iff_of_false (not_not.2 (hsound t ht).attempted) id
    rw [← hstops]
    refine ⟨fun h ↦ h.stops, fun h ↦ ⟨hstart ?_, h⟩⟩
    exact h.imp_of_mem fun _ ht hst hs ↦ absurd (hsound _ ht).attempted (hst hs)
  · have hstops : (trace.Pairwise fun s t ↦ s.accepted ≠ s.piece → ¬ t.Arrived) ↔
        trace.Pairwise fun s t ↦ f.CutsShort s → ∀ a ∈ t.answers, a.uptake.amount = 0 := by
      refine List.Pairwise.iff_of_mem fun {s t} hs ht ↦ ?_
      rw [hcut s hs, (hsound t ht).arrived_iff]
    rw [← hstops]
    exact ⟨fun h ↦ h.stops, fun h ↦ ⟨hstart h, h⟩⟩

/-- A client that takes everything, once the first call has failed or right from the start. -/
def takesAll (first : List SendAnswer) : Calls :=
  Calls.sending (first ++ List.replicate 4 (.sent 1024))

/-- A whole page, sent after an interruption. -/
theorem noHoles_iff_responseOk :
    ∃ w', (ResponsePage.run .responseOk (CArray.fill _ 0)) (takesAll [.err .eintr]) =
        .ok ((), w') ∧
      ∃ trace, PiecesSent (ResponsePage.handOver .responseOk) (ResponsePage.pieces .responseOk)
          (CArray.fill _ 0) (takesAll [.err .eintr]) trace w' ∧
        (NoHoles .responseOk PieceSent.Attempted (takesAll [.err .eintr]) w' trace ↔
          ∀ s ∈ trace.dropLast, ¬ ResponsePage.CutsShort .responseOk s) ∧
        (NoHoles .responseOk PieceSent.Arrived (takesAll [.err .eintr]) w' trace ↔
          trace.Pairwise fun s t ↦ ResponsePage.CutsShort .responseOk s →
            ∀ a ∈ t.answers, a.uptake.amount = 0) := by
  have hrun : (ResponsePage.run .responseOk (CArray.fill _ 0)) (takesAll [.err .eintr]) =
      .ok ((), { Calls.sending [] with
        accepted := responseOkPieces.flatten
        handed := responseOkPieces.head?.toList ++ responseOkPieces }) := by
    decide +kernel
  exact ⟨_, hrun, noHoles_iff (f := .responseOk) trivial _ hrun⟩

/-- The status line meets `EAGAIN`, and the other pieces are sent without it. -/
theorem not_noHoles_of_eagain :
    ∃ w', (ResponsePage.run .responseOk (CArray.fill _ 0)) (takesAll [.err .eagain]) =
        .ok ((), w') ∧
      w'.accepted = responseOkPieces.tail.flatten ∧
      ∀ Sent trace, ¬ NoHoles .responseOk Sent (takesAll [.err .eagain]) w' trace := by
  refine ⟨{ Calls.sending [.sent 1024] with
    accepted := responseOkPieces.tail.flatten, handed := responseOkPieces }, ?_, rfl, ?_⟩
  · decide +kernel
  · rintro Sent trace ⟨⟨sent, haccepted, hstart⟩, -⟩
    obtain rfl : responseOkPieces.tail.flatten = sent := haccepted
    revert hstart
    decide +kernel

end PreforkHttpd
