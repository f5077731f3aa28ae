import PreforkHttpd.Http.Readline

/-!
# When a request line survives its arrival

The client's socket is non-blocking, so a line can arrive in pieces, with reads in between that fail
with `EAGAIN`, or with `EINTR` when a signal comes in. A `Delivery` is one arrival of a request
line: its bytes one at a time, in order, with such failures anywhere before the newline.

`ArrivesWhole` is what the caller needs of it: whatever the buffer held and whatever the client
sends afterwards, when the retry loop ends the buffer holds the line and a NUL. Two things break it,
both seen in `requestLine`: an `EAGAIN` after the first byte makes the caller start over on the rest
of the line, and a call that has made `BUFFSIZE` reads ends where it is, the interrupted ones
included. `arrivesWhole_iff` says that nothing else does. `Unbroken` is the condition:

* no byte comes before an `EAGAIN` (`kept`);
* every stretch without an `EAGAIN` is shorter than the buffer (`short`).

`wholeFrom` is the same condition in the form the loop meets it, answer by answer
(`wholeFrom_iff_unbroken`). Where it holds the line arrives (`requestLine_of_wholeFrom`); where it
fails, one continuation of the stream shows it (`spoiled_requestLine`), because the newline ends up
in the wrong place: it is the only one, so where it is stored tells how many bytes are stored before
it.
-/

open Answered

namespace PreforkHttpd

/-- One read while a line arrives. -/
inductive Fragment
  | byte (c : UInt8)
  | eintr
  | eagain
deriving DecidableEq

namespace Fragment

/-- What the read returns. -/
def answer : Fragment → ReadAnswer
  | .byte c => .byte c
  | .eintr => .err .eintr
  | .eagain => .err .eagain

/-- What the read delivers. -/
def data : Fragment → Option UInt8
  | .byte c => some c
  | _ => none

end Fragment

/-- The bytes a list of reads delivers. -/
def text (body : List Fragment) : List UInt8 := body.filterMap Fragment.data

@[simp] theorem text_nil : text [] = [] := rfl

@[simp] theorem text_byte (c : UInt8) (body : List Fragment) :
    text (.byte c :: body) = c :: text body := rfl

@[simp] theorem text_eintr (body : List Fragment) : text (.eintr :: body) = text body := rfl

@[simp] theorem text_eagain (body : List Fragment) : text (.eagain :: body) = text body := rfl

/-- The arrival of a request line of more than one byte that fits the buffer: the reads before its
newline. -/
structure Delivery where
  body : List Fragment
  newline_notMem : newline ∉ text body
  text_ne_nil : text body ≠ []
  length_lt : (text body).length + 1 < buffSize

namespace Delivery

/-- The answers of the reads, the newline's among them, and those of a continuation. -/
def answers (d : Delivery) (more : List ReadAnswer) : List ReadAnswer :=
  d.body.map Fragment.answer ++ .byte newline :: more

/-- Whenever the retry loop ends, the buffer holds the line and a NUL. -/
def ArrivesWhole (d : Delivery) : Prop :=
  ∀ (buf b : CArray buffSize) (more : List ReadAnswer) (w w' : Calls),
    w.reads = d.answers more → readRequest buf w = .ok (b, w') →
      text d.body ++ [newline, 0] <+: b.bytes

end Delivery

/-- No `EAGAIN` forgets a byte, and no call runs out of rounds. -/
structure Unbroken (body : List Fragment) : Prop where
  kept : ∀ p, p ++ [.eagain] <+: body → text p = []
  short : ∀ p, p <:+: body → .eagain ∉ p → p.length < buffSize

/-! ### The condition, answer by answer -/

/-- The rest of the arrival goes well, `i` rounds into a call that has stored `k` bytes. -/
def wholeFrom : List Fragment → ℕ → ℕ → Prop
  | [], i, _ => i < buffSize
  | .byte _ :: body, i, k => i < buffSize ∧ wholeFrom body (i + 1) (k + 1)
  | .eintr :: body, i, k => i < buffSize ∧ wholeFrom body (i + 1) k
  | .eagain :: body, i, k => i < buffSize ∧ k = 0 ∧ wholeFrom body 0 0

variable {body : List Fragment} {i k : ℕ}

theorem lt_of_wholeFrom (h : wholeFrom body i k) : i < buffSize := by
  cases body with
  | nil => exact h
  | cons f body => cases f <;> exact h.1

/-- The condition in between: the call in progress has `i` rounds and `k` bytes behind it. -/
structure UnbrokenFrom (body : List Fragment) (i k : ℕ) : Prop where
  kept : ∀ p, p ++ [.eagain] <+: body → k = 0 ∧ text p = []
  first : ∀ p, p <+: body → .eagain ∉ p → i + p.length < buffSize
  short : ∀ p, p <:+: body → .eagain ∉ p → p.length < buffSize

/-- A read that is not an `EAGAIN` belongs to the stretch in progress, and to its call. -/
theorem unbrokenFrom_cons_iff {f : Fragment} {k' : ℕ} (hf : f ≠ .eagain)
    (hkept : ∀ p, k = 0 ∧ text (f :: p) = [] ↔ k' = 0 ∧ text p = []) :
    UnbrokenFrom (f :: body) i k ↔ i < buffSize ∧ UnbrokenFrom body (i + 1) k' := by
  have hmem : ∀ p : List Fragment, .eagain ∉ p → .eagain ∉ f :: p := fun p hp h ↦
    (List.mem_cons.1 h).elim (fun h ↦ hf h.symm) hp
  constructor
  · intro h
    refine ⟨h.first [] List.nil_prefix nofun, fun p hp ↦ ?_, fun p hp hn ↦ ?_, fun p hp ↦ ?_⟩
    · exact (hkept p).1 (h.kept (f :: p) (List.cons_prefix_cons.2 ⟨rfl, hp⟩))
    · have hlt := h.first (f :: p) (List.cons_prefix_cons.2 ⟨rfl, hp⟩) (hmem p hn)
      rw [List.length_cons] at hlt
      omega
    · exact h.short p (List.infix_cons_iff.2 (Or.inr hp))
  · rintro ⟨hi, h⟩
    have hfirst : ∀ p, p <+: f :: body → .eagain ∉ p → i + p.length < buffSize := by
      intro p hp hn
      obtain rfl | ⟨q, rfl, hq⟩ := List.prefix_cons_iff.1 hp
      · exact hi
      · have hlt := h.first q hq fun hmem ↦ hn (List.mem_cons_of_mem _ hmem)
        rw [List.length_cons]
        omega
    refine ⟨fun p hp ↦ ?_, hfirst, fun p hp hn ↦ ?_⟩
    · cases p with
      | nil => exact absurd (List.cons_prefix_cons.1 hp).1.symm hf
      | cons g q =>
        obtain ⟨rfl, hq⟩ := List.cons_prefix_cons.1 hp
        exact (hkept q).2 (h.kept q hq)
    · rcases List.infix_cons_iff.1 hp with hp | hp
      · have hlt := hfirst p hp hn
        omega
      · exact h.short p hp hn

/-- An `EAGAIN` ends the stretch in progress, and forgets what its call has stored. -/
theorem unbrokenFrom_eagain_iff :
    UnbrokenFrom (.eagain :: body) i k ↔ i < buffSize ∧ k = 0 ∧ UnbrokenFrom body 0 0 := by
  constructor
  · intro h
    refine ⟨h.first [] List.nil_prefix nofun,
      (h.kept [] (List.cons_prefix_cons.2 ⟨rfl, List.nil_prefix⟩)).1,
      fun p hp ↦ ?_, fun p hp hn ↦ ?_, fun p hp ↦ ?_⟩
    · exact ⟨rfl, (h.kept (.eagain :: p) (List.cons_prefix_cons.2 ⟨rfl, hp⟩)).2⟩
    · rw [Nat.zero_add]
      exact h.short p (List.infix_cons_iff.2 (Or.inr hp.isInfix)) hn
    · exact h.short p (List.infix_cons_iff.2 (Or.inr hp))
  · rintro ⟨hi, rfl, h⟩
    have hnil : ∀ p, p <+: .eagain :: body → .eagain ∉ p → p = [] := by
      intro p hp hn
      obtain rfl | ⟨q, rfl, -⟩ := List.prefix_cons_iff.1 hp
      · rfl
      · exact absurd List.mem_cons_self hn
    refine ⟨fun p hp ↦ ?_, fun p hp hn ↦ ?_, fun p hp hn ↦ ?_⟩
    · cases p with
      | nil => exact ⟨rfl, rfl⟩
      | cons g q =>
        obtain ⟨rfl, hq⟩ := List.cons_prefix_cons.1 hp
        exact h.kept q hq
    · rw [hnil p hp hn]
      exact hi
    · rcases List.infix_cons_iff.1 hp with hp | hp
      · rw [hnil p hp hn]
        exact lt_of_le_of_lt (Nat.zero_le i) hi
      · exact h.short p hp hn

theorem wholeFrom_iff : ∀ {body : List Fragment} {i k : ℕ},
    wholeFrom body i k ↔ UnbrokenFrom body i k
  | [], i, k => by
    refine ⟨fun hi ↦ ⟨fun p hp ↦ ?_, fun p hp _ ↦ ?_, fun p hp _ ↦ ?_⟩,
      fun h ↦ h.first [] List.nil_prefix nofun⟩
    · exact absurd (List.prefix_nil.1 hp) (List.append_ne_nil_of_right_ne_nil _ nofun)
    · rw [List.prefix_nil.1 hp]
      exact hi
    · rw [List.infix_nil.1 hp]
      decide
  | .byte c :: body, i, k => by
    have hkept : ∀ p, k = 0 ∧ text (.byte c :: p) = [] ↔ k + 1 = 0 ∧ text p = [] := fun p ↦
      ⟨fun h ↦ absurd h.2 (List.cons_ne_nil _ _), fun h ↦ absurd h.1 (Nat.succ_ne_zero k)⟩
    have hne : Fragment.byte c ≠ .eagain := nofun
    rw [wholeFrom, wholeFrom_iff, unbrokenFrom_cons_iff hne hkept]
  | .eintr :: body, i, k => by
    have hne : Fragment.eintr ≠ .eagain := nofun
    rw [wholeFrom, wholeFrom_iff, unbrokenFrom_cons_iff hne fun p ↦ Iff.rfl]
  | .eagain :: body, i, k => by
    rw [wholeFrom, wholeFrom_iff, unbrokenFrom_eagain_iff]

/-- At the start of the arrival the two forms of the condition agree. -/
theorem wholeFrom_iff_unbroken : wholeFrom body 0 0 ↔ Unbroken body := by
  rw [wholeFrom_iff]
  refine ⟨fun h ↦ ⟨fun p hp ↦ (h.kept p hp).2, h.short⟩, fun h ↦ ⟨?_, ?_, h.short⟩⟩
  · exact fun p hp ↦ ⟨rfl, h.kept p hp⟩
  · intro p hp hn
    rw [Nat.zero_add]
    exact h.short p hp.isInfix hn

/-! ### Where the line arrives -/

variable {acc : List UInt8} {under : CArray buffSize}

/-- **An unbroken arrival** ends with the line stored and nothing of the continuation read. -/
theorem requestLine_of_wholeFrom (more : List ReadAnswer) : ∀ (body : List Fragment) {i : ℕ}
    (acc : List UInt8) (under : CArray buffSize), wholeFrom body i acc.length →
      newline ∉ text body → acc.length ≤ i → (acc ≠ [] ∨ text body ≠ []) →
      ∃ under', requestLine (body.map Fragment.answer ++ .byte newline :: more) i acc under =
        some ⟨acc ++ text body ++ [newline], under', more⟩
  | [], i, acc, under, hwhole, _, hacc, hne => by
    have hpos : 0 < acc.length := List.length_pos_iff.2 (hne.resolve_right fun h ↦ h rfl)
    refine ⟨under, ?_⟩
    rw [List.map_nil, List.nil_append, requestLine, if_neg (lt_of_wholeFrom hwhole).ne,
      if_neg (not_not.2 rfl), if_neg (by omega), text_nil, List.append_nil]
  | .byte c :: body, i, acc, under, ⟨hi, hwhole⟩, hnl, hacc, _ => by
    have hlength : (acc ++ [c]).length = acc.length + 1 := by
      rw [List.length_append, List.length_singleton]
    rw [← hlength] at hwhole
    rw [text_byte, List.mem_cons, not_or] at hnl
    obtain ⟨under', h⟩ := requestLine_of_wholeFrom more body _ under hwhole hnl.2 (by omega)
      (Or.inl (List.append_ne_nil_of_right_ne_nil _ (List.cons_ne_nil _ _)))
    refine ⟨under', ?_⟩
    rw [List.map_cons, List.cons_append, Fragment.answer, requestLine, if_neg hi.ne,
      if_pos (Ne.symm hnl.1), h, text_byte, List.append_assoc acc, List.singleton_append]
  | .eintr :: body, i, acc, under, ⟨hi, hwhole⟩, hnl, hacc, hne => by
    obtain ⟨under', h⟩ := requestLine_of_wholeFrom more body acc under hwhole hnl (by omega) hne
    refine ⟨under', ?_⟩
    rw [List.map_cons, List.cons_append, Fragment.answer, requestLine, if_neg hi.ne, if_pos rfl, h,
      text_eintr]
  | .eagain :: body, i, acc, under, ⟨hi, hzero, hwhole⟩, hnl, _, hne => by
    obtain rfl : acc = [] := List.eq_nil_of_length_eq_zero hzero
    obtain ⟨under', h⟩ := requestLine_of_wholeFrom more body [] (under.overlay []) hwhole hnl
      (le_refl 0) hne
    refine ⟨under', ?_⟩
    rw [List.map_cons, List.cons_append, Fragment.answer, requestLine, if_neg hi.ne,
      if_neg (by decide), h, text_eagain]

/-! ### Where it does not -/

/-- The loop ends with a line that fits, and the buffer does not hold `target` and a newline. -/
def Spoiled (target : List UInt8) : Option Arrival → Prop
  | none => False
  | some a => a.line.length < buffSize ∧
    ¬ target ++ [newline, 0] <+: (a.under.overlay (a.line ++ [0])).bytes

/-- No newline was stored. -/
theorem spoiled_of_notMem {line target : List UInt8} {rest : List ReadAnswer}
    (hlt : line.length < buffSize) (hline : newline ∉ line) (hunder : newline ∉ under.bytes) :
    Spoiled target (some ⟨line, under, rest⟩) := by
  refine ⟨hlt, fun h ↦ ?_⟩
  have hmem := h.subset (List.mem_append_right target List.mem_cons_self)
  rw [CArray.bytes_overlay _ (CArray.length_concat_le hlt), List.mem_append, List.mem_append,
    List.mem_singleton] at hmem
  rcases hmem with (hmem | hmem) | hmem
  · exact hline hmem
  · exact absurd hmem (by decide)
  · exact hunder (List.mem_of_mem_drop hmem)

/-- Another byte was stored at some place of the line. -/
theorem spoiled_of_getElem? {xs target : List UInt8} {rest : List ReadAnswer} {j : ℕ} {c : UInt8}
    (hlt : xs.length < buffSize) (hxs : xs[j]? = some c) (hj : j < target.length)
    (htarget : target[j]? ≠ some c) : Spoiled target (some ⟨xs, under, rest⟩) := by
  refine ⟨hlt, fun h ↦ htarget ?_⟩
  have hprefix := (List.prefix_append xs [0]).trans
    (CArray.prefix_bytes_overlay under (CArray.length_concat_le hlt))
  have hb := List.prefix_iff_getElem?.1 ((List.prefix_append target _).trans h) j hj
  obtain ⟨hjxs, rfl⟩ := List.getElem?_eq_some_iff.1 hxs
  rw [List.prefix_iff_getElem?.1 hprefix j hjxs] at hb
  exact (List.getElem?_eq_getElem hj).trans hb.symm

/-- **A call that ends too early** does so at the newline, or, when it has nothing but that, one
line later. -/
theorem spoiled_of_short {target : List UInt8} {c : UInt8} {i : ℕ} (htarget : newline ∉ target)
    (hlength : target.length + 1 < buffSize) (hc : c ≠ newline) (hfirst : target[0]? ≠ some c)
    (hlt : i < buffSize) (hshort : acc.length < target.length) :
    Spoiled target (requestLine [.byte newline, .byte c, .byte newline] i acc under) := by
  rw [requestLine, if_neg hlt.ne, if_neg (not_not.2 rfl)]
  rcases eq_or_ne i 0 with hzero | hne
  · -- the newline alone is an empty result, and the next line is taken for this one
    rw [if_pos hzero, requestLine, if_neg (by decide), if_pos hc, requestLine,
      if_neg (by decide), if_neg (not_not.2 rfl), if_neg (by decide)]
    exact spoiled_of_getElem? (show 2 < buffSize by decide) rfl (by omega) hfirst
  · rw [if_neg hne]
    refine spoiled_of_getElem? ?_ List.getElem?_concat_length hshort fun h ↦ ?_
    · rw [List.length_append, List.length_singleton]
      omega
    · exact htarget (List.mem_of_getElem? h)

/-- **A broken arrival** is spoiled by the continuation `c, newline`, where `c` is not the first
byte of the line `target`. The call in progress has stored `acc`; either the rest of the arrival is
broken, or bytes have been forgotten before. -/
theorem spoiled_requestLine {target : List UInt8} {c : UInt8} (htarget : newline ∉ target)
    (hlength : target.length + 1 < buffSize) (hc : c ≠ newline) (hfirst : target[0]? ≠ some c) :
    ∀ (body : List Fragment) (i : ℕ) (acc : List UInt8) (under : CArray buffSize),
      newline ∉ text body → newline ∉ acc → newline ∉ under.bytes → acc.length ≤ i →
      i ≤ buffSize → acc.length + (text body).length ≤ target.length →
      (wholeFrom body i acc.length → acc.length + (text body).length < target.length) →
      Spoiled target (requestLine
        (body.map Fragment.answer ++ [.byte newline, .byte c, .byte newline]) i acc under) := by
  intro body
  induction body with
  | nil =>
    intro i acc under _ hacc hunder hi hfull hle hbad
    rw [List.map_nil, List.nil_append]
    rcases eq_or_lt_of_le hfull with rfl | hlt
    · rw [requestLine_full]
      exact spoiled_of_notMem (by omega) hacc hunder
    · exact spoiled_of_short htarget hlength hc hfirst hlt (hbad hlt)
  | cons f body ih =>
    intro i acc under hbody hacc hunder hi hfull hle hbad
    rcases eq_or_lt_of_le hfull with rfl | hlt
    · rw [requestLine_full]
      exact spoiled_of_notMem (by omega) hacc hunder
    · rw [List.map_cons, List.cons_append]
      cases f with
      | byte b =>
        have hlength' : (acc ++ [b]).length = acc.length + 1 := by
          rw [List.length_append, List.length_singleton]
        rw [text_byte, List.mem_cons, not_or] at hbody
        rw [text_byte, List.length_cons] at hle hbad
        rw [Fragment.answer, requestLine, if_neg hlt.ne, if_pos (Ne.symm hbody.1)]
        refine ih _ _ _ hbody.2 ?_ hunder (by omega) hlt (by omega) fun hwhole ↦ ?_
        · rw [List.mem_append, List.mem_singleton, not_or]
          exact ⟨hacc, hbody.1⟩
        · rw [hlength'] at hwhole ⊢
          have := hbad ⟨hlt, hwhole⟩
          omega
      | eintr =>
        rw [Fragment.answer, requestLine, if_neg hlt.ne, if_pos rfl]
        exact ih _ _ _ hbody hacc hunder (by omega) hlt hle fun hwhole ↦ hbad ⟨hlt, hwhole⟩
      | eagain =>
        rw [text_eagain] at hle hbad
        rw [Fragment.answer, requestLine, if_neg hlt.ne, if_neg (by decide)]
        refine ih _ _ _ hbody List.not_mem_nil ?_ (le_refl 0) (Nat.zero_le _)
          (by rw [List.length_nil]; omega) fun hwhole ↦ ?_
        · rw [CArray.bytes_overlay _ (by omega), List.mem_append, not_or]
          exact ⟨hacc, fun h ↦ hunder (List.mem_of_mem_drop h)⟩
        · -- what the failed call had stored is missing from now on
          rw [List.length_nil, Nat.zero_add]
          by_cases hzero : acc.length = 0
          · have := hbad ⟨hlt, hzero, hwhole⟩
            omega
          · omega

/-! ### When the line arrives whole -/

namespace Delivery

variable (d : Delivery)

/-- **An unbroken arrival is read whole**: the loop ends, the buffer holds the line and a NUL, and
what the client sends next is still to be read. -/
theorem readRequest_of_unbroken (h : Unbroken d.body) (buf : CArray buffSize)
    {more : List ReadAnswer} {w : Calls} (hw : w.reads = d.answers more) :
    ∃ b, readRequest buf w = .ok (b, { w with reads := more }) ∧
      text d.body ++ [newline, 0] <+: b.bytes := by
  obtain ⟨under, hline⟩ := requestLine_of_wholeFrom more d.body [] buf
    (wholeFrom_iff_unbroken.2 h) d.newline_notMem (le_refl 0) (Or.inr d.text_ne_nil)
  have hlt : ([] ++ text d.body ++ [newline]).length < buffSize := by
    rw [List.nil_append, List.length_append]
    exact d.length_lt
  refine ⟨under.overlay (text d.body ++ [newline] ++ [0]), ?_, ?_⟩
  · rw [readRequest_eq_outcome, hw, answers, hline, outcome]
    exact if_pos hlt
  · rw [← List.append_cons]
    refine CArray.prefix_bytes_overlay under ?_
    rw [List.append_cons]
    exact CArray.length_concat_le hlt

/-- A broken arrival can be followed by bytes that show it. -/
theorem not_arrivesWhole_of_not_unbroken (h : ¬ Unbroken d.body) : ¬ d.ArrivesWhole := by
  intro hwhole
  obtain ⟨c, hc, hfirst⟩ : ∃ c : UInt8, c ≠ newline ∧ (text d.body)[0]? ≠ some c := by
    by_cases hzero : (text d.body)[0]? = some 0
    · exact ⟨1, by decide, hzero ▸ nofun⟩
    · exact ⟨0, by decide, hzero⟩
  have hfill : newline ∉ (CArray.fill buffSize 0).bytes := fun hmem ↦
    absurd (List.eq_of_mem_replicate hmem) (by decide)
  have hspoiled := spoiled_requestLine d.newline_notMem d.length_lt hc hfirst d.body 0 []
    (CArray.fill buffSize 0) d.newline_notMem List.not_mem_nil hfill (le_refl 0) (Nat.zero_le _)
    (by rw [List.length_nil]; omega) fun hw ↦ absurd (wholeFrom_iff_unbroken.1 hw) h
  have hrun := readRequest_eq_outcome (CArray.fill buffSize 0)
    (Calls.reading (d.answers [.byte c, .byte newline]))
  dsimp only [answers, Calls.reading] at hrun
  match ha : requestLine (d.body.map Fragment.answer ++ [.byte newline, .byte c, .byte newline])
      0 [] (CArray.fill buffSize 0) with
  | none =>
    rw [ha] at hspoiled
    exact hspoiled
  | some a =>
    rw [ha] at hspoiled hrun
    rw [outcome, if_pos hspoiled.1] at hrun
    exact hspoiled.2 (hwhole _ _ _ _ _ rfl hrun)

/-- **When a request line survives its arrival**: the buffer ends up with the line and a NUL,
whatever it held before and whatever comes afterwards, if and only if no byte comes before an
`EAGAIN` and no stretch without one is as long as the buffer. -/
theorem arrivesWhole_iff : d.ArrivesWhole ↔ Unbroken d.body := by
  constructor
  · intro h
    by_contra hbroken
    exact d.not_arrivesWhole_of_not_unbroken hbroken h
  · intro h buf b more w w' hw hrun
    obtain ⟨b', hrun', hholds⟩ := d.readRequest_of_unbroken h buf hw
    rw [hrun] at hrun'
    obtain ⟨rfl, -⟩ := Prod.mk.inj (Except.ok.inj hrun')
    exact hholds

/-- `GET /`, with an `EAGAIN` after the first byte. -/
def eagainAfterByte : Delivery where
  body := [.byte 71, .eagain, .byte 69, .byte 84, .byte 32, .byte 47]
  newline_notMem := by decide
  text_ne_nil := by decide
  length_lt := by decide

/-- The buffer holds `ET /` and a newline. -/
theorem not_arrivesWhole_of_eagainAfterByte :
    ∃ b w w', w.reads = eagainAfterByte.answers [] ∧
      readRequest (CArray.fill buffSize 0) w = .ok (b, w') ∧ b.cstr = [69, 84, 32, 47, 10] ∧
      ¬ eagainAfterByte.ArrivesWhole := by
  refine ⟨_, Calls.reading (eagainAfterByte.answers []), _, rfl, readRequest_eq_outcome _ _,
    CArray.cstr_overlay (by decide), ?_⟩
  refine not_arrivesWhole_of_not_unbroken _ fun h ↦ ?_
  exact absurd (h.kept [.byte 71] ⟨_, rfl⟩) (by decide)

end Delivery

end PreforkHttpd
