import PreforkHttpd.Transition.PartialRun
import PreforkHttpd.Io.ReadPrefix
import PreforkHttpd.Io.WriteS

/-!
# How `Write_s` and `Read_s` go together

`sock.h` and `common.h` have the two loops as a pair, and each of them alone is treated in
`Io.WriteS` and `Io.ReadPrefix`. Here one process writes a buffer with `Write_s` to one end of a
pipe and closes it, and another one reads with `Read_s` from the other end. In between the kernel
holds up to `capacity` bytes: a `write` waits while there is no room and takes as much as it likes
of what fits, and a `read` waits while there is nothing and gets as much as it likes of what is
there. No call fails, the reading end stays open, and the steps of the two come in any order.

The steps are the rounds of the two loops as they are, each on its own cursor, and the kernel's part
of a step is the number of bytes. What a state of a run looks like is `At`: the writer is behind the
first `p` bytes, the reader behind the first `q`, and the bytes in between are on the way. So the
reader has the right bytes whenever it returns, and no run goes on for ever (`weight`). The transfer
does not get stuck either, provided that what the reader does not ask for fits in between: the
writer waits for room only while the reader still makes some.
-/

open Answered LabelledRun

namespace PreforkHttpd

/-- The two loops, the bytes on their way, and whether the writing end is closed. -/
structure Transfer (sz : ℕ) where
  writer : WriteCursor ⊕ ℤ
  wire : List UInt8
  closed : Bool
  reader : ReadSCursor sz ⊕ ℤ × CArray sz

/-- What happens. -/
inductive TransferAct
  /-- A round of `Write_s`, whose `write`, if it makes one, may take `k` bytes. -/
  | write (k : ℕ)
  /-- The writer closes its end. -/
  | close
  /-- A round of `Read_s`, whose `read`, if it makes one, may get `k` bytes. -/
  | read (k : ℕ)
deriving DecidableEq

namespace Transfer

variable {sz : ℕ}

/-- A round of `Write_s`, with room for `k` bytes if it is about to write. -/
def write (capacity : ℕ) (buf : List UInt8) (s : Transfer sz) (k : ℕ) : Option (Transfer sz) :=
  match s.writer with
  | .inl c =>
    if 0 < c.nleft → 0 < k ∧ s.wire.length + k ≤ capacity then
      match (writeSLoop buf.length).body buf c ⟨[.sent k], []⟩ with
      | .ok (writer, w) => some { s with writer := writer, wire := s.wire ++ w.accepted }
      | .error _ => none
    else none
  | .inr _ => none

/-- A round of `Read_s`, with `k` bytes on the way if it is about to read, or none and the other end
closed. -/
def read (s : Transfer sz) (k : ℕ) : Option (Transfer sz) :=
  match s.reader with
  | .inl c =>
    if 0 < c.nleft → k ≤ s.wire.length ∧ (k = 0 → s.wire = [] ∧ s.closed) then
      match ReadSCursor.round sz c ⟨[.count k], (s.wire.getD · 0), 0⟩ with
      | .ok (reader, w) => some { s with reader := reader, wire := s.wire.drop w.pos }
      | .error _ => none
    else none
  | .inr _ => none

/-- One step. -/
def step (capacity : ℕ) (buf : List UInt8) (s : Transfer sz) : TransferAct → Option (Transfer sz)
  | .write k => s.write capacity buf k
  | .close => if s.writer.isRight ∧ ¬ s.closed then some { s with closed := true } else none
  | .read k => s.read k

/-- Both loops begin. -/
def initial (buf : List UInt8) (buffer : CArray sz) : Transfer sz where
  writer := .inl ⟨0, buf.length⟩
  wire := []
  closed := false
  reader := .inl ⟨sizeT sz, 0, buffer⟩

end Transfer

/-! ### A round of each loop -/

section Rounds

variable {buf : Block} {p q k : ℕ}

/-- **A round of `Write_s`** behind the first `p` bytes: the `write` takes the next ones. -/
theorem body_writeS (hp : p < buf.1.length) (hk : 0 < k) :
    ∃ j, 0 < j ∧ j ≤ k ∧ p + j ≤ buf.1.length ∧
      (writeSLoop buf.1.length).body buf.1 ⟨p, (buf.1.length - p : ℕ)⟩ ⟨[.sent k], []⟩ =
        .ok (.inl ⟨(p + j : ℕ), (buf.1.length - (p + j) : ℕ)⟩, ⟨[], (buf.1.drop p).take j⟩) := by
  have hlength := buf.2
  obtain ⟨j, hj⟩ : ∃ j, j = min k (buf.1.length - p) := ⟨_, rfl⟩
  refine ⟨j, by omega, by omega, by omega, ?_⟩
  have hclip : (SendAnswer.sent k).clip ((buf.1.length - p : ℕ) : ℤ) = .sent j := by
    rw [SendAnswer.clip, Int.toNat_natCast, hj]
  have hwrite : writeFrom buf.1 p (buf.1.length - p : ℕ) ⟨[.sent k], []⟩ =
      .ok (.sent j, ⟨[], (buf.1.drop p).take j⟩) := by
    rw [writeFrom, if_pos (by omega)]
    simp only [hclip]
    rfl
  have hafter : (writeSLoop buf.1.length).after ⟨p, (buf.1.length - p : ℕ)⟩ (.sent j) =
      .ok (.inl ⟨(p + j : ℕ), (buf.1.length - (p + j) : ℕ)⟩) := by
    have hvalue : sizeT (SendAnswer.sent j).value = j := sizeT_of_lt (by
      rw [SendAnswer.value]
      omega) (by
      rw [SendAnswer.value]
      omega)
    rw [WriteLoop.after]
    simp only [hvalue]
    rw [if_neg (by omega), if_neg (by omega), WriteLoop.advance, ssize_of_lt (by omega) (by omega)]
    dsimp only [writeSLoop]
    rw [ssize_of_lt (by omega) (by omega)]
    congr 3
    omega
  have hleft : (0 : ℤ) < (buf.1.length - p : ℕ) := by omega
  rw [WriteLoop.body, if_pos hleft, writeSLoop_request, bind_of_ok hwrite, hafter]
  rfl

/-- The round of `Write_s` with nothing left: it returns. -/
theorem body_writeS_done (buf : Block) (w : Output) :
    (writeSLoop buf.1.length).body buf.1 ⟨buf.1.length, 0⟩ w = .ok (.inr buf.1.length, w) := by
  have hlength := buf.2
  refine WriteLoop.body_of_done (lt_irrefl (0 : ℤ)) ?_ w
  rw [writeSLoop_result, writeSResult, if_pos (by dsimp only; omega)]
  dsimp only
  rw [Int.sub_zero, sizeT_of_lt (by omega) (by omega)]

variable {sz : Size} {xs : List UInt8} {f : ℕ → UInt8} {buffer : CArray sz.1}

/-- **A round of `Read_s`** behind the first `q` bytes, `xs`: the `read` gets the next ones. -/
theorem round_readS (hxs : xs.length = q) (hq : q < sz.1) (k : ℕ) :
    ∃ j, j = min k (sz.1 - q) ∧
      ReadSCursor.round sz.1 ⟨(sz.1 - q : ℕ), q, CArray.overlay xs buffer⟩ ⟨[.count k], f, 0⟩ =
        .ok (if 0 < j then
            .inl ⟨(sz.1 - (q + j) : ℕ), q + j, CArray.overlay (xs ++ firstOf f j) buffer⟩
          else .inr (q, CArray.overlay xs buffer),
          ⟨[], f, j⟩) := by
  have hsz := sz.2
  obtain ⟨j, hj⟩ : ∃ j, j = min k (sz.1 - q) := ⟨_, rfl⟩
  refine ⟨j, hj, ?_⟩
  have hread : readInto (CArray.overlay xs buffer) q (sz.1 - q) ⟨[.count k], f, 0⟩ =
      .ok ((.received (firstOf f j), CArray.overlay (xs ++ firstOf f j) buffer), ⟨[], f, j⟩) := by
    have hanswer : (ReadReturn.count k).answer ⟨[.count k], f, 0⟩ (sz.1 - q) =
        .received (firstOf f j) := by
      rw [ReadReturn.answer, ← hj, Input.upcoming]
      simp only [Nat.zero_add]
    have hpos : 0 + (ReadReturn.count k).amount (sz.1 - q) = j := by
      rw [ReadReturn.amount, ← hj, Nat.zero_add]
    have hlength : (xs ++ firstOf f j).length ≤ sz.1 := by
      rw [List.length_append, length_firstOf, hxs]
      omega
    rw [readInto, bind_of_ok (readStream_of_cons rfl), hanswer, hpos, ← hxs]
    exact bind_of_ok (lift_of_ok (CArray.storeAll_overlay IoFault.index buffer hlength) _)
  have hleft : (0 : ℤ) < (sz.1 - q : ℕ) := by omega
  have hresult : sizeT (sz.1 - ((sz.1 - q : ℕ) : ℤ)) = q := by
    rw [sizeT_of_lt] <;> omega
  have hvalue : (RecvAnswer.received (firstOf f j)).value = j :=
    congrArg (Nat.cast : ℕ → ℤ) (length_firstOf f j)
  rw [ReadSCursor.round, if_pos hleft]
  dsimp only
  rw [Int.toNat_natCast, bind_of_ok hread]
  refine congrArg (fun x ↦ Except.ok (x, _)) ?_
  rw [ReadSCursor.after]
  simp only [hvalue]
  rw [if_neg (by omega)]
  rcases Nat.eq_zero_or_pos j with rfl | hpos
  · simp only [firstOf, List.range_zero, List.map_nil, List.append_nil, hresult]
    rfl
  · have hnleft : sizeT (((sz.1 - q : ℕ) : ℤ) - j) = (sz.1 - (q + j) : ℕ) := by
      rw [sizeT_of_lt] <;> omega
    rw [if_neg (by omega), if_pos hpos, ReadSCursor.advance]
    simp only [hnleft, Int.toNat_natCast]

/-- The round of `Read_s` with nothing left: it returns. -/
theorem round_readS_done (sz : Size) (buffer : CArray sz.1) (w : Input) :
    ReadSCursor.round sz.1 ⟨0, sz.1, buffer⟩ w = .ok (.inr (sz.1, buffer), w) := by
  have hsz := sz.2
  rw [ReadSCursor.round, if_neg (lt_irrefl 0), Int.sub_zero, sizeT_of_lt (by omega) (by omega)]
  rfl

end Rounds

/-! ### A state of a run -/

/-- The writer is behind the first `p` bytes, the reader behind the first `q`, and the bytes in
between are on the way. A loop that has returned has done all it could. -/
structure Transfer.At {sz : ℕ} (buf : List UInt8) (buffer : CArray sz) (p q : ℕ) (s : Transfer sz) :
    Prop where
  writer : s.writer = .inl ⟨p, (buf.length - p : ℕ)⟩ ∨ s.writer = .inr buf.length ∧ p = buf.length
  reader : s.reader = .inl ⟨(sz - q : ℕ), q, CArray.overlay (buf.take q) buffer⟩ ∨
    s.reader = .inr (q, CArray.overlay (buf.take q) buffer) ∧ q = min buf.length sz
  wire : buf.take p = buf.take q ++ s.wire
  written_le : p ≤ buf.length
  read_le : q ≤ p ∧ q ≤ sz
  closed : s.closed = true → s.writer = .inr buf.length

namespace Transfer

variable {sz : Size} {buf : Block} {buffer : CArray sz.1} {capacity p q k : ℕ}
  {s s' t : Transfer sz.1} {acts : List TransferAct}

theorem at_initial (buf : Block) (buffer : CArray sz.1) :
    (initial buf.1 buffer).At buf.1 buffer 0 0 where
  writer := Or.inl rfl
  reader := by
    have hsz := sz.2
    refine Or.inl ?_
    rw [initial, List.take_zero, CArray.overlay_nil, sizeT_of_lt (by omega) (by omega)]
    rfl
  wire := rfl
  written_le := Nat.zero_le _
  read_le := ⟨Nat.zero_le _, Nat.zero_le _⟩
  closed := nofun

/-- How much is on the way. -/
theorem At.length_wire (hs : s.At buf.1 buffer p q) : q + s.wire.length = p := by
  have hlength := congrArg List.length hs.wire
  have hle := hs.written_le
  have hle' := hs.read_le.1
  rw [List.length_append, List.length_take, List.length_take] at hlength
  omega

/-- The bytes on the way are the next ones of the buffer. -/
theorem At.take_add {j : ℕ} (hs : s.At buf.1 buffer p q) (hj : j ≤ s.wire.length) :
    buf.1.take (q + j) = buf.1.take q ++ s.wire.take j := by
  have hlength := hs.length_wire
  have hq : (buf.1.take q).length = q := List.length_take_of_le (by
    have := hs.written_le
    omega)
  have hp : buf.1.take (q + j) = (buf.1.take p).take (q + j) := by
    rw [List.take_take, Nat.min_eq_left (by omega)]
  rw [hp, hs.wire, List.take_append, hq, Nat.add_sub_cancel_left, List.take_of_length_le (by omega)]

/-- What a `read` gets off the wire. -/
theorem firstOf_getD (xs : List UInt8) {j : ℕ} (hj : j ≤ xs.length) :
    firstOf (xs.getD · 0) j = xs.take j := by
  refine List.ext_getElem? fun i ↦ ?_
  by_cases hi : i < j
  · rw [getElem?_firstOf _ hi, List.getElem?_take_of_lt hi,
      List.getD_eq_getElem?_getD, List.getElem?_eq_getElem (hi.trans_le hj), Option.getD_some]
  · rw [List.getElem?_eq_none, List.getElem?_eq_none]
    · rw [List.length_take]
      omega
    · rw [length_firstOf]
      omega

/-! ### What the steps do -/

/-- How many rounds are left at most, with the `close`. -/
def weight (s : Transfer sz.1) : ℕ :=
  (match s.writer with
    | .inl c => c.nleft.toNat + 1
    | .inr _ => 0) +
  (if s.closed then 0 else 1) +
  match s.reader with
  | .inl c => c.nleft.toNat + 1
  | .inr _ => 0

/-- **A round of the writer.** -/
theorem At.write (hs : s.At buf.1 buffer p q) (h : s.write capacity buf.1 k = some s') :
    (∃ p', s'.At buf.1 buffer p' q) ∧ s'.weight < s.weight := by
  obtain ⟨hwriter, hreader, hwire, hle, hread, hclosed⟩ := hs
  rcases hwriter with hwriter | ⟨hwriter, -⟩
  · have hopen : s.closed ≠ true := fun hc ↦ by
      have := hclosed hc
      rw [hwriter] at this
      cases this
    rw [Transfer.write, hwriter] at h
    dsimp only at h
    obtain ⟨hroom, h⟩ := Option.ite_none_right_eq_some.1 h
    rcases hle.lt_or_eq with hlt | rfl
    · have hk := (hroom (by omega)).1
      obtain ⟨j, hpos, -, hend, hbody⟩ := body_writeS hlt hk
      rw [hbody] at h
      obtain rfl := Option.some.inj h
      refine ⟨⟨p + j, Or.inl rfl, hreader, ?_, hend, ⟨by omega, hread.2⟩,
        fun hc ↦ absurd hc hopen⟩, ?_⟩
      · rw [List.take_add, hwire, List.append_assoc]
      · simp only [weight, hwriter, Int.toNat_natCast]
        omega
    · rw [Nat.sub_self] at h
      have hdone : (writeSLoop buf.1.length).body buf.1 ⟨buf.1.length, (0 : ℕ)⟩ ⟨[.sent k], []⟩ =
        .ok (.inr buf.1.length, ⟨[.sent k], []⟩) := body_writeS_done buf _
      rw [hdone] at h
      obtain rfl := Option.some.inj h
      refine ⟨⟨buf.1.length, Or.inr ⟨rfl, rfl⟩, hreader, ?_, hle, hread, fun _ ↦ rfl⟩, ?_⟩
      · rw [List.append_nil]
        exact hwire
      · simp only [weight, hwriter]
        omega
  · rw [Transfer.write, hwriter] at h
    cases h

/-- **A round of the reader.** -/
theorem At.read (hs : s.At buf.1 buffer p q) (h : s.read k = some s') :
    (∃ q', s'.At buf.1 buffer p q') ∧ s'.weight < s.weight := by
  have htake := fun {j} ↦ hs.take_add (j := j)
  have hlength := hs.length_wire
  obtain ⟨hwriter, hreader, hwire, hle, hread, hclosed⟩ := hs
  rcases hreader with hreader | ⟨hreader, -⟩
  · rw [Transfer.read, hreader] at h
    dsimp only at h
    obtain ⟨hthere, h⟩ := Option.ite_none_right_eq_some.1 h
    have hq : (buf.1.take q).length = q := List.length_take_of_le (by omega)
    rcases hread.2.lt_or_eq with hlt | rfl
    · obtain ⟨hk, heof⟩ := hthere (by omega)
      obtain ⟨j, hj, hround⟩ := round_readS hq hlt k
      rw [hround] at h
      obtain rfl := Option.some.inj h
      rcases Nat.eq_zero_or_pos j with rfl | hpos
      · -- the end of the stream: the writer has written everything
        obtain ⟨hnil, hc⟩ := heof (by omega)
        rw [hnil, List.length_nil] at hlength
        have hp : p = buf.1.length := by
          rcases hwriter with hw | ⟨-, hp⟩
          · rw [hclosed hc] at hw
            cases hw
          · exact hp
        refine ⟨⟨q, hwriter, Or.inr ⟨rfl, by omega⟩, hwire, hle, hread, hclosed⟩, ?_⟩
        simp only [weight, hreader, Nat.lt_irrefl, if_false]
        omega
      · have hwireLength : j ≤ s.wire.length := by omega
        have hbytes := firstOf_getD s.wire hwireLength
        refine ⟨⟨q + j, hwriter, Or.inl ?_, ?_, hle, by omega, hclosed⟩, ?_⟩
        · simp only [if_pos hpos, hbytes, htake hwireLength]
        · show buf.1.take p = buf.1.take (q + j) ++ s.wire.drop j
          rw [htake hwireLength, List.append_assoc, List.take_append_drop]
          exact hwire
        · simp only [weight, hreader, if_pos hpos, Int.toNat_natCast]
          omega
    · rw [Nat.sub_self] at h
      have hdone : ReadSCursor.round sz.1 ⟨(0 : ℕ), sz.1, CArray.overlay (buf.1.take sz.1) buffer⟩
          ⟨[.count k], (s.wire.getD · 0), 0⟩ = .ok (.inr (sz.1, CArray.overlay (buf.1.take sz.1)
            buffer), ⟨[.count k], (s.wire.getD · 0), 0⟩) := round_readS_done sz _ _
      rw [hdone] at h
      obtain rfl := Option.some.inj h
      refine ⟨⟨sz.1, hwriter, Or.inr ⟨rfl, by omega⟩, hwire, hle, hread, hclosed⟩, ?_⟩
      simp only [weight, hreader]
      omega
  · rw [Transfer.read, hreader] at h
    cases h

/-- The state is that of a transfer. -/
def Underway (buf : Block) (buffer : CArray sz.1) (s : Transfer sz.1) : Prop :=
  ∃ p q, s.At buf.1 buffer p q

theorem Underway.step {a : TransferAct} (hs : s.Underway buf buffer)
    (h : s.step capacity buf.1 a = some s') : s'.Underway buf buffer ∧ s'.weight < s.weight := by
  obtain ⟨p, q, hs⟩ := hs
  cases a with
  | write k =>
    obtain ⟨⟨p', hs'⟩, hlt⟩ := hs.write h
    exact ⟨⟨p', q, hs'⟩, hlt⟩
  | close =>
    obtain ⟨⟨hright, hopen⟩, h⟩ := Option.ite_none_right_eq_some.1 h
    obtain rfl := Option.some.inj h
    have hwriter : s.writer = .inr buf.1.length := by
      rcases hs.writer with hw | ⟨hw, -⟩
      · simp [hw] at hright
      · exact hw
    refine ⟨⟨p, q, hs.writer, hs.reader, hs.wire, hs.written_le, hs.read_le, fun _ ↦ hwriter⟩, ?_⟩
    simp only [weight, hopen, if_true, if_false, Bool.false_eq_true]
    omega
  | read k =>
    obtain ⟨⟨q', hs'⟩, hlt⟩ := hs.read h
    exact ⟨⟨p, q', hs'⟩, hlt⟩

/-- **Every run comes to an end.** -/
theorem underway_of_runFrom
    (hrun : runFrom (step capacity buf.1) (initial buf.1 buffer) acts = some s) :
    s.Underway buf buffer ∧ acts.length + s.weight ≤ (initial buf.1 buffer).weight := by
  have halong : Along (step capacity buf.1) (fun _ _ ↦ True) (initial buf.1 buffer) acts :=
    along_of_forall fun _ _ _ ↦ trivial
  have hinitial : (initial buf.1 buffer).Underway buf buffer := ⟨0, 0, at_initial buf buffer⟩
  refine ⟨invariant_of_runFrom (Underway buf buffer) (fun hs h ↦ (hs.step h).1) hrun hinitial, ?_⟩
  have hcount := countP_add_le_of_along (p := fun _ ↦ true) (m := weight)
    (fun hs _ h ↦ ⟨(hs.step h).1, by
      have := (hs.step h).2
      simp only [List.countP_singleton, if_true]
      omega⟩) hrun halong hinitial
  rwa [List.countP_true] at hcount

/-- The writer can take its round when there is room for a byte, or no byte left. -/
theorem exists_write (hwriter : s.writer = .inl ⟨p, (buf.1.length - p : ℕ)⟩)
    (hle : p ≤ buf.1.length) (hroom : p < buf.1.length → s.wire.length < capacity) :
    ∃ s', s.write capacity buf.1 1 = some s' := by
  rw [Transfer.write, hwriter]
  dsimp only
  rw [if_pos fun _ ↦ ⟨Nat.one_pos, hroom (by omega)⟩]
  rcases hle.lt_or_eq with hlt | rfl
  · obtain ⟨j, -, -, -, hbody⟩ := body_writeS hlt Nat.one_pos
    rw [hbody]
    exact ⟨_, rfl⟩
  · have hdone : (writeSLoop buf.1.length).body buf.1 ⟨buf.1.length, (0 : ℕ)⟩ ⟨[.sent 1], []⟩ =
      .ok (.inr buf.1.length, ⟨[.sent 1], []⟩) := body_writeS_done buf _
    rw [Nat.sub_self, hdone]
    exact ⟨_, rfl⟩

/-- The reader can take its round when there is a byte, or the end of the stream, or nothing left
to ask for. -/
theorem At.exists_read (hs : s.At buf.1 buffer p q)
    (hreader : s.reader = .inl ⟨(sz.1 - q : ℕ), q, CArray.overlay (buf.1.take q) buffer⟩)
    (hthere : q < sz.1 → s.wire = [] → s.closed = true) : ∃ k s', s.read k = some s' := by
  have hlength := hs.length_wire
  have hle := hs.written_le
  have hq : (buf.1.take q).length = q := List.length_take_of_le (by omega)
  refine ⟨min 1 s.wire.length, ?_⟩
  rw [Transfer.read, hreader]
  dsimp only
  rcases hs.read_le.2.lt_or_eq with hlt | rfl
  · obtain ⟨j, -, hround⟩ := round_readS hq hlt (min 1 s.wire.length)
    have hnone : min 1 s.wire.length = 0 → s.wire = [] ∧ s.closed = true := fun hzero ↦ by
      have hnil : s.wire = [] := List.length_eq_zero_iff.1 (by omega)
      exact ⟨hnil, hthere hlt hnil⟩
    rw [if_pos fun _ ↦ ⟨Nat.min_le_right _ _, hnone⟩, hround]
    exact ⟨_, rfl⟩
  · rw [if_pos fun hpos ↦ by omega, Nat.sub_self]
    have hdone : ∀ w, ReadSCursor.round sz.1
        ⟨(0 : ℕ), sz.1, CArray.overlay (buf.1.take sz.1) buffer⟩ w =
          .ok (.inr (sz.1, CArray.overlay (buf.1.take sz.1) buffer), w) := round_readS_done sz _
    rw [hdone]
    exact ⟨_, rfl⟩

/-- **Somebody can go on**, or both loops have returned. -/
theorem At.progress (hs : s.At buf.1 buffer p q) (hcapacity : 0 < capacity)
    (hfits : buf.1.length ≤ sz.1 + capacity) :
    (∃ a s', s.step capacity buf.1 a = some s') ∨
      s.writer = .inr buf.1.length ∧
        s.reader = .inr (q, CArray.overlay (buf.1.take q) buffer) ∧ q = min buf.1.length sz.1 := by
  have hlength := hs.length_wire
  rcases hs.reader with hreader | ⟨hreader, hq⟩
  · -- the reader waits only while nothing is there, and then there is room for the writer
    by_cases hwait : q < sz.1 ∧ s.wire = [] ∧ s.closed = false
    · obtain ⟨-, hnil, hopen⟩ := hwait
      rcases hs.writer with hwriter | ⟨hwriter, -⟩
      · obtain ⟨s', hs'⟩ := exists_write hwriter hs.written_le fun _ ↦ by rwa [hnil]
        exact Or.inl ⟨.write 1, s', hs'⟩
      · refine Or.inl ⟨.close, _, if_pos ?_⟩
        simp [hwriter, hopen]
    · have hthere : q < sz.1 → s.wire = [] → s.closed = true := fun hlt hnil ↦ by
        by_contra hopen
        exact hwait ⟨hlt, hnil, Bool.eq_false_iff.2 hopen⟩
      obtain ⟨k, s', hs'⟩ := hs.exists_read hreader hthere
      exact Or.inl ⟨.read k, s', hs'⟩
  · rcases hs.writer with hwriter | ⟨hwriter, -⟩
    · -- the reader is done, and the rest fits in between
      have hroom : p < buf.1.length → s.wire.length < capacity := fun hlt ↦ by
        have hread := hs.read_le
        omega
      obtain ⟨s', hs'⟩ := exists_write hwriter hs.written_le hroom
      exact Or.inl ⟨.write 1, s', hs'⟩
    · exact Or.inr ⟨hwriter, hreader, hq⟩

/-- **A transfer arrives.** In every run of `Write_s` on one end of a pipe and `Read_s` on the
other, whatever the order of their rounds and however the kernel cuts up the bytes, a loop that has
returned has done its part: `Write_s` has written all of its buffer, and `Read_s` has as many bytes
of it as it asked for, or all. There are no more rounds than bytes to write and to read and three.
When what the reader does not ask for fits in between, a run that cannot go on is one where both
have returned. -/
theorem transfer_of_runFrom (hcapacity : 0 < capacity)
    (hrun : runFrom (step capacity buf.1) (initial buf.1 buffer) acts = some s) :
    acts.length ≤ buf.1.length + sz.1 + 3 ∧
      (∀ r, s.writer = .inr r → r = buf.1.length) ∧
      (∀ r, s.reader = .inr r → r = (((min buf.1.length sz.1 : ℕ) : ℤ),
        CArray.overlay (buf.1.take (min buf.1.length sz.1)) buffer)) ∧
      (buf.1.length ≤ sz.1 + capacity → (∃ a s', s.step capacity buf.1 a = some s') ∨
        s.writer.isRight ∧ s.reader.isRight) := by
  obtain ⟨⟨p, q, hs⟩, hlength⟩ := underway_of_runFrom hrun
  refine ⟨?_, fun r hr ↦ ?_, fun r hr ↦ ?_, fun hfits ↦ ?_⟩
  · have hsz := sz.2
    have hinitial : (initial buf.1 buffer).weight = buf.1.length + 1 + 1 + (sz.1 + 1) := by
      rw [weight, initial]
      simp only [Int.toNat_natCast, Bool.false_eq_true, if_false]
      rw [sizeT_of_lt (by omega) (by omega), Int.toNat_natCast]
    omega
  · rcases hs.writer with hwriter | ⟨hwriter, -⟩
    · rw [hwriter] at hr
      cases hr
    · exact Sum.inr.inj (hr.symm.trans hwriter)
  · rcases hs.reader with hreader | ⟨hreader, hq⟩
    · rw [hreader] at hr
      cases hr
    · rw [hreader] at hr
      rw [← Sum.inr.inj hr, ← hq]
  · rcases hs.progress hcapacity hfits with hgo | ⟨hwriter, hreader, -⟩
    · exact Or.inl hgo
    · exact Or.inr ⟨by rw [hwriter]; rfl, by rw [hreader]; rfl⟩

/-- Two bytes through a pipe that holds one. -/
theorem transfer_of_runFrom_two :
    ∃ s, runFrom (step 1 [7, 9]) (initial [7, 9] (CArray.fill 2 0))
        [.write 1, .read 1, .write 1, .write 0, .read 1, .read 0] = some s ∧
      6 ≤ 2 + 2 + 3 ∧ (∀ r, s.writer = .inr r → r = 2) ∧
      ∀ r, s.reader = .inr r → r = (2, CArray.overlay [7, 9] (CArray.fill 2 0)) := by
  obtain ⟨s, hrun⟩ : ∃ s, runFrom (step 1 [7, 9]) (initial [7, 9] (CArray.fill 2 0))
      [.write 1, .read 1, .write 1, .write 0, .read 1, .read 0] = some s := ⟨_, rfl⟩
  obtain ⟨hlength, hwriter, hreader, -⟩ := @transfer_of_runFrom ⟨2, by decide⟩ ⟨[7, 9], by decide⟩
    (CArray.fill 2 0) 1 s _ Nat.one_pos hrun
  exact ⟨s, hrun, hlength, hwriter, hreader⟩

end Transfer

end PreforkHttpd
