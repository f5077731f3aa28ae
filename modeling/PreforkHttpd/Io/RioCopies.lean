import Mathlib.Order.Interval.Finset.Nat
import PreforkHttpd.Io.Rio

/-!
# When the copies of buffered reading are in order

`rio_read` keeps one number for two things: `nread` is how many bytes are unread, and it is the
result of the last `read`, so a failed `read` leaves `-1` there. An interrupted one leaves the loop
with it, and `memcpy` is called with the count `-1`.

Here each call is looked at through the arguments of its `memcpy` (`Rio.copyCall`), for every list
of answers, failures among them. The history of a reader is the set of positions of `rio_buffer`
with bytes that the latest refill has delivered and no call has returned since. A call is `Guarded`
when its copy has a count in range and reads from these positions alone, and leaves its indices in
the buffer.

`guarded_iff` is exact. A call that finds unread bytes copies from the start of the buffer, and the
byte there was returned right after the refill. So every call must make a `read` of its own, and one
that is not interrupted.
-/

open LabelledRun

namespace PreforkHttpd

namespace Rio

/-- The arguments of a `memcpy` out of `rio_buffer`. -/
structure Copy where
  src : ℕ
  cnt : ℤ
deriving DecidableEq

/-- The `memcpy` of `rio_read`, with the reader that it finds, unless the function returns from
inside its loop. -/
def copyCall (sz : ℕ) (rio : Rio) (source : List RecvAnswer) : Option (Rio × Copy) :=
  match refill rio source with
  | (some _, _, _) => none
  | (none, rio, _) =>
    let cnt := if rio.nread < Int.bmod sz 4294967296 then rio.nread else Int.bmod sz 4294967296
    some (rio, { src := 0, cnt := cnt })

/-- **These are the arguments** of the `memcpy` on which the result of the call depends. -/
theorem rioRead_of_copyCall {sz : ℕ} {rio rio' : Rio} {source : List RecvAnswer} {c : Copy}
    (h : copyCall sz rio source = some (rio', c)) :
    c.src = 0 ∧ rioRead sz rio source = (memcpy rio'.rioBuffer c.cnt).map fun stored ↦
      ⟨c.cnt, stored, { rio' with ptr := rio'.ptr + c.cnt.toNat, nread := rio'.nread - c.cnt },
        (refill rio source).2.2⟩ := by
  rw [copyCall] at h
  rw [rioRead]
  split at h
  next => cases h
  next rio' source' hrefill =>
    obtain ⟨rfl, rfl⟩ := Prod.mk.inj (Option.some.inj h)
    refine ⟨rfl, ?_⟩
    rw [hrefill]

end Rio

/-- A reader with its answers to come, and the positions of `rio_buffer` with bytes that the latest
refill has delivered and no call has returned. -/
structure Buffered where
  rio : Rio
  source : List RecvAnswer
  fresh : Finset ℕ

namespace Buffered

/-- After `rio_readinit`. -/
def start (rioBuffer : CArray rioBufsize) (source : List RecvAnswer) : Buffered where
  rio := Rio.readinit rioBuffer
  source := source
  fresh := ∅

/-- These positions when the call comes to its `memcpy`: a `read` that delivers is a refill. -/
def pending (s : Buffered) : Finset ℕ :=
  if 0 < s.rio.nread then s.fresh
  else match s.source with
    | .received data :: _ => Finset.range (data.take rioBufsize).length
    | _ => s.fresh

/-- The positions that the call copies from. -/
def copied (s : Buffered) (sz : ℕ) : Finset ℕ :=
  match s.rio.copyCall sz s.source with
  | none => ∅
  | some (_, c) => Finset.Ico c.src (c.src + c.cnt.toNat)

/-- One call of `rio_read`. -/
def step (s : Buffered) (sz : RequestSize) : Option Buffered :=
  (Rio.rioRead sz s.rio s.source).map fun r : Rio.Result ↦
    { rio := r.rio, source := r.source, fresh := s.pending \ s.copied sz }

/-- **The copy is in order**: its count is in range, it reads fresh bytes alone, and `ptr` and
`ptr + nread` lie in the buffer afterwards. -/
structure Guarded (s : Buffered) (sz : RequestSize) : Prop where
  count : ∀ {rio c}, s.rio.copyCall sz s.source = some (rio, c) →
    0 ≤ c.cnt ∧ c.cnt ≤ min ↑sz.1 ↑rioBufsize
  reads : ∀ {rio c}, s.rio.copyCall sz s.source = some (rio, c) →
    ∀ i : ℕ, c.src ≤ i → ↑i < c.src + c.cnt → i ∈ s.pending
  within : ∀ {s'}, s.step sz = some s' → 0 < s'.rio.nread → s'.rio.ptr + s'.rio.nread ≤ rioBufsize

/-- The call finds no unread bytes, and the `read` it makes is not interrupted. -/
def Refills (s : Buffered) (_sz : RequestSize) : Prop :=
  s.rio.nread ≤ 0 ∧ s.source.head? ≠ some (.err .eintr)

instance (s : Buffered) (sz : RequestSize) : Decidable (s.Refills sz) :=
  inferInstanceAs (Decidable (_ ∧ _))

/-! ### One call -/

variable {s s' : Buffered} {sz : RequestSize}

/-- The fresh bytes are the unread ones, and they are not at the start of the buffer. -/
def Indexed (s : Buffered) : Prop :=
  0 < s.rio.nread → 0 < s.rio.ptr ∧ s.rio.ptr + s.rio.nread ≤ rioBufsize ∧
    s.fresh = Finset.Ico s.rio.ptr (s.rio.ptr + s.rio.nread.toNat)

theorem indexed_start (rioBuffer : CArray rioBufsize) (source : List RecvAnswer) :
    (start rioBuffer source).Indexed := fun h ↦ absurd h (lt_irrefl 0)

/-- The count of a copy. -/
theorem copyCall_of_refill (sz : RequestSize) {rio' : Rio} {source' : List RecvAnswer}
    (h : s.rio.refill s.source = (none, rio', source')) :
    s.rio.copyCall sz s.source = some (rio', ⟨0, min rio'.nread sz.1⟩) := by
  rw [Rio.copyCall, h]
  dsimp only
  rw [Reading.bmod_size]
  congr 3
  split <;> omega

/-- With unread bytes, the call copies some of them, from the start of the buffer. -/
theorem copyCall_of_pos (hpos : 0 < s.rio.nread) :
    s.rio.copyCall sz s.source = some (s.rio, ⟨0, min s.rio.nread sz.1⟩) :=
  copyCall_of_refill sz (if_pos hpos)

/-- After an interrupted `read` the count is negative. -/
theorem copyCall_of_eintr (sz : RequestSize) (hnread : s.rio.nread ≤ 0)
    (hsource : s.source.head? = some (.err .eintr)) :
    ∃ rio, s.rio.copyCall sz s.source = some (rio, ⟨0, -1⟩) := by
  obtain ⟨rest, hrest⟩ : ∃ rest, s.source = .err .eintr :: rest := by
    rcases hs : s.source with - | ⟨a, rest⟩ <;> simp_all
  have hrefill : s.rio.refill s.source = (none, { s.rio with nread := -1 }, rest) := by
    rw [hrest, Rio.refill, if_neg (not_lt.2 hnread)]
    rfl
  have hmin : min (-1 : ℤ) ↑sz.1 = -1 := min_eq_left (by omega)
  exact ⟨_, (copyCall_of_refill sz hrefill).trans (by rw [hmin])⟩

/-- The end of the file, and a failure: the function returns from inside its loop. -/
theorem step_of_refill (sz : RequestSize) {value : ℤ} {rio' : Rio} {source' : List RecvAnswer}
    (h : s.rio.refill s.source = (some value, rio', source')) :
    s.rio.copyCall sz s.source = none ∧
      s.step sz = some ⟨rio', source', s.pending \ s.copied sz⟩ := by
  refine ⟨by rw [Rio.copyCall, h], ?_⟩
  rw [step, Rio.rioRead, h, Option.map_some]

/-- **A chunk**: the copy takes its beginning, and the rest of it stays fresh. -/
theorem step_of_chunk {d : List UInt8} {source' : List RecvAnswer} (hpos : 0 < d.length)
    (hle : d.length ≤ rioBufsize) (hpending : s.pending = Finset.range d.length)
    (h : s.rio.refill s.source =
      (none, { nread := d.length, ptr := 0, rioBuffer := CArray.overlay d s.rio.rioBuffer },
        source')) :
    ∃ cnt : ℕ, 0 < cnt ∧ cnt ≤ d.length ∧ cnt ≤ sz.1 ∧
      (∃ rio, s.rio.copyCall sz s.source = some (rio, ⟨0, cnt⟩)) ∧
      ∃ s', s.step sz = some s' ∧ s'.rio.ptr = cnt ∧ s'.rio.nread = d.length - cnt ∧
        s'.fresh = Finset.Ico cnt d.length := by
  have hcall := copyCall_of_refill sz h
  have hmin : min (d.length : ℤ) ↑sz.1 = ↑(min d.length sz.1) := by omega
  dsimp only at hcall
  rw [hmin] at hcall
  have hcnt : (0 : ℤ) ≤ ↑(min d.length sz.1) ∧ (↑(min d.length sz.1) : ℤ) ≤ ↑rioBufsize := by omega
  have hcopied : s.copied sz = Finset.Ico 0 (0 + min d.length sz.1) := by
    rw [copied, hcall]
    rfl
  refine ⟨min d.length sz.1, lt_min hpos sz.2.1, min_le_left _ _, min_le_right _ _, ⟨_, hcall⟩, ?_⟩
  rw [step, (Rio.rioRead_of_copyCall hcall).2, Rio.memcpy, if_pos hcnt, Option.map_some,
    Option.map_some]
  refine ⟨_, rfl, Nat.zero_add _, rfl, ?_⟩
  dsimp only
  rw [hpending, hcopied]
  ext i
  simp only [Finset.mem_sdiff, Finset.mem_range, Finset.mem_Ico]
  omega

/-- **A call that refills**: nothing is delivered and nothing is copied, or a chunk is delivered and
the copy takes its beginning. -/
theorem Refills.cases (h : s.Refills sz) :
    (s.rio.copyCall sz s.source = none ∧ ∃ s', s.step sz = some s' ∧ s'.rio.nread ≤ 0) ∨
      ∃ n cnt : ℕ, n ≤ rioBufsize ∧ s.pending = Finset.range n ∧ 0 < cnt ∧ cnt ≤ n ∧ cnt ≤ sz.1 ∧
        (∃ rio, s.rio.copyCall sz s.source = some (rio, ⟨0, cnt⟩)) ∧
        ∃ s', s.step sz = some s' ∧ s'.rio.ptr = cnt ∧ s'.rio.nread = n - cnt ∧
          s'.fresh = Finset.Ico cnt n := by
  obtain ⟨hnread, hsource⟩ := h
  have hnot : ¬ 0 < s.rio.nread := not_lt.2 hnread
  rcases hs : s.source with - | ⟨⟨data⟩ | ⟨e⟩, rest⟩ <;> rw [← hs]
  · have hrefill : s.rio.refill s.source = (some 0, { s.rio with nread := 0 }, []) := by
      rw [hs, Rio.refill, if_neg hnot]
      rfl
    obtain ⟨hcopy, hstep⟩ := step_of_refill sz hrefill
    exact Or.inl ⟨hcopy, _, hstep, le_rfl⟩
  · have hread : Rio.read s.rio.rioBuffer s.source = (↑(data.take rioBufsize).length,
        CArray.overlay (data.take rioBufsize) s.rio.rioBuffer, rest) := by
      rw [hs]
      rfl
    rcases Nat.eq_zero_or_pos (data.take rioBufsize).length with hzero | hpos
    · have hrefill : s.rio.refill s.source = (some 0,
          { s.rio with
            nread := 0
            rioBuffer := CArray.overlay (data.take rioBufsize) s.rio.rioBuffer }, rest) := by
        rw [Rio.refill, if_neg hnot, hread, hzero]
        rfl
      obtain ⟨hcopy, hstep⟩ := step_of_refill sz hrefill
      exact Or.inl ⟨hcopy, _, hstep, le_rfl⟩
    · have hrefill : s.rio.refill s.source = (none,
          { nread := (data.take rioBufsize).length, ptr := 0
            rioBuffer := CArray.overlay (data.take rioBufsize) s.rio.rioBuffer }, rest) := by
        rw [Rio.refill, if_neg hnot, hread]
        dsimp only
        rw [if_neg (by omega), if_neg (by omega)]
      have hpending : s.pending = Finset.range (data.take rioBufsize).length := by
        rw [pending, if_neg hnot, hs]
      exact Or.inr ⟨_, (step_of_chunk hpos (List.length_take_le _ _) hpending hrefill).imp
        fun cnt hcnt ↦ ⟨List.length_take_le _ _, hpending, hcnt⟩⟩
  · have he : e ≠ .eintr := by
      rintro rfl
      exact hsource (by rw [hs]; rfl)
    have hrefill : s.rio.refill s.source = (some (-1), { s.rio with nread := -1 }, rest) := by
      rw [hs, Rio.refill, if_neg hnot]
      exact if_neg fun heq ↦ he (Option.some.inj heq)
    obtain ⟨hcopy, hstep⟩ := step_of_refill sz hrefill
    refine Or.inl ⟨hcopy, _, hstep, ?_⟩
    show (-1 : ℤ) ≤ 0
    decide

/-- **When a copy is in order.** -/
theorem Indexed.guarded_iff_refills (hs : s.Indexed) : s.Guarded sz ↔ s.Refills sz := by
  refine ⟨fun h ↦ ?_, fun h ↦ ?_⟩
  · have hnread : s.rio.nread ≤ 0 := by
      by_contra hpos
      rw [not_le] at hpos
      -- the copy would take the byte at the start of the buffer, which is not fresh
      obtain ⟨hptr, -, hfresh⟩ := hs hpos
      have hsz := sz.2.1
      have hmem := h.reads (copyCall_of_pos hpos) 0 le_rfl (by dsimp only; omega)
      rw [pending, if_pos hpos, hfresh, Finset.mem_Ico] at hmem
      omega
    refine ⟨hnread, fun heintr ↦ ?_⟩
    obtain ⟨rio, hcall⟩ := copyCall_of_eintr sz hnread heintr
    exact absurd (h.count hcall).1 (by decide)
  · obtain ⟨hnone, s', hstep, hnread⟩ | ⟨n, cnt, hn, hpending, -, hcnt, hsz, ⟨rio, hcall⟩, s',
      hstep, hptr, hleft, -⟩ := h.cases
    · refine ⟨fun hcall ↦ ?_, fun hcall ↦ ?_, fun hstep' hpos ↦ ?_⟩
      · simp [hnone] at hcall
      · simp [hnone] at hcall
      · obtain rfl := Option.some.inj (hstep.symm.trans hstep')
        omega
    · refine ⟨fun hcall' ↦ ?_, fun hcall' i _ hi ↦ ?_, fun hstep' _ ↦ ?_⟩
      · obtain ⟨-, rfl⟩ := Prod.mk.inj (Option.some.inj (hcall.symm.trans hcall'))
        dsimp only
        omega
      · obtain ⟨-, rfl⟩ := Prod.mk.inj (Option.some.inj (hcall.symm.trans hcall'))
        rw [hpending, Finset.mem_range]
        dsimp only at hi
        omega
      · obtain rfl := Option.some.inj (hstep.symm.trans hstep')
        omega

/-- **One call that refills** leaves the fresh bytes where `ptr` and `nread` say. -/
theorem Indexed.step (_hs : s.Indexed) (h : s.Refills sz) (hstep : s.step sz = some s') :
    s'.Indexed := by
  intro hpos
  obtain ⟨-, t, ht, hnread⟩ | ⟨n, cnt, hn, -, hcnt, hle, -, -, t, ht, hptr, hleft, hfresh⟩ :=
    h.cases
  · obtain rfl := Option.some.inj (ht.symm.trans hstep)
    omega
  · obtain rfl := Option.some.inj (ht.symm.trans hstep)
    refine ⟨by omega, by omega, ?_⟩
    rw [hfresh, hptr, hleft]
    congr 1
    omega

/-- **When the copies of buffered reading are in order.** For every initial buffer, every list of
answers and every sequence of request sizes: each copy has a count in range and reads fresh bytes
alone, with the indices in the buffer afterwards, exactly when each call finds no unread bytes and
makes a `read` that is not interrupted. -/
theorem guarded_iff (rioBuffer : CArray rioBufsize) (source : List RecvAnswer)
    (sizes : List RequestSize) :
    Along step Guarded (start rioBuffer source) sizes ↔
      Along step Refills (start rioBuffer source) sizes :=
  along_congr Indexed Indexed.guarded_iff_refills Indexed.step (indexed_start rioBuffer source)

/-- The first `read` is interrupted, and `memcpy` is called with the count `-1`. -/
theorem not_guarded_eintr :
    (∃ rio, (start (CArray.fill _ 0) [.err .eintr]).rio.copyCall 4 [.err .eintr] =
        some (rio, ⟨0, -1⟩)) ∧
      ¬ Along step Guarded (start (CArray.fill _ 0) [.err .eintr]) [Reading.fourBytes] := by
  refine ⟨⟨_, rfl⟩, fun h ↦ ?_⟩
  obtain ⟨rio, hcall⟩ := copyCall_of_eintr (s := start (CArray.fill _ 0) [.err .eintr])
    Reading.fourBytes le_rfl rfl
  exact absurd (h.1.count hcall).1 (by decide)

end Buffered

end PreforkHttpd
