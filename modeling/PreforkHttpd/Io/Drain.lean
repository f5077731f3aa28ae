import Mathlib.Data.List.Infix
import Mathlib.Data.Nat.Notation

/-!
# Handing over a list to something that takes what it likes

A sender hands over **what is left** of a list, again and again. Each attempt comes to one of three
things: some of what was handed over is taken, the attempt is to be repeated, or it failed. The
sender is done when nothing is left; it gives up when an attempt failed, or when one took nothing.

The answers to the attempts are a list of values of any type `ι`, and `uptake` says what an answer
comes to. `drain` is the sender as a function of these answers: what it handed over in each attempt,
what was taken all in all, whether it failed, and the answers it did not need. It is `none` when the
answers are used up before the sender is through.

Two facts carry what is proved about senders. `exact_of_drain` says what was handed over and what
was taken, in terms of the answers alone. `isSome_drain` says how many answers are enough: one for
each element of the list, not counting the repeated attempts.
-/

namespace Drain

/-- What an attempt comes to. -/
inductive Uptake
  | took (n : ℕ)
  | again
  | failed
deriving DecidableEq

/-- How much the attempt took. -/
def Uptake.amount : Uptake → ℕ
  | took n => n
  | again | failed => 0

/-- What a sender has done, and the answers it has left. -/
structure Drained (ι α : Type) where
  /-- What was handed over in each attempt. -/
  handed : List (List α)
  /-- What was taken. -/
  accepted : List α
  failed : Bool
  rest : List ι
deriving DecidableEq

variable {ι α : Type}

/-- The same after one more attempt at the beginning, which was handed `data` and took `xs`. -/
def Drained.after (data xs : List α) (d : Drained ι α) : Drained ι α :=
  { d with handed := data :: d.handed, accepted := xs ++ d.accepted }

variable (uptake : ι → Uptake)

/-- What becomes of a list, on these answers. -/
def drain : List ι → List α → Option (Drained ι α)
  | as, [] => some ⟨[], [], false, as⟩
  | [], _ :: _ => none
  | a :: as, x :: xs =>
    match uptake a with
    | .again => (drain as (x :: xs)).map (Drained.after (x :: xs) [])
    | .failed => some ⟨[x :: xs], [], true, as⟩
    | .took 0 => some ⟨[x :: xs], [], false, as⟩
    | .took (n + 1) =>
      (drain as ((x :: xs).drop (n + 1))).map (Drained.after (x :: xs) ((x :: xs).take (n + 1)))

variable {uptake} {a : ι} {as used : List ι} {data : List α} {d : Drained ι α} {n : ℕ}

/-! ### One attempt -/

@[simp] theorem drain_nil : drain uptake as ([] : List α) = some ⟨[], [], false, as⟩ := by
  cases as <;> rfl

theorem drain_of_no_answer (hdata : data ≠ []) : drain uptake [] data = none := by
  cases data with
  | nil => exact absurd rfl hdata
  | cons x xs => rfl

theorem drain_of_again (hdata : data ≠ []) (h : uptake a = .again) :
    drain uptake (a :: as) data = (drain uptake as data).map (Drained.after data []) := by
  cases data with
  | nil => exact absurd rfl hdata
  | cons x xs => rw [drain, h]

theorem drain_of_failed (hdata : data ≠ []) (h : uptake a = .failed) :
    drain uptake (a :: as) data = some ⟨[data], [], true, as⟩ := by
  cases data with
  | nil => exact absurd rfl hdata
  | cons x xs => rw [drain, h]

theorem drain_of_took_zero (hdata : data ≠ []) (h : uptake a = .took 0) :
    drain uptake (a :: as) data = some ⟨[data], [], false, as⟩ := by
  cases data with
  | nil => exact absurd rfl hdata
  | cons x xs => rw [drain, h]

theorem drain_of_took (hdata : data ≠ []) (h : uptake a = .took n) (hn : 0 < n) :
    drain uptake (a :: as) data =
      (drain uptake as (data.drop n)).map (Drained.after data (data.take n)) := by
  obtain ⟨m, rfl⟩ : ∃ m, n = m + 1 := ⟨n - 1, by omega⟩
  cases data with
  | nil => exact absurd rfl hdata
  | cons x xs => rw [drain, h]

/-- **One attempt**: nothing is left, or the first answer decides. -/
theorem drain_cases (h : drain uptake as data = some d) :
    (data = [] ∧ d = ⟨[], [], false, as⟩) ∨
      data ≠ [] ∧ ∃ a rest, as = a :: rest ∧
        ((uptake a = .again ∧ ∃ e, drain uptake rest data = some e ∧ d = e.after data []) ∨
          (uptake a = .failed ∧ d = ⟨[data], [], true, rest⟩) ∨
          (uptake a = .took 0 ∧ d = ⟨[data], [], false, rest⟩) ∨
          ∃ n e, uptake a = .took n ∧ 0 < n ∧ drain uptake rest (data.drop n) = some e ∧
            d = e.after data (data.take n)) := by
  by_cases hdata : data = []
  · subst hdata
    rw [drain_nil] at h
    exact Or.inl ⟨rfl, (Option.some.inj h).symm⟩
  refine Or.inr ⟨hdata, ?_⟩
  rcases as with - | ⟨a, rest⟩
  · rw [drain_of_no_answer hdata] at h
    cases h
  refine ⟨a, rest, rfl, ?_⟩
  rcases hup : uptake a with (- | n) | - | -
  · rw [drain_of_took_zero hdata hup] at h
    exact Or.inr (Or.inr (Or.inl ⟨rfl, (Option.some.inj h).symm⟩))
  · rw [drain_of_took hdata hup n.succ_pos] at h
    obtain ⟨e, he, rfl⟩ := Option.map_eq_some_iff.1 h
    exact Or.inr (Or.inr (Or.inr ⟨n + 1, e, rfl, n.succ_pos, he, rfl⟩))
  · rw [drain_of_again hdata hup] at h
    obtain ⟨e, he, rfl⟩ := Option.map_eq_some_iff.1 h
    exact Or.inl ⟨rfl, e, he, rfl⟩
  · rw [drain_of_failed hdata hup] at h
    exact Or.inr (Or.inl ⟨rfl, (Option.some.inj h).symm⟩)

/-! ### The whole -/

/-- How much the answers take. -/
def taken (uptake : ι → Uptake) : List ι → ℕ
  | [] => 0
  | a :: as => (uptake a).amount + taken uptake as

theorem taken_eq_zero_iff : taken uptake as = 0 ↔ ∀ a ∈ as, (uptake a).amount = 0 := by
  induction as with
  | nil => exact iff_of_true rfl (List.forall_mem_nil _)
  | cons a as ih => rw [taken, Nat.add_eq_zero_iff, ih, List.forall_mem_cons]

/-- **What the sender did on the answers it used**: each attempt was handed what the attempts before
it had left, what was taken is the beginning of the list, and the sender was stopped by a failure,
by an attempt that took nothing, or by having nothing left. -/
structure Exact (uptake : ι → Uptake) (data : List α) (used : List ι) (d : Drained ι α) : Prop where
  calls : d.handed.length = used.length
  handed_eq : ∀ {i x}, d.handed[i]? = some x → x = data.drop (taken uptake (used.take i))
  accepted_eq : d.accepted = data.take (taken uptake used)
  failed_iff : d.failed = true ↔ ∃ a ∈ used, uptake a = .failed
  last : d.failed = true → ∃ before a, used = before ++ [a] ∧ uptake a = .failed
  whole_iff : d.accepted = data ↔ ∀ a ∈ used, uptake a ≠ .failed ∧ uptake a ≠ .took 0

theorem exact_nil : Exact uptake ([] : List α) [] ⟨[], [], false, as⟩ where
  calls := rfl
  handed_eq h := nomatch h
  accepted_eq := List.take_nil.symm
  failed_iff := iff_of_false nofun fun ⟨_, h, _⟩ ↦ nomatch h
  last h := nomatch h
  whole_iff := iff_of_true rfl (List.forall_mem_nil _)

/-- The last attempt: it failed, or it took nothing. -/
theorem exact_last (hdata : data ≠ []) (h : uptake a = .failed ∨ uptake a = .took 0) :
    Exact uptake data [a] ⟨[data], [], decide (uptake a = .failed), as⟩ where
  calls := rfl
  handed_eq {i x} hi := by
    obtain ⟨rfl, rfl⟩ : i = 0 ∧ data = x := by
      cases i with
      | zero => exact ⟨rfl, Option.some.inj hi⟩
      | succ i => cases hi
    rfl
  accepted_eq := by
    obtain h | h := h <;> rw [taken, h] <;> rfl
  failed_iff := by
    rw [decide_eq_true_iff]
    exact ⟨fun h ↦ ⟨a, List.mem_singleton_self a, h⟩,
      fun ⟨b, hb, h⟩ ↦ List.mem_singleton.1 hb ▸ h⟩
  last hfailed := ⟨[], a, rfl, of_decide_eq_true hfailed⟩
  whole_iff := by
    refine iff_of_false hdata.symm fun hnone ↦ ?_
    obtain ⟨hfailed, hzero⟩ := hnone a (List.mem_singleton_self a)
    exact h.elim hfailed hzero

/-- An attempt that is repeated. -/
theorem Exact.after_again (h : Exact uptake data used d) (ha : uptake a = .again) :
    Exact uptake data (a :: used) (d.after data []) where
  calls := congrArg Nat.succ h.calls
  handed_eq {i x} hi := by
    cases i with
    | zero => exact (Option.some.inj hi).symm
    | succ i => rw [List.take_succ_cons, taken, ha, Uptake.amount, Nat.zero_add, h.handed_eq hi]
  accepted_eq := by rw [taken, ha, Uptake.amount, Nat.zero_add, ← h.accepted_eq]; rfl
  failed_iff := by
    rw [List.exists_mem_cons_iff, ha]
    exact h.failed_iff.trans (or_iff_right nofun).symm
  last hfailed := by
    obtain ⟨before, b, rfl, hb⟩ := h.last hfailed
    exact ⟨a :: before, b, rfl, hb⟩
  whole_iff := by
    rw [List.forall_mem_cons, ha, and_iff_right ⟨nofun, nofun⟩]
    exact h.whole_iff

/-- An attempt that took something. -/
theorem Exact.after_took (h : Exact uptake (data.drop n) used d) (ha : uptake a = .took n)
    (hn : 0 < n) : Exact uptake data (a :: used) (d.after data (data.take n)) where
  calls := congrArg Nat.succ h.calls
  handed_eq {i x} hi := by
    cases i with
    | zero => exact (Option.some.inj hi).symm
    | succ i => rw [List.take_succ_cons, taken, ha, h.handed_eq hi, List.drop_drop]; rfl
  accepted_eq := by rw [taken, ha, Uptake.amount, List.take_add, ← h.accepted_eq]; rfl
  failed_iff := by
    rw [List.exists_mem_cons_iff, ha]
    exact h.failed_iff.trans (or_iff_right nofun).symm
  last hfailed := by
    obtain ⟨before, b, rfl, hb⟩ := h.last hfailed
    exact ⟨a :: before, b, rfl, hb⟩
  whole_iff := by
    have hsplit : data.take n ++ d.accepted = data ↔ d.accepted = data.drop n :=
      ⟨fun heq ↦ List.append_cancel_left (heq.trans (List.take_append_drop n data).symm),
        fun heq ↦ by rw [heq, List.take_append_drop]⟩
    rw [List.forall_mem_cons, ha, and_iff_right ⟨nofun, fun hzero ↦ hn.ne' (Uptake.took.inj hzero)⟩,
      ← h.whole_iff]
    exact hsplit

/-- **What becomes of a list**, for all answers. -/
theorem exact_of_drain (h : drain uptake as data = some d) :
    ∃ used, as = used ++ d.rest ∧ Exact uptake data used d := by
  induction as generalizing data d with
  | nil =>
    obtain ⟨rfl, rfl⟩ | ⟨-, a, rest, has, -⟩ := drain_cases h
    · exact ⟨[], rfl, exact_nil⟩
    · cases has
  | cons a as ih =>
    obtain ⟨rfl, rfl⟩ | ⟨hdata, b, rest, has, hcases⟩ := drain_cases h
    · exact ⟨[], rfl, exact_nil⟩
    obtain ⟨rfl, rfl⟩ := List.cons.inj has
    obtain ⟨hup, e, he, rfl⟩ | ⟨hup, rfl⟩ | ⟨hup, rfl⟩ | ⟨n, e, hup, hn, he, rfl⟩ := hcases
    · obtain ⟨used, rfl, hexact⟩ := ih he
      exact ⟨a :: used, rfl, hexact.after_again hup⟩
    · have hlast : Exact uptake data [a] ⟨[data], [], decide (uptake a = .failed), as⟩ :=
        exact_last hdata (Or.inl hup)
      rw [decide_eq_true hup] at hlast
      exact ⟨[a], rfl, hlast⟩
    · have hlast : Exact uptake data [a] ⟨[data], [], decide (uptake a = .failed), as⟩ :=
        exact_last hdata (Or.inr hup)
      rw [decide_eq_false (by rw [hup]; nofun)] at hlast
      exact ⟨[a], rfl, hlast⟩
    · obtain ⟨used, rfl, hexact⟩ := ih he
      exact ⟨a :: used, rfl, hexact.after_took hup hn⟩

/-- Nothing was taken when no answer took anything. -/
theorem Exact.accepted_eq_nil_iff (h : Exact uptake data used d) (hdata : data ≠ []) :
    d.accepted = [] ↔ ∀ a ∈ used, (uptake a).amount = 0 := by
  rw [h.accepted_eq, List.take_eq_nil_iff, or_iff_left hdata, taken_eq_zero_iff]

/-- Where there is something to hand over there was an attempt. -/
theorem Exact.handed_ne_nil (h : Exact uptake data used d) (hdata : data ≠ []) : d.handed ≠ [] := by
  intro hnil
  obtain rfl : used = [] := by
    rw [← List.length_eq_zero_iff, ← h.calls, hnil, List.length_nil]
  have hwhole : d.accepted = data := h.whole_iff.2 (List.forall_mem_nil _)
  exact hdata (hwhole.symm.trans h.accepted_eq)

/-- **How many answers are enough.** -/
theorem isSome_drain (h : data.length ≤ as.countP fun a ↦ uptake a ≠ .again) :
    (drain uptake as data).isSome := by
  induction as generalizing data with
  | nil =>
    rw [List.countP_nil, Nat.le_zero, List.length_eq_zero_iff] at h
    rw [h, drain_nil]
    rfl
  | cons a as ih =>
    by_cases hdata : data = []
    · rw [hdata, drain_nil]
      rfl
    rcases hup : uptake a with (- | n) | - | -
    · rw [drain_of_took_zero hdata hup]
      rfl
    · rw [drain_of_took hdata hup n.succ_pos, Option.isSome_map]
      refine ih ?_
      rw [List.countP_cons_of_pos (by rw [hup]; rfl)] at h
      rw [List.length_drop]
      omega
    · rw [drain_of_again hdata hup, Option.isSome_map]
      rw [List.countP_cons_of_neg (by rw [hup]; decide)] at h
      exact ih h
    · rw [drain_of_failed hdata hup]
      rfl

/-- **How many answers are used up**: no more than there are elements, the repeated attempts
apart. -/
theorem countP_le_of_drain (h : drain uptake as data = some d) :
    (as.countP fun a ↦ uptake a ≠ .again) ≤
      data.length + d.rest.countP fun a ↦ uptake a ≠ .again := by
  induction as generalizing data d with
  | nil => exact Nat.zero_le _
  | cons a as ih =>
    obtain ⟨rfl, rfl⟩ | ⟨hdata, b, rest, has, hcases⟩ := drain_cases h
    · exact Nat.le_add_left _ _
    obtain ⟨rfl, rfl⟩ := List.cons.inj has
    have hpos := List.length_pos_of_ne_nil hdata
    have hone : ∀ p : ι → Bool, (a :: as).countP p ≤ as.countP p + 1 := fun p ↦ by
      rw [List.countP_cons]
      split <;> omega
    obtain ⟨hup, e, he, rfl⟩ | ⟨-, rfl⟩ | ⟨-, rfl⟩ | ⟨n, e, -, hn, he, rfl⟩ := hcases
    · rw [List.countP_cons_of_neg (by rw [hup]; decide)]
      have hrest := ih he
      exact hrest
    · refine (hone _).trans ?_
      show _ ≤ data.length + as.countP _
      omega
    · refine (hone _).trans ?_
      show _ ≤ data.length + as.countP _
      omega
    · have hrest := ih he
      rw [List.length_drop] at hrest
      refine (hone _).trans ?_
      show _ ≤ data.length + e.rest.countP _
      omega

end Drain
