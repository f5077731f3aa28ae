import Mathlib.Data.Nat.Find
import Mathlib.Order.WellFounded
import PreforkHttpd.Transition.Answered

/-!
# Loops on a schedule

The answers to a loop's calls are often given by a **schedule**: the `i`-th call is answered by the
`i`-th entry, for all `i`. As long as every round makes one call, the states that the loop passes
through are a sequence `st`, found from the schedule alone, and what a round comes to is a sequence
as well: it leaves the loop, before its call or after it, it goes round again, or it faults
(`Turn`). `Round.Follows` says that a loop runs along such sequences; that is a fact about one round
at a time. `world i m` is the state of the answers with `i` of them used and `m` to come.

`Follows.loop_eq_ok_iff` is the whole run: the loop returns exactly when the first round that does
not go round again leaves it, and then with what that round says, as soon as there are answers
enough. `Ends` keeps the two ways of leaving together, with the number of answers used.
-/

namespace Answered

/-- What a round comes to. -/
inductive Turn (β : Type)
  /-- The loop is left before a call. -/
  | leaves (b : β)
  /-- The loop is left after the call. -/
  | last (b : β)
  | again
  | faults

variable {ω φ σ β : Type} {turn : ℕ → Turn β} {i j u k m : ℕ} {b b' : β}

/-- The first round that does not go round again is round `i`. It leaves the loop with `b`, and `u`
answers have been used then. -/
structure Ends (turn : ℕ → Turn β) (i u : ℕ) (b : β) : Prop where
  again : ∀ j < i, turn j = .again
  leaving : turn i = .leaves b ∧ u = i ∨ turn i = .last b ∧ u = i + 1

theorem Ends.not_again (h : Ends turn i u b) : turn i ≠ .again := by
  rcases h.leaving with ⟨hturn, -⟩ | ⟨hturn, -⟩ <;> rw [hturn] <;> nofun

/-- The rounds before any that stops go round again, and so the end comes no later. -/
theorem Ends.le (h : Ends turn i u b) (hj : turn j ≠ .again) : i ≤ j :=
  Nat.le_of_not_lt fun hlt ↦ hj (h.again j hlt)

theorem Ends.used (h : Ends turn i u b) : u = i ∨ u = i + 1 :=
  h.leaving.imp And.right And.right

/-- A first round that faults is no end. -/
theorem not_ends_of_faults (hagain : ∀ j < i, turn j = .again) (h : turn i = .faults) :
    ¬ Ends turn j u b := by
  intro hends
  rcases (hends.le (by rw [h]; nofun)).lt_or_eq with hlt | rfl
  · exact hends.not_again (hagain j hlt)
  · rcases hends.leaving with ⟨hturn, -⟩ | ⟨hturn, -⟩ <;> rw [h] at hturn <;> cases hturn

/-- Where the first round that does not go round again leaves the loop before its call, -/
theorem ends_of_leaves (hagain : ∀ j < i, turn j = .again) (h : turn i = .leaves b) :
    Ends turn i i b :=
  ⟨hagain, Or.inl ⟨h, rfl⟩⟩

/-- and where it leaves it after. -/
theorem ends_of_last (hagain : ∀ j < i, turn j = .again) (h : turn i = .last b) :
    Ends turn i (i + 1) b :=
  ⟨hagain, Or.inr ⟨h, rfl⟩⟩

/-- **A first round that stops**, where some round does. -/
theorem exists_first_stop (h : ∃ i, turn i ≠ .again) :
    ∃ i, (∀ j < i, turn j = .again) ∧ turn i ≠ .again := by
  classical
  exact ⟨Nat.find h, fun j hj ↦ not_not.1 (Nat.find_min h hj), Nat.find_spec h⟩

/-- **A bounded count** that every round raises comes to a round that does not. -/
theorem exists_not_of_progress {goes : ℕ → Prop} {count : ℕ → ℕ} {bound : ℕ}
    (hle : ∀ i, goes i → count i ≤ bound) (hlt : ∀ i, goes i → count i < count (i + 1)) :
    ∃ i, ¬ goes i := by
  by_contra hnone
  have hgoes : ∀ i, goes i := fun i ↦ not_not.1 fun hi ↦ hnone ⟨i, hi⟩
  have hmono : StrictMono count := strictMono_nat_of_lt_succ fun i ↦ hlt i (hgoes i)
  have hpast : bound + 1 ≤ count (bound + 1) := hmono.le_apply
  exact absurd (hle _ (hgoes _)) (Nat.not_le.2 hpast)

namespace Round

variable {size : ω → ℕ} {r : Round size φ σ β} {st : ℕ → σ} {world : ℕ → ℕ → ω} {w' : ω}

/-- The loop runs along the states `st`, and its rounds come to what `turn` says. -/
structure Follows (r : Round size φ σ β) (st : ℕ → σ) (world : ℕ → ℕ → ω)
    (turn : ℕ → Turn β) : Prop where
  leaves : ∀ {i b}, turn i = .leaves b → ∀ m, r.run (st i) (world i m) = .ok (.inr b, world i m)
  last : ∀ {i b}, turn i = .last b → ∀ m,
    r.run (st i) (world i (m + 1)) = .ok (.inr b, world (i + 1) m)
  again : ∀ {i}, turn i = .again → ∀ m,
    r.run (st i) (world i (m + 1)) = .ok (.inl (st (i + 1)), world (i + 1) m)
  faults : ∀ {i}, turn i = .faults → ∀ m, ∃ e, r.run (st i) (world i m) = .error e
  waits : ∀ {i}, (∀ b, turn i ≠ .leaves b) → ∃ e, r.run (st i) (world i 0) = .error e

namespace Follows

variable (h : r.Follows st world turn)

include h in
/-- While rounds go round again, the loop from the start is the loop from where they have come. -/
theorem loop_eq (hagain : ∀ j < i, turn j = .again) (m : ℕ) :
    r.loop (st 0) (world 0 (i + m)) = r.loop (st i) (world i m) := by
  induction i generalizing m with
  | zero => rw [Nat.zero_add]
  | succ i ih =>
    have hbefore := ih (fun j hj ↦ hagain j (Nat.lt_succ_of_lt hj)) (m + 1)
    rw [Nat.add_assoc, Nat.add_comm 1 m, hbefore]
    exact r.loop_of_inl (h.again (hagain i (Nat.lt_succ_self i)) m)

include h in
/-- A loop that has come to its end returns. -/
theorem loop_of_ends (hends : Ends turn i u b) (m : ℕ) :
    r.loop (st 0) (world 0 (u + m)) = .ok (b, world u m) := by
  obtain ⟨hturn, rfl⟩ | ⟨hturn, rfl⟩ := hends.leaving
  · rw [h.loop_eq hends.again]
    exact r.loop_of_inr (h.leaves hturn m)
  · rw [Nat.add_assoc, Nat.add_comm 1 m, h.loop_eq hends.again]
    exact r.loop_of_inr (h.last hturn m)

include h in
/-- A loop that returns at an end has returned what the end says. -/
theorem exists_ends_of_loop (hends : Ends turn i u b') (hk : k = u + m)
    (hloop : r.loop (st 0) (world 0 k) = .ok (b, w')) :
    ∃ i u m, Ends turn i u b ∧ k = u + m ∧ w' = world u m := by
  rw [hk, h.loop_of_ends hends m] at hloop
  obtain ⟨rfl, rfl⟩ := Prod.mk.inj (Except.ok.inj hloop)
  exact ⟨i, u, m, hends, hk, rfl⟩

include h in
/-- A loop does not return where a round has no result. -/
theorem loop_ne_ok {e : Stop φ} (hagain : ∀ j < i, turn j = .again) (hk : k = i + m)
    (herror : r.run (st i) (world i m) = .error e) :
    r.loop (st 0) (world 0 k) ≠ .ok (b, w') := by
  rw [hk, h.loop_eq hagain, r.loop_of_error herror]
  nofun

include h in
/-- **A loop on a schedule** returns exactly when it comes to its end, and all the answers used
until then are there. -/
theorem loop_eq_ok_iff :
    r.loop (st 0) (world 0 k) = .ok (b, w') ↔
      ∃ i u m, Ends turn i u b ∧ k = u + m ∧ w' = world u m := by
  refine ⟨fun hloop ↦ ?_, fun ⟨i, u, m, hends, hk, hw⟩ ↦ ?_⟩
  · -- the rounds that go round again use up the answers one by one
    suffices hend : ∀ m i, k = i + m → (∀ j < i, turn j = .again) →
        ∃ i u m, Ends turn i u b ∧ k = u + m ∧ w' = world u m from
      hend k 0 (Nat.zero_add k).symm fun j hj ↦ absurd hj (Nat.not_lt_zero j)
    intro m
    induction m with
    | zero =>
      intro i hk hagain
      match hturn : turn i with
      | .leaves b' => exact h.exists_ends_of_loop (ends_of_leaves hagain hturn) hk hloop
      | .last _ | .again | .faults =>
        obtain ⟨e, he⟩ := h.waits (i := i) fun b ↦ by rw [hturn]; nofun
        exact absurd hloop (h.loop_ne_ok hagain hk he)
    | succ m ih =>
      intro i hk hagain
      have hnext : k = i + 1 + m := by omega
      match hturn : turn i with
      | .leaves b' => exact h.exists_ends_of_loop (ends_of_leaves hagain hturn) hk hloop
      | .last b' => exact h.exists_ends_of_loop (ends_of_last hagain hturn) hnext hloop
      | .again => exact ih (i + 1) hnext (Nat.forall_lt_succ_right.2 ⟨hagain, hturn⟩)
      | .faults =>
        obtain ⟨e, he⟩ := h.faults hturn (m + 1)
        exact absurd hloop (h.loop_ne_ok hagain hk he)
  · rw [hk, hw]
    exact h.loop_of_ends hends m

end Follows

end Round

end Answered
