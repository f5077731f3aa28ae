import Mathlib.Data.Nat.Notation
import Mathlib.Order.Basic

/-!
# Code that runs on the answers of its system calls

A piece of code that makes system calls is run on **what the calls will return**: the state `ω`
holds the answers still to come, and each call takes the next one. The answers are given up to some
point only, so a run has three outcomes. It returns a value; it stops at a fault (an index outside
an array, a null pointer); or it is `pending` — the answers are used up and the code is still
running. Code that never returns on some infinite sequence of answers is code that is pending on
every finite part of it.

## Retry loops

A loop such as `while (f() == -1) …` has no bound of its own. What bounds it on a finite list of
answers is that a round which goes round again has used up an answer, and a `Round` carries the
proof of that. `Round.loop` can then be run with as much fuel as there are answers, and the fuel
disappears from view: `loop_of_inl` and `loop_of_inr` are the unfolding a reader expects of a
`while`.

Three rules cover what is proved about such loops. `Round.loop_rule` is the invariant rule for runs
that return. `Round.loop_returns` is its total counterpart: an invariant that keeps every round from
stopping makes the loop return. `Round.loop_pending` is the rule for loops that hang: when an
invariant of the rounds rules out that any of them leaves the loop, the loop is pending on every
list of answers.

## Code that keeps to its answers

Three properties are passed from parts of code to the whole, through sequence and through loops.
`Forward` code leaves a state no earlier than the one it found, in the order in which answers are
used up; `Keeps` is the frame, code that leaves a part of the state as it is; `Safe` code does not
stop at a fault, so it returns or waits.
-/

namespace Answered

/-- Why code has not returned. -/
inductive Stop (φ : Type)
  | fault (f : φ)
  /-- The answers are used up. -/
  | pending
deriving DecidableEq

/-- Code that makes no calls: a value, or a fault. -/
abbrev Checked (φ α : Type) := Except (Stop φ) α

/-- Code that takes the answers of its calls from a state `ω`. -/
abbrev Code (ω φ α : Type) := StateT ω (Except (Stop φ)) α

variable {ω φ α β σ ι : Type}

/-! ### Running code -/

section Run

variable {m : Code ω φ α} {k : α → Code ω φ β} {w w' : ω} {a : α}

theorem pure_run (a : α) (w : ω) : (pure a : Code ω φ α) w = .ok (a, w) := rfl

theorem bind_of_ok (h : m w = .ok (a, w')) : (m >>= k) w = k a w' := by
  show (m w >>= fun p ↦ k p.1 p.2) = k a w'
  rw [h]
  rfl

theorem bind_of_error {e : Stop φ} (h : m w = .error e) : (m >>= k) w = .error e := by
  show (m w >>= fun p ↦ k p.1 p.2) = .error e
  rw [h]
  rfl

/-- **Peeling a computation apart**: what returned did so in two parts. -/
theorem bind_eq_ok_iff {r : β × ω} :
    (m >>= k) w = .ok r ↔ ∃ a w', m w = .ok (a, w') ∧ k a w' = .ok r := by
  cases h : m w with
  | error e =>
    rw [bind_of_error h]
    exact ⟨nofun, fun ⟨a, w', h', _⟩ ↦ by cases h'⟩
  | ok p =>
    rw [bind_of_ok h]
    refine ⟨fun h' ↦ ⟨p.1, p.2, rfl, h'⟩, ?_⟩
    rintro ⟨a, w', h', hk⟩
    obtain rfl := Except.ok.inj h'
    exact hk

/-- Code that only makes something else of its result. -/
theorem bind_pure_eq_map (f : α → β) :
    (m >>= fun a ↦ pure (f a)) w = (m w).map fun p ↦ (f p.1, p.2) := by
  cases h : m w with
  | error e => exact bind_of_error h
  | ok p => exact bind_of_ok h

theorem checked_bind_of_ok {c : Checked φ α} {k : α → Checked φ β} (h : c = .ok a) :
    (c >>= k) = k a := by
  rw [h]
  rfl

theorem checked_bind_of_error {c : Checked φ α} {k : α → Checked φ β} {e : Stop φ}
    (h : c = .error e) : (c >>= k) = .error e := by
  rw [h]
  rfl

theorem lift_of_ok {c : Checked φ α} (h : c = .ok a) (w : ω) :
    (liftM c : Code ω φ α) w = .ok (a, w) := by
  rw [h]
  rfl

theorem lift_eq_ok_iff {c : Checked φ α} :
    (liftM c : Code ω φ α) w = .ok (a, w') ↔ c = .ok a ∧ w' = w := by
  cases c with
  | error e => exact ⟨nofun, nofun⟩
  | ok b =>
    show Except.ok (b, w) = Except.ok (a, w') ↔ _
    rw [Except.ok.injEq, Prod.mk.injEq, Except.ok.injEq, eq_comm (a := w)]

theorem lift_of_error {c : Checked φ α} {e : Stop φ} (h : c = .error e) (w : ω) :
    (liftM c : Code ω φ α) w = .error e := by
  rw [h]
  rfl

end Run

/-- Take the next answer of one kind: `answers` reads those to come, `rest` puts back what is
left. -/
def ask (answers : ω → List ι) (rest : List ι → ω → ω) : Code ω φ ι := fun w ↦
  match answers w with
  | [] => .error .pending
  | a :: as => .ok (a, rest as w)

theorem ask_of_cons {answers : ω → List ι} {rest : List ι → ω → ω} {w : ω} {a : ι} {as : List ι}
    (h : answers w = a :: as) : (ask answers rest : Code ω φ ι) w = .ok (a, rest as w) := by
  rw [ask, h]

theorem ask_eq_ok_iff {answers : ω → List ι} {rest : List ι → ω → ω} {w w' : ω} {a : ι} :
    (ask answers rest : Code ω φ ι) w = .ok (a, w') ↔
      ∃ as, answers w = a :: as ∧ w' = rest as w := by
  unfold ask
  split
  next h => exact ⟨nofun, fun ⟨as, has, _⟩ ↦ by rw [h] at has; cases has⟩
  next b bs h =>
    rw [h]
    refine ⟨fun heq ↦ ?_, fun ⟨as, has, hw⟩ ↦ ?_⟩
    · obtain ⟨rfl, rfl⟩ := Prod.mk.inj (Except.ok.inj heq)
      exact ⟨bs, rfl, rfl⟩
    · obtain ⟨rfl, rfl⟩ := List.cons.inj has
      rw [hw]

theorem ask_of_nil {answers : ω → List ι} {rest : List ι → ω → ω} {w : ω}
    (h : answers w = []) : (ask answers rest : Code ω φ ι) w = .error .pending := by
  rw [ask, h]

/-! ### Loops -/

/-- The body of a loop. It goes round again with `.inl`, and then it has used up an answer; it
leaves the loop with `.inr`. -/
structure Round (size : ω → ℕ) (φ σ β : Type) where
  run : σ → Code ω φ (σ ⊕ β)
  size_lt : ∀ {s w s' w'}, run s w = .ok (.inl s', w') → size w' < size w

namespace Round

variable {size : ω → ℕ}

/-- At most so many rounds. -/
def loopFor (body : σ → Code ω φ (σ ⊕ β)) : ℕ → σ → Code ω φ β
  | 0, _, _ => .error .pending
  | n + 1, s, w =>
    match body s w with
    | .ok (.inl s', w') => loopFor body n s' w'
    | .ok (.inr b, w') => .ok (b, w')
    | .error e => .error e

/-- The loop itself: fuel for one round more than there are answers. -/
def loop (r : Round size φ σ β) (s : σ) : Code ω φ β := fun w ↦
  loopFor r.run (size w + 1) s w

/-- Fuel beyond the number of answers makes no difference. -/
theorem loopFor_congr (r : Round size φ σ β) :
    ∀ {n m : ℕ} {s : σ} {w : ω}, size w < n → size w < m →
      loopFor r.run n s w = loopFor r.run m s w
  | 0, _, _, _, hn, _ => absurd hn (Nat.not_lt_zero _)
  | _, 0, _, _, _, hm => absurd hm (Nat.not_lt_zero _)
  | n + 1, m + 1, s, w, hn, hm => by
    rw [loopFor, loopFor]
    split
    next s' w' h =>
      have hlt := r.size_lt h
      exact loopFor_congr r (by omega) (by omega)
    next => rfl
    next => rfl

variable (r : Round size φ σ β) {s s' : σ} {w w' : ω} {b : β} {e : Stop φ}

/-- **The unfolding of a loop**: one round, then the loop again. -/
theorem loop_of_inl (h : r.run s w = .ok (.inl s', w')) : r.loop s w = r.loop s' w' := by
  have hlt := r.size_lt h
  rw [loop, loopFor, h]
  exact r.loopFor_congr hlt (Nat.lt_succ_self _)

theorem loop_of_inr (h : r.run s w = .ok (.inr b, w')) : r.loop s w = .ok (b, w') := by
  rw [loop, loopFor, h]

theorem loop_of_error (h : r.run s w = .error e) : r.loop s w = .error e := by
  rw [loop, loopFor, h]

/-- A loop that returns leaves in its first round, or in a later one. -/
theorem loop_eq_ok (h : r.loop s w = .ok (b, w')) :
    r.run s w = .ok (.inr b, w') ∨
      ∃ s' v, r.run s w = .ok (.inl s', v) ∧ r.loop s' v = .ok (b, w') := by
  match hrun : r.run s w with
  | .error e =>
    rw [r.loop_of_error hrun] at h
    cases h
  | .ok (.inr c, v) =>
    rw [r.loop_of_inr hrun] at h
    cases h
    exact Or.inl rfl
  | .ok (.inl s', v) =>
    rw [r.loop_of_inl hrun] at h
    exact Or.inr ⟨s', v, rfl, h⟩

/-- **A loop that forgets its result**, or keeps something else of it. -/
theorem loop_map {γ : Type} (r' : Round size φ σ γ) (f : β → γ)
    (h : ∀ s w, r'.run s w = (r.run s w).map fun p ↦ (p.1.map id f, p.2)) (s : σ) (w : ω) :
    r'.loop s w = (r.loop s w).map fun p ↦ (f p.1, p.2) := by
  induction hsize : size w using Nat.strongRecOn generalizing s w with
  | ind n ih =>
    match hrun : r.run s w with
    | .error e =>
      have hrun' : r'.run s w = .error e := by rw [h, hrun]; rfl
      rw [r.loop_of_error hrun, r'.loop_of_error hrun']
      rfl
    | .ok (.inr b, v) =>
      have hrun' : r'.run s w = .ok (.inr (f b), v) := by rw [h, hrun]; rfl
      rw [r.loop_of_inr hrun, r'.loop_of_inr hrun']
      rfl
    | .ok (.inl s', v) =>
      have hrun' : r'.run s w = .ok (.inl s', v) := by rw [h, hrun]; rfl
      rw [r.loop_of_inl hrun, r'.loop_of_inl hrun']
      exact ih _ (hsize ▸ r.size_lt hrun) s' v rfl

/-- **The invariant rule**: what every further round preserves holds in the last one, the one that
leaves the loop. -/
theorem loop_rule (Inv : σ → ω → Prop) (Post : β → ω → Prop)
    (hround : ∀ {s w s' w'}, Inv s w → r.run s w = .ok (.inl s', w') → Inv s' w')
    (hleave : ∀ {s w b w'}, Inv s w → r.run s w = .ok (.inr b, w') → Post b w')
    (hs : Inv s w) (h : r.loop s w = .ok (b, w')) : Post b w' := by
  induction hsize : size w using Nat.strongRecOn generalizing s w with
  | ind n ih =>
    obtain hrun | ⟨s', v, hrun, hloop⟩ := r.loop_eq_ok h
    · exact hleave hs hrun
    · exact ih _ (hsize ▸ r.size_lt hrun) (hround hs hrun) hloop rfl

/-- **The hanging rule**: when an invariant leaves every round only the choice of going round again
or of waiting for an answer, the loop does not end. -/
theorem loop_pending (Inv : σ → ω → Prop)
    (hround : ∀ {s w}, Inv s w →
      r.run s w = .error .pending ∨ ∃ s' w', r.run s w = .ok (.inl s', w') ∧ Inv s' w')
    (hs : Inv s w) : r.loop s w = .error .pending := by
  induction hsize : size w using Nat.strongRecOn generalizing s w with
  | ind n ih =>
    obtain hrun | ⟨s', v, hrun, hv⟩ := hround hs
    · exact r.loop_of_error hrun
    · rw [r.loop_of_inl hrun]
      exact ih _ (hsize ▸ r.size_lt hrun) hv rfl

/-- **The rule of return**: when an invariant keeps every round from stopping, the loop returns, for
it can go round only as often as there are answers. -/
theorem loop_returns (Inv : σ → ω → Prop) (Post : β → ω → Prop)
    (hround : ∀ {s w}, Inv s w →
      (∃ s' w', r.run s w = .ok (.inl s', w') ∧ Inv s' w') ∨
        ∃ b w', r.run s w = .ok (.inr b, w') ∧ Post b w')
    (hs : Inv s w) : ∃ b w', r.loop s w = .ok (b, w') ∧ Post b w' := by
  induction hsize : size w using Nat.strongRecOn generalizing s w with
  | ind n ih =>
    obtain ⟨s', v, hrun, hv⟩ | ⟨b, v, hrun, hv⟩ := hround hs
    · rw [r.loop_of_inl hrun]
      exact ih _ (hsize ▸ r.size_lt hrun) hv rfl
    · exact ⟨b, v, r.loop_of_inr hrun, hv⟩

end Round

/-! ### Code that only moves forward -/

section Forward

variable [Preorder ω]

/-- Whatever returns leaves a state no earlier than the one it found. With the order in which
answers are used up this is the frame of all code that makes calls. -/
def Forward (m : Code ω φ α) : Prop := ∀ ⦃w a w'⦄, m w = .ok (a, w') → w ≤ w'

theorem forward_pure (a : α) : Forward (pure a : Code ω φ α) := by
  intro w b w' h
  cases h
  exact le_rfl

theorem forward_lift (c : Checked φ α) : Forward (liftM c : Code ω φ α) := by
  intro w a w' h
  obtain ⟨-, rfl⟩ := lift_eq_ok_iff.1 h
  exact le_rfl

theorem Forward.bind {m : Code ω φ α} {k : α → Code ω φ β} (hm : Forward m)
    (hk : ∀ a, Forward (k a)) : Forward (m >>= k) := by
  intro w b w' h
  rw [bind_eq_ok_iff] at h
  obtain ⟨a, v, hmv, hkv⟩ := h
  exact (hm hmv).trans (hk a hkv)

theorem Forward.ite {p : Prop} [Decidable p] {m m' : Code ω φ α} (hm : Forward m)
    (hm' : Forward m') : Forward (if p then m else m') := by
  split
  · exact hm
  · exact hm'

/-- A loop moves forward when its rounds do. -/
theorem Round.forward_loop {size : ω → ℕ} (r : Round size φ σ β) (hr : ∀ s, Forward (r.run s))
    (s : σ) : Forward (r.loop s) := by
  intro w b w' h
  exact r.loop_rule (fun _ v ↦ w ≤ v) (fun _ v ↦ w ≤ v) (fun hv hrun ↦ hv.trans (hr _ hrun))
    (fun hv hrun ↦ hv.trans (hr _ hrun)) (le_refl w) h

/-- A loop uses up an answer when its last round does, should that be the first. -/
theorem Round.size_lt_of_loop {size : ω → ℕ} (r : Round size φ σ β)
    (hsize : ∀ {w w' : ω}, w ≤ w' → size w' ≤ size w) (hr : ∀ s, Forward (r.run s))
    {s : σ} {w w' : ω} {b : β} (hlast : r.run s w = .ok (.inr b, w') → size w' < size w)
    (h : r.loop s w = .ok (b, w')) : size w' < size w := by
  obtain hrun | ⟨s', v, hrun, hloop⟩ := r.loop_eq_ok h
  · exact hlast hrun
  · exact Nat.lt_of_le_of_lt (hsize (r.forward_loop hr s' hloop)) (r.size_lt hrun)

end Forward

/-! ### Code that leaves something alone -/

section Keeps

variable {κ : Type} {view : ω → κ}

/-- Whatever returns leaves what `view` sees of the state as it is. -/
def Keeps (view : ω → κ) (m : Code ω φ α) : Prop := ∀ ⦃w a w'⦄, m w = .ok (a, w') → view w' = view w

theorem keeps_pure (a : α) : Keeps view (pure a : Code ω φ α) := by
  intro w b w' h
  cases h
  rfl

theorem keeps_lift (c : Checked φ α) : Keeps view (liftM c : Code ω φ α) := by
  intro w a w' h
  obtain ⟨-, rfl⟩ := lift_eq_ok_iff.1 h
  rfl

theorem Keeps.bind {m : Code ω φ α} {k : α → Code ω φ β} (hm : Keeps view m)
    (hk : ∀ a, Keeps view (k a)) : Keeps view (m >>= k) := by
  intro w b w' h
  rw [bind_eq_ok_iff] at h
  obtain ⟨a, v, hmv, hkv⟩ := h
  exact (hk a hkv).trans (hm hmv)

theorem Keeps.ite {p : Prop} [Decidable p] {m m' : Code ω φ α} (hm : Keeps view m)
    (hm' : Keeps view m') : Keeps view (if p then m else m') := by
  split
  · exact hm
  · exact hm'

/-- A loop leaves alone what its rounds leave alone. -/
theorem Round.keeps_loop {size : ω → ℕ} (r : Round size φ σ β) (hr : ∀ s, Keeps view (r.run s))
    (s : σ) : Keeps view (r.loop s) := by
  intro w b w' h
  exact r.loop_rule (fun _ v ↦ view v = view w) (fun _ v ↦ view v = view w)
    (fun hv hrun ↦ (hr _ hrun).trans hv) (fun hv hrun ↦ (hr _ hrun).trans hv) rfl h

end Keeps

/-! ### Code without faults -/

section Safe

/-- Whatever the answers, the code does not stop at a fault. -/
def Safe (m : Code ω φ α) : Prop := ∀ w f, m w ≠ .error (.fault f)

/-- Safe code returns or waits. -/
theorem Safe.eq_pending_or_ok {m : Code ω φ α} (hm : Safe m) (w : ω) :
    m w = .error .pending ∨ ∃ a w', m w = .ok (a, w') := by
  match h : m w with
  | .error (.fault f) => exact absurd h (hm w f)
  | .error .pending => exact Or.inl rfl
  | .ok (a, w') => exact Or.inr ⟨a, w', rfl⟩

theorem safe_pure (a : α) : Safe (pure a : Code ω φ α) := fun _ _ ↦ nofun

theorem safe_lift_of_ok {c : Checked φ α} {a : α} (h : c = .ok a) :
    Safe (liftM c : Code ω φ α) := by
  intro w f
  rw [lift_of_ok h]
  nofun

theorem safe_ask (answers : ω → List ι) (rest : List ι → ω → ω) :
    Safe (ask answers rest : Code ω φ ι) := by
  intro w f
  unfold ask
  split <;> nofun

theorem Safe.bind {m : Code ω φ α} {k : α → Code ω φ β} (hm : Safe m) (hk : ∀ a, Safe (k a)) :
    Safe (m >>= k) := by
  intro w f
  obtain h | ⟨a, v, h⟩ := hm.eq_pending_or_ok w
  · rw [bind_of_error h]
    nofun
  · rw [bind_of_ok h]
    exact hk a v f

/-- A loop is safe when its rounds are. -/
theorem Round.safe_loop {size : ω → ℕ} (r : Round size φ σ β) (hr : ∀ s, Safe (r.run s)) (s : σ) :
    Safe (r.loop s) := by
  intro w f
  induction hsize : size w using Nat.strongRecOn generalizing s w with
  | ind n ih =>
    obtain h | ⟨s' | b, v, h⟩ := (hr s).eq_pending_or_ok w
    · rw [r.loop_of_error h]
      nofun
    · rw [r.loop_of_inl h]
      exact ih _ (hsize ▸ r.size_lt h) s' v rfl
    · rw [r.loop_of_inr h]
      nofun

end Safe

end Answered
