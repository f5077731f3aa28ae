import Mathlib.Data.List.Basic
import Mathlib.Algebra.Order.Group.Defs
import Mathlib.Data.Int.Basic

/-!
# Runs of a partial labelled step function

A system is given by a **partial step function** `step : σ → ι → Option σ`: `step s a` is the state
after action `a`, and `none` when `a` cannot be taken in `s` (or has no defined effect there). The
nondeterminism of a system is carried by its actions, so a run is a list of them and `runFrom`
is an ordinary function.

Two ways of speaking about a whole run are kept apart:

* `invariant_of_runFrom` is the usual rule — what every step preserves holds at the end — and
  `count_of_runFrom` the rule for a measure that counts the actions of one kind;
* `Along step P s as` says that **every** step of the run meets a condition `P` on the state before
  it and its action. A law that fails on some runs is then settled by naming the steps that break
  it: `invariant_of_along` keeps an invariant on the runs that avoid them.

Three rules make such a condition exact. By `throughout_iff_along` every state that a run passes
through is good **if and only if** every step met `P`, provided that a step which breaks `P` leads
straight to a bad state; by `good_iff_along` the same holds for the last state alone, provided that
no step leads back from the bad ones. The rule `drift_eq_iff_along` is about a measure of the state
that never decreases, stays put on the steps that meet `P` and grows on the steps that do not: at
the end of a run it is what it was at the start **if and only if** every step met `P`, and nothing
that happens later can make up for a step that broke the law.
-/

namespace LabelledRun

variable {σ ι : Type*} {step : σ → ι → Option σ}

/-! ### Runs -/

/-- Take the listed actions one after the other, from state `s`. -/
def runFrom (step : σ → ι → Option σ) : σ → List ι → Option σ
  | s, [] => some s
  | s, a :: as => (step s a).bind fun s' ↦ runFrom step s' as

theorem runFrom_cons (s : σ) (a : ι) (as : List ι) :
    runFrom step s (a :: as) = (step s a).bind fun s' ↦ runFrom step s' as := rfl

/-- A nonempty run is its first step followed by the rest. -/
theorem runFrom_cons_eq_some_iff {s t : σ} {a : ι} {as : List ι} :
    runFrom step s (a :: as) = some t ↔
      ∃ s', step s a = some s' ∧ runFrom step s' as = some t := by
  rw [runFrom_cons, Option.bind_eq_some_iff]

theorem runFrom_append (s : σ) (as bs : List ι) :
    runFrom step s (as ++ bs) = (runFrom step s as).bind fun s' ↦ runFrom step s' bs := by
  induction as generalizing s with
  | nil => rfl
  | cons a as ih =>
    rw [List.cons_append, runFrom_cons, runFrom_cons, Option.bind_assoc]
    exact congrArg _ (funext fun s' ↦ ih s')

/-- **Runs compose and split.** -/
theorem runFrom_append_eq_some_iff {s t : σ} {as bs : List ι} :
    runFrom step s (as ++ bs) = some t ↔
      ∃ m, runFrom step s as = some m ∧ runFrom step m bs = some t := by
  rw [runFrom_append, Option.bind_eq_some_iff]

/-- Actions that stand for others are taken as these. -/
theorem runFrom_map {κ : Type*} (f : κ → ι) (s : σ) (as : List κ) :
    runFrom step s (as.map f) = runFrom (fun s a ↦ step s (f a)) s as := by
  induction as generalizing s with
  | nil => rfl
  | cons a as ih =>
    rw [List.map_cons, runFrom_cons, runFrom_cons]
    exact congrArg _ (funext fun s' ↦ ih s')

/-- **A run of runs**: where a step is itself a run. -/
theorem runFrom_flatten {κ : Type*} (f : κ → List ι) (s : σ) (as : List κ) :
    runFrom step s (as.map f).flatten = runFrom (fun s a ↦ runFrom step s (f a)) s as := by
  induction as generalizing s with
  | nil => rfl
  | cons a as ih =>
    rw [List.map_cons, List.flatten_cons, runFrom_append, runFrom_cons]
    exact congrArg _ (funext fun s' ↦ ih s')

/-! ### Invariants -/

/-- **The invariant rule**: what each step preserves holds at the end of the run. -/
theorem invariant_of_runFrom (Inv : σ → Prop)
    (hstep : ∀ {s a s'}, Inv s → step s a = some s' → Inv s') {s t : σ} {as : List ι}
    (hrun : runFrom step s as = some t) (hs : Inv s) : Inv t := by
  induction as generalizing s with
  | nil => exact Option.some.inj hrun ▸ hs
  | cons a as ih =>
    obtain ⟨s', h, hrest⟩ := runFrom_cons_eq_some_iff.1 hrun
    exact ih hrest (hstep hs h)

/-- **The counting rule**: a measure that grows by one on the actions of one kind, and stays put on
the others, has counted the actions of that kind. -/
theorem count_of_runFrom {p : ι → Bool} {c : σ → ℕ}
    (hstep : ∀ {s a s'}, step s a = some s' → c s' = c s + [a].countP p) {s t : σ} {as : List ι}
    (hrun : runFrom step s as = some t) : c t = c s + as.countP p := by
  induction as generalizing s with
  | nil => exact congrArg c (Option.some.inj hrun).symm
  | cons a as ih =>
    obtain ⟨s', h, hrest⟩ := runFrom_cons_eq_some_iff.1 hrun
    rw [ih hrest, hstep h, Nat.add_assoc, ← List.countP_append, List.singleton_append]

/-- **The rule of refinement**: a system whose every step is followed by a step of another, which
can always be taken, is followed by it over whole runs. -/
theorem refines_of_runFrom {τ : Type*} {f : τ → ι → τ} (R : τ → σ → Prop)
    (hstep : ∀ {m s a s'}, R m s → step s a = some s' → R (f m a) s') {m : τ} {s t : σ}
    {as : List ι} (hrun : runFrom step s as = some t) (h : R m s) : R (as.foldl f m) t := by
  induction as generalizing m s with
  | nil => exact Option.some.inj hrun ▸ h
  | cons a as ih =>
    obtain ⟨s', hs', hrest⟩ := runFrom_cons_eq_some_iff.1 hrun
    exact ih hrest (hstep h hs')

/-- Take the listed actions, each of which gives an answer. -/
def answersFrom {β : Type*} (step : σ → ι → Option (β × σ)) : σ → List ι → Option (List β × σ)
  | s, [] => some ([], s)
  | s, a :: as => (step s a).bind fun x ↦ (answersFrom step x.2 as).map fun y ↦ (x.1 :: y.1, y.2)

theorem answersFrom_cons_eq_some_iff {β : Type*} {step : σ → ι → Option (β × σ)} {s t : σ} {a : ι}
    {as : List ι} {bs : List β} : answersFrom step s (a :: as) = some (bs, t) ↔
      ∃ b bs' s', bs = b :: bs' ∧ step s a = some (b, s') ∧
        answersFrom step s' as = some (bs', t) := by
  simp only [answersFrom, Option.bind_eq_some_iff, Option.map_eq_some_iff, Prod.mk.injEq,
    Prod.exists]
  constructor
  · rintro ⟨b, s', hstep, bs', t', hrest, rfl, rfl⟩
    exact ⟨b, bs', s', rfl, hstep, hrest⟩
  · rintro ⟨b, bs', s', rfl, hstep, hrest⟩
    exact ⟨b, s', hstep, bs', t, hrest, rfl, rfl⟩

/-- **The rule of refinement with answers**: a system that can take every step of another one, with
the same answer, can take its runs. The relation may depend on how many steps are still to come. -/
theorem exists_answersFrom {β τ : Type*} {f : τ → ι → Option (β × τ)}
    {g : σ → ι → Option (β × σ)} (R : ℕ → τ → σ → Prop)
    (hstep : ∀ {n m m' s a b}, R (n + 1) m s → f m a = some (b, m') →
      ∃ s', g s a = some (b, s') ∧ R n m' s') {m m' : τ} {s : σ} {as : List ι} {bs : List β}
    (hrun : answersFrom f m as = some (bs, m')) (h : R as.length m s) :
    ∃ s', answersFrom g s as = some (bs, s') ∧ R 0 m' s' := by
  induction as generalizing m s bs with
  | nil =>
    obtain ⟨rfl, rfl⟩ := Prod.mk.inj (Option.some.inj hrun)
    exact ⟨s, rfl, h⟩
  | cons a as ih =>
    obtain ⟨b, bs', m₁, rfl, hfirst, hrest⟩ := answersFrom_cons_eq_some_iff.1 hrun
    obtain ⟨s₁, hs₁, h₁⟩ := hstep h hfirst
    obtain ⟨s', hs', h'⟩ := ih hrest h₁
    exact ⟨s', answersFrom_cons_eq_some_iff.2 ⟨b, bs', s₁, rfl, hs₁, hs'⟩, h'⟩

/-- **Where the actions alone decide** whether a step can be taken, they decide it for a run. -/
theorem exists_runFrom_iff_forall {Q : ι → Prop} {s : σ} {as : List ι}
    (hstep : ∀ a ∈ as, ∀ s, (∃ s', step s a = some s') ↔ Q a) :
    (∃ t, runFrom step s as = some t) ↔ ∀ a ∈ as, Q a := by
  induction as generalizing s with
  | nil => exact iff_of_true ⟨s, rfl⟩ (List.forall_mem_nil _)
  | cons a as ih =>
    obtain ⟨ha, has⟩ := List.forall_mem_cons.1 hstep
    rw [List.forall_mem_cons, ← ha s]
    constructor
    · rintro ⟨t, hrun⟩
      obtain ⟨s', h, hrest⟩ := runFrom_cons_eq_some_iff.1 hrun
      exact ⟨⟨s', h⟩, (ih has).1 ⟨t, hrest⟩⟩
    · rintro ⟨⟨s', h⟩, hrest⟩
      obtain ⟨t, ht⟩ := (ih has (s := s')).2 hrest
      exact ⟨t, runFrom_cons_eq_some_iff.2 ⟨s', h, ht⟩⟩

/-- Every step of the run from `s` meets the condition `P`, which reads the state before the step
and the action taken. -/
def Along (step : σ → ι → Option σ) (P : σ → ι → Prop) : σ → List ι → Prop
  | _, [] => True
  | s, a :: as => P s a ∧ ∀ s' ∈ step s a, Along step P s' as

instance decidableAlong (P : σ → ι → Prop) [∀ s a, Decidable (P s a)] :
    ∀ (s : σ) (as : List ι), Decidable (Along step P s as)
  | _, [] => instDecidableTrue
  | s, a :: as =>
    haveI := fun s' ↦ decidableAlong P s' as
    inferInstanceAs (Decidable (P s a ∧ ∀ s' ∈ step s a, Along step P s' as))

variable {P : σ → ι → Prop}

theorem along_cons_iff {s s' : σ} {a : ι} {as : List ι} (h : step s a = some s') :
    Along step P s (a :: as) ↔ P s a ∧ Along step P s' as := by
  refine ⟨fun ⟨hP, hrest⟩ ↦ ⟨hP, hrest s' h⟩, fun ⟨hP, hrest⟩ ↦ ⟨hP, fun t ht ↦ ?_⟩⟩
  rw [Option.mem_def, h, Option.some.injEq] at ht
  exact ht ▸ hrest

/-- **The conditional invariant rule**: the invariant need only survive the steps that meet the
condition. -/
theorem invariant_of_along {Inv : σ → Prop}
    (hstep : ∀ {s a s'}, Inv s → P s a → step s a = some s' → Inv s') {s t : σ} {as : List ι}
    (hrun : runFrom step s as = some t) (halong : Along step P s as) (hs : Inv s) : Inv t := by
  induction as generalizing s with
  | nil => exact Option.some.inj hrun ▸ hs
  | cons a as ih =>
    obtain ⟨s', h, hrest⟩ := runFrom_cons_eq_some_iff.1 hrun
    exact ih hrest (halong.2 s' h) (hstep hs halong.1 h)

/-- **The budget rule**: where every action of one kind costs a unit of a measure that never grows,
a run takes no more of them than the measure allows at its start. -/
theorem countP_add_le_of_along {p : ι → Bool} {m : σ → ℕ} {Inv : σ → Prop}
    (hstep : ∀ {s a s'}, Inv s → P s a → step s a = some s' →
      Inv s' ∧ [a].countP p + m s' ≤ m s) {s t : σ} {as : List ι}
    (hrun : runFrom step s as = some t) (halong : Along step P s as) (hs : Inv s) :
    as.countP p + m t ≤ m s := by
  induction as generalizing s with
  | nil => exact le_of_eq ((Nat.zero_add _).trans (congrArg m (Option.some.inj hrun).symm))
  | cons a as ih =>
    obtain ⟨s', h, hrest⟩ := runFrom_cons_eq_some_iff.1 hrun
    obtain ⟨hs', hfirst⟩ := hstep hs halong.1 h
    have htail := ih hrest (halong.2 s' h) hs'
    rw [← List.singleton_append, List.countP_append]
    omega

/-- **The first break**: a run that does not meet the condition has a first part whose steps all
meet it, and which ends right before a step that does not. -/
theorem exists_first_break_of_not_along {s t : σ} {as : List ι}
    (hrun : runFrom step s as = some t) (h : ¬ Along step P s as) :
    ∃ before a rest m m', as = before ++ a :: rest ∧ runFrom step s before = some m ∧
      Along step P s before ∧ step m a = some m' ∧ ¬ P m a := by
  induction as generalizing s with
  | nil => exact absurd trivial h
  | cons a as ih =>
    obtain ⟨s', hstep, hrest⟩ := runFrom_cons_eq_some_iff.1 hrun
    by_cases hP : P s a
    · -- this step keeps the condition, so a later one breaks it
      have htail : ¬ Along step P s' as := fun htail ↦ h ((along_cons_iff hstep).2 ⟨hP, htail⟩)
      obtain ⟨before, b, rest, m, m', rfl, hm, halong, hb, hbreak⟩ := ih hrest htail
      exact ⟨a :: before, b, rest, m, m', rfl, runFrom_cons_eq_some_iff.2 ⟨s', hstep, hm⟩,
        (along_cons_iff hstep).2 ⟨hP, halong⟩, hb, hbreak⟩
    · exact ⟨[], a, as, s, s', rfl, rfl, trivial, hstep, hP⟩

/-- A run that does not meet the condition has a first part that ends right before a step which
breaks it. -/
theorem exists_break_of_not_along {s t : σ} {as : List ι} (hrun : runFrom step s as = some t)
    (h : ¬ Along step P s as) :
    ∃ before a rest m, as = before ++ a :: rest ∧ runFrom step s before = some m ∧ ¬ P m a := by
  obtain ⟨before, a, rest, m, -, has, hm, -, -, hbreak⟩ := exists_first_break_of_not_along hrun h
  exact ⟨before, a, rest, m, has, hm, hbreak⟩

/-- A condition that reads only the action is met along a run when every action meets it. -/
theorem along_iff_forall {Q : ι → Prop} {s t : σ} {as : List ι}
    (hrun : runFrom step s as = some t) : Along step (fun _ a ↦ Q a) s as ↔ ∀ a ∈ as, Q a := by
  induction as generalizing s with
  | nil => exact iff_of_true trivial (List.forall_mem_nil _)
  | cons a as ih =>
    obtain ⟨s', h, hrest⟩ := runFrom_cons_eq_some_iff.1 hrun
    rw [along_cons_iff h, ih hrest, List.forall_mem_cons]

/-- A condition that holds in every state is met along every run. -/
theorem along_of_forall {s : σ} {as : List ι} (h : ∀ a ∈ as, ∀ s, P s a) : Along step P s as := by
  induction as generalizing s with
  | nil => trivial
  | cons a as ih =>
    obtain ⟨ha, has⟩ := List.forall_mem_cons.1 h
    exact ⟨ha s, fun _ _ ↦ ih has⟩

/-- **Two conditions met by the same runs**: on the states of an invariant they ask for the same,
and the steps that meet one of them keep the invariant. -/
theorem along_congr (Inv : σ → Prop) {Q : σ → ι → Prop}
    (hiff : ∀ {s a}, Inv s → (P s a ↔ Q s a))
    (hstep : ∀ {s a s'}, Inv s → Q s a → step s a = some s' → Inv s') {s : σ} {as : List ι}
    (hs : Inv s) : Along step P s as ↔ Along step Q s as := by
  induction as generalizing s with
  | nil => exact Iff.rfl
  | cons a as ih =>
    refine (and_congr_left' (hiff hs)).trans (and_congr_right fun hQ ↦ ?_)
    exact forall₂_congr fun s' hs' ↦ ih (hstep hs hQ hs')

/-- Two conditions that ask for the same of the actions in question. -/
theorem along_congr_of_mem {Q : σ → ι → Prop} {s : σ} {as : List ι}
    (hiff : ∀ a ∈ as, ∀ s, P s a ↔ Q s a) : Along step P s as ↔ Along step Q s as := by
  induction as generalizing s with
  | nil => exact Iff.rfl
  | cons a as ih =>
    obtain ⟨ha, has⟩ := List.forall_mem_cons.1 hiff
    exact and_congr (ha s) (forall₂_congr fun s' _ ↦ ih has)

/-- **The rule of progress**: a run can go on as long as its steps meet a condition on which they
can be taken. -/
theorem exists_runFrom_of_along (Inv : σ → Prop)
    (hstep : ∀ {s a}, Inv s → P s a → ∃ s', step s a = some s' ∧ Inv s') {s : σ} {as : List ι}
    (hs : Inv s) (h : Along step P s as) : ∃ t, runFrom step s as = some t := by
  induction as generalizing s with
  | nil => exact ⟨s, rfl⟩
  | cons a as ih =>
    obtain ⟨s', hs', hinv⟩ := hstep hs h.1
    obtain ⟨t, ht⟩ := ih hinv (h.2 s' hs')
    exact ⟨t, runFrom_cons_eq_some_iff.2 ⟨s', hs', ht⟩⟩

/-! ### Every state of a run -/

/-- `Good` holds in every state that the run from `s` passes through. -/
def Throughout (step : σ → ι → Option σ) (Good : σ → Prop) (s : σ) (as : List ι) : Prop :=
  ∀ before t, before <+: as → runFrom step s before = some t → Good t

/-- Steps that meet the condition all along a run meet it along its first part. -/
theorem Along.of_isPrefix {s : σ} {as before : List ι} (h : Along step P s as)
    (hbefore : before <+: as) : Along step P s before := by
  induction before generalizing s as with
  | nil => trivial
  | cons a before ih =>
    obtain ⟨rest, rfl⟩ := hbefore
    exact ⟨h.1, fun s' hs' ↦ ih (h.2 s' hs') ⟨rest, rfl⟩⟩

/-- **Exactness by the first break**: when the condition keeps an invariant of good states, and a
step that breaks it leads from the invariant to a bad state, all states of a run are good if and
only if all its steps met the condition. -/
theorem throughout_iff_along {Inv Good : σ → Prop}
    (hstep : ∀ {s a s'}, Inv s → P s a → step s a = some s' → Inv s')
    (hgood : ∀ {s}, Inv s → Good s)
    (hbad : ∀ {s a s'}, Inv s → ¬ P s a → step s a = some s' → ¬ Good s') {s t : σ} {as : List ι}
    (hrun : runFrom step s as = some t) (hs : Inv s) :
    Throughout step Good s as ↔ Along step P s as := by
  refine ⟨fun hall ↦ ?_, fun halong before m hbefore hm ↦ ?_⟩
  · by_contra hnot
    obtain ⟨before, a, rest, m, m', rfl, hm, halong, ha, hbreak⟩ :=
      exists_first_break_of_not_along hrun hnot
    have hm' : runFrom step s (before ++ [a]) = some m' :=
      runFrom_append_eq_some_iff.2 ⟨m, hm, runFrom_cons_eq_some_iff.2 ⟨m', ha, rfl⟩⟩
    exact hbad (invariant_of_along hstep hm halong hs) hbreak ha (hall _ _ ⟨rest, by simp⟩ hm')
  · exact hgood (invariant_of_along hstep hm (halong.of_isPrefix hbefore) hs)

/-- **Exactness by no way back**: when a step that breaks the condition leads from the invariant
into states that no step leaves and that are not good, the state at the end of a run is good if and
only if all its steps met the condition. -/
theorem good_iff_along (Inv Lost : σ → Prop) {Good : σ → Prop}
    (hstep : ∀ {s a s'}, Inv s → P s a → step s a = some s' → Inv s')
    (hbreak : ∀ {s a s'}, Inv s → ¬ P s a → step s a = some s' → Lost s')
    (hlost : ∀ {s a s'}, Lost s → step s a = some s' → Lost s')
    (hgood : ∀ {s}, Inv s → Good s) (hnot : ∀ {s}, Lost s → ¬ Good s) {s t : σ} {as : List ι}
    (hrun : runFrom step s as = some t) (hs : Inv s) : Good t ↔ Along step P s as := by
  refine ⟨fun h ↦ ?_, fun halong ↦ hgood (invariant_of_along hstep hrun halong hs)⟩
  by_contra hnotAlong
  obtain ⟨before, a, rest, m, m', rfl, hm, halong, ha, hbroken⟩ :=
    exists_first_break_of_not_along hrun hnotAlong
  have hm' : Lost m' := hbreak (invariant_of_along hstep hm halong hs) hbroken ha
  obtain ⟨n, hn, hrest⟩ := runFrom_append_eq_some_iff.1 hrun
  obtain rfl := Option.some.inj (hm.symm.trans hn)
  obtain ⟨n', hn', hrest⟩ := runFrom_cons_eq_some_iff.1 hrest
  obtain rfl := Option.some.inj (ha.symm.trans hn')
  exact hnot (invariant_of_runFrom Lost hlost hrest hm') h

/-! ### Drift -/

/-- What a measure of the state does on one step: it never decreases, and it grows exactly when the
step breaks the condition. -/
def Drifts (step : σ → ι → Option σ) (Inv : σ → Prop) (P : σ → ι → Prop) (d : σ → ℤ) : Prop :=
  ∀ {s a s'}, Inv s → step s a = some s' → (P s a → d s' = d s) ∧ (¬ P s a → d s < d s')

/-- A drifting measure never decreases along a run. -/
theorem drift_le {Inv : σ → Prop} {d : σ → ℤ} (hd : Drifts step Inv P d)
    (hstep : ∀ {s a s'}, Inv s → step s a = some s' → Inv s') {s t : σ} {as : List ι}
    (hrun : runFrom step s as = some t) (hs : Inv s) : d s ≤ d t := by
  induction as generalizing s with
  | nil => exact le_of_eq (congrArg d (Option.some.inj hrun))
  | cons a as ih =>
    obtain ⟨s', h, hrest⟩ := runFrom_cons_eq_some_iff.1 hrun
    have hle : d s ≤ d s' := by
      by_cases hP : P s a
      · exact le_of_eq ((hd hs h).1 hP).symm
      · exact le_of_lt ((hd hs h).2 hP)
    exact hle.trans (ih hrest (hstep hs h))

/-- **Exactness by drift**: at the end of a run the measure is back at its first value if and only
if every step met the condition. -/
theorem drift_eq_iff_along {Inv : σ → Prop} {d : σ → ℤ} (hd : Drifts step Inv P d)
    (hstep : ∀ {s a s'}, Inv s → step s a = some s' → Inv s') {s t : σ} {as : List ι}
    (hrun : runFrom step s as = some t) (hs : Inv s) : d t = d s ↔ Along step P s as := by
  induction as generalizing s with
  | nil => exact iff_of_true (congrArg d (Option.some.inj hrun)).symm trivial
  | cons a as ih =>
    obtain ⟨s', h, hrest⟩ := runFrom_cons_eq_some_iff.1 hrun
    have hs' : Inv s' := hstep hs h
    rw [along_cons_iff h, ← ih hrest hs']
    by_cases hP : P s a
    · rw [(hd hs h).1 hP]
      exact (and_iff_right hP).symm
    · -- the measure has grown for good, so it cannot come back
      have hlt : d s < d s' := (hd hs h).2 hP
      have hle : d s' ≤ d t := drift_le hd hstep hrest hs'
      exact iff_of_false (fun heq ↦ absurd (hlt.trans_le hle) (heq ▸ lt_irrefl _))
        fun hc ↦ hP hc.1

end LabelledRun
