import PreforkHttpd.Transition.PartialRun

/-!
# Processes that fork

A system of processes of one kind: a state is the list of the processes ever started, in order of
creation, and an action names a process by its position and says what it does. The local step gives
the process after the action together with the processes that it forked there, which are put at the
end of the list.

The rule `rooted_of_stepAt` follows a list that starts with one **root**
and has only **children** after it, two kinds of process with an invariant each: what a root does
keeps it a root, and whatever either of them forks is a child.
-/

namespace LabelledRun

variable {π α : Type*} {step : π → α → Option (π × List π)}

/-- Process `act.1` does `act.2`. -/
def stepAt (step : π → α → Option (π × List π)) (procs : List π) (act : ℕ × α) :
    Option (List π) :=
  procs[act.1]?.bind fun p ↦ (step p act.2).map fun r ↦ procs.set act.1 r.1 ++ r.2

/-- The process that moves, and what it becomes and forks. -/
theorem stepAt_eq_some_iff {procs procs' : List π} {act : ℕ × α} :
    stepAt step procs act = some procs' ↔
      ∃ p r, procs[act.1]? = some p ∧ step p act.2 = some r ∧
        procs' = procs.set act.1 r.1 ++ r.2 := by
  simp only [stepAt, Option.bind_eq_some_iff, Option.map_eq_some_iff, eq_comm (a := procs')]
  exact ⟨fun ⟨p, hp, r, hr, h⟩ ↦ ⟨p, r, hp, hr, h⟩, fun ⟨p, r, hp, hr, h⟩ ↦ ⟨p, hp, r, hr, h⟩⟩

/-- **What every process has**, and passes on to those it forks, all processes have after a step. -/
theorem forall_mem_of_stepAt {Q : π → Prop}
    (hstep : ∀ {p a r}, Q p → step p a = some r → Q r.1 ∧ ∀ q ∈ r.2, Q q)
    {procs procs' : List π} {act : ℕ × α} (h : ∀ p ∈ procs, Q p)
    (hact : stepAt step procs act = some procs') : ∀ p ∈ procs', Q p := by
  obtain ⟨p, r, hp, hr, rfl⟩ := stepAt_eq_some_iff.1 hact
  obtain ⟨hp', hnew⟩ := hstep (h p (List.mem_of_getElem? hp)) hr
  refine List.forall_mem_append.2 ⟨fun q hq ↦ ?_, hnew⟩
  rcases List.mem_or_eq_of_mem_set hq with hq | rfl
  · exact h q hq
  · exact hp'

/-- **Processes with more to them** take the steps of those that they are seen as. -/
theorem stepAt_map {ρ β : Type*} {step' : ρ → β → Option (ρ × List ρ)} (f : ρ → π) {k : ℕ} {a : α}
    {b : β} (hstep : ∀ {p r}, step' p b = some r → step (f p) a = some (f r.1, r.2.map f))
    {procs procs' : List ρ} (hact : stepAt step' procs (k, b) = some procs') :
    stepAt step (procs.map f) (k, a) = some (procs'.map f) := by
  obtain ⟨p, r, hp, hr, rfl⟩ := stepAt_eq_some_iff.1 hact
  refine stepAt_eq_some_iff.2 ⟨f p, _, ?_, hstep hr, ?_⟩
  · rw [List.getElem?_map, hp, Option.map_some]
  · rw [List.map_append, List.map_set]

/-- A step that does not show, and forks nothing, leaves everything that shows as it was. -/
theorem map_of_stepAt {κ : Type*} (f : π → κ) {act : ℕ × α}
    (hstep : ∀ {p r}, step p act.2 = some r → f r.1 = f p ∧ r.2 = []) {procs procs' : List π}
    (hact : stepAt step procs act = some procs') : procs'.map f = procs.map f := by
  obtain ⟨p, ⟨p', new⟩, hp, hr, rfl⟩ := stepAt_eq_some_iff.1 hact
  obtain ⟨hp', rfl⟩ := hstep hr
  obtain ⟨hlt, rfl⟩ := List.getElem?_eq_some_iff.1 hp
  rw [List.append_nil, List.map_set, hp', ← List.map_set, List.set_getElem_self]

/-- A root, and then children. -/
def Rooted (Root Child : π → Prop) : List π → Prop
  | [] => False
  | p :: rest => Root p ∧ ∀ q ∈ rest, Child q

variable {Root Child : π → Prop} {P : π → α → Prop}

/-- **One step of a rooted list**: the root stays a root, a child stays a child, and whatever is
forked is a child. -/
theorem rooted_of_stepAt
    (hroot : ∀ {p a r}, Root p → P p a → step p a = some r → Root r.1 ∧ ∀ q ∈ r.2, Child q)
    (hchild : ∀ {p a r}, Child p → P p a → step p a = some r → Child r.1 ∧ ∀ q ∈ r.2, Child q)
    {procs procs' : List π} {act : ℕ × α} (h : Rooted Root Child procs)
    (hP : ∀ p ∈ procs[act.1]?, P p act.2) (hstep : stepAt step procs act = some procs') :
    Rooted Root Child procs' := by
  obtain ⟨k, a⟩ := act
  obtain ⟨p, ⟨p', new⟩, hp, hr, rfl⟩ := stepAt_eq_some_iff.1 hstep
  rcases procs with - | ⟨root, rest⟩
  · exact h.elim
  obtain ⟨hroot', hrest⟩ := h
  have hPp : P p a := hP p hp
  cases k with
  | zero =>
    obtain rfl := Option.some.inj hp
    obtain ⟨hp', hnew⟩ := hroot hroot' hPp hr
    refine ⟨hp', fun q hq ↦ ?_⟩
    exact (List.mem_append.1 hq).elim (hrest q) (hnew q)
  | succ k =>
    have hmem : p ∈ rest := List.mem_of_getElem? hp
    obtain ⟨hp', hnew⟩ := hchild (hrest p hmem) hPp hr
    refine ⟨hroot', fun q hq ↦ ?_⟩
    obtain hq | hq := List.mem_append.1 hq
    · obtain hq | rfl := List.mem_or_eq_of_mem_set hq
      · exact hrest q hq
      · exact hp'
    · exact hnew q hq

end LabelledRun
