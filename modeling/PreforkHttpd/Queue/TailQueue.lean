import PreforkHttpd.Memory.Sequences
import PreforkHttpd.Transition.PartialRun

/-!
# Tail queues

The `TAILQ_` macros of `inc/list.h`. The head and every element hold a pointer to the next element,
null at the end, and the **address of the pointer that points to them**: `tqe_prev` is the address
of the `next` field of the element before, or of `tqh_first`, and `tqh_last` is the address of the
last `next` field. Such an address is named by the place that the field belongs to, so that the two
fields of a place are `next` and `prev` of `LinkFields.Fields`, `tqh_first` and `tqh_last` for the
head and `tqe_next` and `tqe_prev` for an element. A store through the address, `*tqe_prev = …`, is
an assignment to the `next` field of that place.

`TAILQ_LAST` and `TAILQ_PREV` read an element as if it were a head: the address of a `next` field is
cast to a head, whose `tqh_last` is then the `tqe_prev` behind that `next`. This is why the two
kinds of place share their fields here as they do there.

`tailQueue_reads` is the result: after any run of the macros by the rules, whatever was in memory
before `TAILQ_INIT`, the queue is the edited sequence, read from either end, and none of the checks
that the header would compile in under `QUEUEDEBUG` fires.
-/

open LinkFields LabelledRun Sequence

namespace PreforkHttpd

namespace TailQueue

/-- The fields of `TAILQ_HEAD` and of the `TAILQ_ENTRY`s. -/
abbrev Memory (ι : Type*) := Fields ι (Option ι)

variable {ι : Type*}

/-! ### The macros that read -/

/-- `TAILQ_LAST` for the head, and `TAILQ_PREV` for an element. -/
def prev (m : Memory ι) (p : Spot ι) : Option ι := m.next (m.prev (m.prev p))

/-- `TAILQ_FOREACH`, for no more than so many rounds. -/
def forEach (rounds : ℕ) (m : Memory ι) : Option (List ι) := walk m.next rounds .head

/-- `TAILQ_FOREACH_REVERSE`. -/
def forEachReverse (rounds : ℕ) (m : Memory ι) : Option (List ι) := walk (prev m) rounds .head

/-- The check of `QUEUEDEBUG_TAILQ_OP` passes: the next element points back at the field that points
to it, and so does this one. -/
def CheckOp (m : Memory ι) (i : ι) : Prop :=
  (∀ b ∈ m.next (.elem i), m.prev (.elem b) = .elem i) ∧ m.next (m.prev (.elem i)) = some i

/-- The checks of `QUEUEDEBUG_TAILQ_INSERT_HEAD` and `QUEUEDEBUG_TAILQ_INSERT_TAIL` pass. -/
def CheckEnds (m : Memory ι) : Prop :=
  (∀ b ∈ m.next .head, m.prev (.elem b) = .head) ∧ m.next (m.prev .head) = none

/-- The memory holds the queue. -/
abbrev Holds (m : Memory ι) (l : List ι) : Prop := Ring some none m l

variable {m m' : Memory ι} {l l' l₁ l₂ : List ι} {a i : ι}

/-- The element before a place is the last of those before it. -/
theorem Holds.next_prev_last (h : Holds m (l₁ ++ l₂)) :
    m.next (m.prev (last .head l₁)) = l₁.getLast? := by
  induction l₁ using List.reverseRecOn with
  | nil =>
    show m.next (m.prev .head) = none
    rw [h.closed]
    exact h.linked.next_last
  | append_singleton l₁ j _ =>
    rw [List.append_assoc, List.singleton_append] at h
    rw [last_concat, h.back.prev_elem, List.getLast?_concat]
    exact h.linked.next_last_append

/-- `TAILQ_LAST`. -/
theorem Holds.prev_head (h : Holds m l) : prev m .head = l.getLast? := by
  rw [← List.append_nil l] at h
  rw [prev, h.closed, List.append_nil]
  exact h.next_prev_last

/-- `TAILQ_PREV`. -/
theorem Holds.prev_elem (h : Holds m (l₁ ++ i :: l₂)) : prev m (.elem i) = l₁.getLast? := by
  rw [prev, h.back.prev_elem]
  exact h.next_prev_last

/-- The memory is read as the sequence `l`, and passes the checks of the header. -/
structure Reads (m : Memory ι) (l : List ι) : Prop where
  /-- `TAILQ_FOREACH` ends, and visits the elements in order. -/
  forEach : ∀ rounds, l.length ≤ rounds → forEach rounds m = some l
  /-- `TAILQ_FOREACH_REVERSE` ends, and visits them in the opposite order. -/
  forEachReverse : ∀ rounds, l.length ≤ rounds → forEachReverse rounds m = some l.reverse
  /-- `TAILQ_FIRST` and `TAILQ_LAST`. -/
  ends : m.next .head = l.head? ∧ prev m .head = l.getLast?
  /-- `TAILQ_NEXT` and `TAILQ_PREV` lead from each of two neighbours to the other. -/
  neighbours : ∀ l₁ a b l₂, l = l₁ ++ a :: b :: l₂ →
    m.next (.elem a) = some b ∧ prev m (.elem b) = some a
  checkOp : ∀ i ∈ l, CheckOp m i
  checkEnds : CheckEnds m

/-- The links of the two sides of an element agree. -/
theorem Holds.checkOp (h : Holds m (l₁ ++ i :: l₂)) : CheckOp m i := by
  rw [CheckOp, h.back.prev_elem]
  refine ⟨fun b hb ↦ ?_, h.linked.next_last_append⟩
  rw [Option.mem_def, h.linked.next_elem] at hb
  cases l₂ with
  | nil => cases hb
  | cons j l₂ =>
    obtain rfl := Option.some.inj hb
    rw [List.append_cons] at h
    rw [h.back.prev_elem, last_concat]

theorem Holds.reads (h : Holds m l) : Reads m l where
  forEach _ := h.linked.walk
  forEachReverse _ hrounds := by
    refine (linked_reverse h.prev_head ?_).walk (l.length_reverse.trans_le hrounds)
    rintro l₁ i l₂ rfl
    exact h.prev_elem
  ends := by
    refine ⟨?_, h.prev_head⟩
    cases l with
    | nil => exact h.linked
    | cons i l => exact h.linked.1
  neighbours := by
    rintro l₁ a b l₂ rfl
    refine ⟨h.linked.next_elem, ?_⟩
    rw [List.append_cons] at h
    exact h.prev_elem.trans List.getLast?_concat
  checkOp i hi := by
    obtain ⟨l₁, l₂, rfl⟩ := List.append_of_mem hi
    exact h.checkOp
  checkEnds := by
    refine ⟨fun b hb ↦ ?_, h.closed ▸ h.linked.next_last⟩
    cases l with
    | nil => exact absurd (hb.symm.trans h.linked) nofun
    | cons i l =>
      obtain rfl := Option.some.inj (h.linked.1.symm.trans hb)
      exact h.back.1

/-! ### The macros that write -/

variable [DecidableEq ι]

/-- `TAILQ_INIT`. -/
def init (m : Memory ι) : Memory ι := (m.setNext .head none).setPrev .head .head

/-- `TAILQ_INSERT_HEAD`. -/
def insertHead (i : ι) (m : Memory ι) : Memory ι :=
  let m := m.setNext (.elem i) (m.next .head)
  let m := match m.next .head with
    | some first => m.setPrev (.elem first) (.elem i)
    | none => m.setPrev .head (.elem i)
  (m.setNext .head (some i)).setPrev (.elem i) .head

/-- `TAILQ_INSERT_TAIL`. -/
def insertTail (i : ι) (m : Memory ι) : Memory ι :=
  let m := m.setNext (.elem i) none
  let m := m.setPrev (.elem i) (m.prev .head)
  let m := m.setNext (m.prev .head) (some i)
  m.setPrev .head (.elem i)

/-- `TAILQ_INSERT_AFTER`. -/
def insertAfter (a i : ι) (m : Memory ι) : Memory ι :=
  let m := m.setNext (.elem i) (m.next (.elem a))
  let m := match m.next (.elem i) with
    | some b => m.setPrev (.elem b) (.elem i)
    | none => m.setPrev .head (.elem i)
  (m.setNext (.elem a) (some i)).setPrev (.elem i) (.elem a)

/-- `TAILQ_INSERT_BEFORE`. -/
def insertBefore (a i : ι) (m : Memory ι) : Memory ι :=
  let m := m.setPrev (.elem i) (m.prev (.elem a))
  let m := m.setNext (.elem i) (some a)
  let m := m.setNext (m.prev (.elem a)) (some i)
  m.setPrev (.elem a) (.elem i)

/-- `TAILQ_REMOVE`. -/
def remove (i : ι) (m : Memory ι) : Memory ι :=
  let m := match m.next (.elem i) with
    | some b => m.setPrev (.elem b) (m.prev (.elem i))
    | none => m.setPrev .head (m.prev (.elem i))
  m.setNext (m.prev (.elem i)) (m.next (.elem i))

/-- One use of a macro. -/
def step (m : Memory ι) : Edit ι → Memory ι
  | .insertHead i => insertHead i m
  | .insertTail i => insertTail i m
  | .insertAfter a i => insertAfter a i m
  | .insertBefore a i => insertBefore a i m
  | .remove i => remove i m

/-! ### What the macros keep -/

theorem holds_init (m : Memory ι) : Holds (init m) [] where
  nodup := List.nodup_nil
  linked := show (init m).next .head = none by simp [init]
  back := trivial
  closed := show (init m).prev .head = .head by simp [init]

/-- The place that a pointer to the next element leads to: the head, when it is null. -/
theorem setPrev_start (l : List ι) (q : Spot ι) (m : Memory ι) :
    (match start some l none with
      | some b => m.setPrev (.elem b) q
      | none => m.setPrev .head q) = m.setPrev (first l) q := by
  cases l <;> rfl

theorem Holds.insertHead (h : Holds m l) (hi : i ∉ l) : Holds (insertHead i m) (i :: l) := by
  have hnext : m.next .head = start some l none := h.linked.next_start
  have hnil : Holds m ([] ++ l) := h
  refine Ring.insert hnil hi ?_ ?_ <;>
    simp [TailQueue.insertHead, hnext, setPrev_start, last]

theorem Holds.insertTail (h : Holds m l) (hi : i ∉ l) : Holds (insertTail i m) (l ++ [i]) := by
  have hnext : m.next (last .head l) = none := h.linked.next_last
  rw [← List.append_nil l] at h hi
  refine Ring.insert h hi ?_ ?_
  · simp [TailQueue.insertTail, h.closed, hnext]
  · simp only [TailQueue.insertTail, first, h.closed, Fields.prev_setPrev, Fields.prev_setNext,
      List.append_nil]
    exact Function.update_comm (nofun : Spot.elem i ≠ .head) _ _ _

theorem Holds.insertAfter (h : Holds m (l₁ ++ a :: l₂)) (hi : i ∉ l₁ ++ a :: l₂) :
    Holds (insertAfter a i m) (l₁ ++ a :: i :: l₂) := by
  have hnext : m.next (.elem a) = start some l₂ none := h.linked.next_elem
  rw [List.append_cons] at h hi ⊢
  refine Ring.insert h hi ?_ ?_ <;>
    simp [TailQueue.insertAfter, hnext, setPrev_start]

theorem Holds.insertBefore (h : Holds m (l₁ ++ a :: l₂)) (hi : i ∉ l₁ ++ a :: l₂) :
    Holds (insertBefore a i m) (l₁ ++ i :: a :: l₂) := by
  have hne : Spot.elem a ≠ .elem i := fun heq ↦ hi (by simp [Spot.elem.inj heq])
  have hnext : m.next (last .head l₁) = some a := h.linked.next_last_append
  have hprev : m.prev (.elem a) = last .head l₁ := h.back.prev_elem
  refine Ring.insert h hi ?_ ?_
  · simp [TailQueue.insertBefore, hprev, hnext, Function.update_of_ne hne]
  · simp only [TailQueue.insertBefore, first, hprev, Fields.prev_setPrev, Fields.prev_setNext]
    exact Function.update_comm hne.symm _ _ _

theorem Holds.remove (h : Holds m (l₁ ++ i :: l₂)) : Holds (remove i m) (l₁ ++ l₂) := by
  have hnext : m.next (.elem i) = start some l₂ none := h.linked.next_elem
  have hprev : m.prev (.elem i) = last .head l₁ := h.back.prev_elem
  have hne : Spot.elem i ≠ first l₂ := elem_ne_first h.nodup
  refine Ring.remove h ?_ ?_ <;>
    simp [TailQueue.remove, hnext, setPrev_start, hprev, Function.update_of_ne hne]

/-- **One use of a macro** makes one edit. -/
theorem Holds.step {e : Edit ι} (h : Holds m l) (he : edit l e = some l') :
    Holds (step m e) l' := by
  cases editCases_of_edit h.nodup he with
  | insertHead hi => exact h.insertHead hi
  | insertTail hi => exact h.insertTail hi
  | insertAfter hi => exact h.insertAfter hi
  | insertBefore hi => exact h.insertBefore hi
  | remove => exact h.remove

/-- **The tail queue is the edited sequence.** Whatever was in memory before `TAILQ_INIT`, after any
run of the macros by the rules of an edited sequence, the queue is read as that sequence from either
end, and every check of the header passes. -/
theorem tailQueue_reads {edits : List (Edit ι)} (m : Memory ι)
    (hrun : runFrom edit [] edits = some l) : Reads (edits.foldl step (init m)) l :=
  (refines_of_runFrom (f := step) Holds Holds.step hrun (holds_init m)).reads

/-- Three elements put in at the end, at the start and between, and one of them taken out. -/
theorem tailQueue_reads_three :
    Reads ([.insertTail 1, .insertHead 2, .insertAfter 2 3, .insertBefore 1 4,
      .remove 3].foldl step (init ⟨fun _ ↦ none, fun _ ↦ .head⟩)) [2, 4, (1 : ℕ)] :=
  tailQueue_reads _ rfl

end TailQueue

end PreforkHttpd
