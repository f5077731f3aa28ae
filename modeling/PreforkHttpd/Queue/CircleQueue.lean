import PreforkHttpd.Memory.Sequences
import PreforkHttpd.Transition.PartialRun

/-!
# Circle queues

The `CIRCLEQ_` macros of `inc/list.h`. The pointers of the two ends lead to the **head itself**,
cast to an element, so a pointer is a place: `cqe_next` and `cqe_prev` for an element, `cqh_first`
and `cqh_last` for the head, are its `next` and its `prev`, and the end of the queue is found by
comparing a pointer with the head. Every macro that writes asks whether a neighbour is the head,
since the fields have other names there.

`circleQueue_reads` is the counterpart of the one about tail queues: the queue is the edited
sequence, read from either end, and following a pointer and the opposite one leads back, across the
head as well.
-/

open LinkFields LabelledRun Sequence

namespace PreforkHttpd

namespace CircleQueue

/-- The fields of `CIRCLEQ_HEAD` and of the `CIRCLEQ_ENTRY`s. -/
abbrev Memory (ι : Type*) := Fields ι (Spot ι)

variable {ι : Type*}

/-! ### The macros that read -/

/-- The element that a pointer leads to, unless it is `(void *)(head)`. -/
def element : Spot ι → Option ι
  | .head => none
  | .elem i => some i

/-- `CIRCLEQ_FOREACH`, for no more than so many rounds. -/
def forEach (rounds : ℕ) (m : Memory ι) : Option (List ι) :=
  walk (fun p ↦ element (m.next p)) rounds .head

/-- `CIRCLEQ_FOREACH_REVERSE`. -/
def forEachReverse (rounds : ℕ) (m : Memory ι) : Option (List ι) :=
  walk (fun p ↦ element (m.prev p)) rounds .head

/-- The memory holds the queue. -/
abbrev Holds (m : Memory ι) (l : List ι) : Prop := Ring .elem .head m l

/-- The memory is read as the sequence `l`. -/
structure Reads (m : Memory ι) (l : List ι) : Prop where
  /-- `CIRCLEQ_FOREACH` ends, and visits the elements in order. -/
  forEach : ∀ rounds, l.length ≤ rounds → forEach rounds m = some l
  /-- `CIRCLEQ_FOREACH_REVERSE` ends, and visits them in the opposite order. -/
  forEachReverse : ∀ rounds, l.length ≤ rounds → forEachReverse rounds m = some l.reverse
  /-- `CIRCLEQ_FIRST` and `CIRCLEQ_LAST`. -/
  ends : element (m.next .head) = l.head? ∧ element (m.prev .head) = l.getLast?
  /-- The two pointers of neighbours are inverse to each other, the head being the neighbour of both
  ends. -/
  inverse : ∀ p ∈ spots .head l, m.prev (m.next p) = p ∧ m.next (m.prev p) = p

variable {m m' : Memory ι} {l l' l₁ l₂ : List ι} {a i : ι}

theorem start_eq_first (l : List ι) : start .elem l .head = first l := by
  cases l <;> rfl

theorem element_first (l : List ι) : element (first l) = l.head? := by
  cases l <;> rfl

theorem element_last (l : List ι) : element (last .head l) = l.getLast? := by
  induction l using List.reverseRecOn with
  | nil => rfl
  | append_singleton l i _ => rw [last_concat, List.getLast?_concat]; rfl

theorem linked_element {p : Spot ι} (h : Linked .elem m.next p l .head) :
    Linked some (fun p ↦ element (m.next p)) p l none := by
  induction l generalizing p with
  | nil => exact congrArg element h
  | cons i l ih => exact ⟨congrArg element h.1, ih h.2⟩

/-- The neighbours of the place in which the first part ends. -/
theorem Holds.neighbours (h : Holds m (l₁ ++ l₂)) :
    m.next (last .head l₁) = first l₂ ∧ m.prev (first l₂) = last .head l₁ := by
  refine ⟨h.linked.next_last_append.trans (start_eq_first l₂), ?_⟩
  cases l₂ with
  | nil => rw [List.append_nil] at h; exact h.closed
  | cons i l₂ => exact h.back.prev_elem

theorem Holds.next_head (h : Holds m l) : m.next .head = first l :=
  h.linked.next_start.trans (start_eq_first l)

theorem Holds.inverse (h : Holds m l) {p : Spot ι} (hp : p ∈ spots .head l) :
    m.prev (m.next p) = p ∧ m.next (m.prev p) = p := by
  have hcut : ∀ l₁ l₂, l = l₁ ++ l₂ → m.prev (m.next (last .head l₁)) = last .head l₁ ∧
      m.next (m.prev (first l₂)) = first l₂ := by
    rintro l₁ l₂ rfl
    rw [h.neighbours.1, h.neighbours.2]
    exact ⟨rfl, h.neighbours.1⟩
  rcases List.mem_cons.1 hp with rfl | hp
  · exact ⟨(hcut [] l rfl).1, (hcut l [] (List.append_nil l).symm).2⟩
  · obtain ⟨i, hi, rfl⟩ := List.mem_map.1 hp
    obtain ⟨l₁, l₂, rfl⟩ := List.append_of_mem hi
    exact ⟨last_concat Spot.head l₁ i ▸ (hcut (l₁ ++ [i]) l₂ (List.append_cons ..)).1,
      (hcut l₁ (i :: l₂) rfl).2⟩

/-- The head is its own neighbour in an empty queue only. -/
theorem Holds.eq_nil_iff (h : Holds m l) :
    (m.prev .head = .head ↔ l = []) ∧ (m.next .head = .head ↔ l = []) := by
  rw [h.closed, h.next_head]
  cases l with
  | nil => exact ⟨iff_of_true rfl rfl, iff_of_true rfl rfl⟩
  | cons i l =>
    refine ⟨iff_of_false (fun heq ↦ ?_) nofun, iff_of_false nofun nofun⟩
    have hlast := congrArg element heq
    rw [element_last, List.getLast?_cons] at hlast
    cases hlast

theorem Holds.reads (h : Holds m l) : Reads m l where
  forEach _ := (linked_element h.linked).walk
  forEachReverse _ hrounds := by
    refine (linked_reverse ?_ ?_).walk (l.length_reverse.trans_le hrounds)
    · exact (congrArg element h.closed).trans (element_last l)
    · rintro l₁ i l₂ rfl
      exact (congrArg element h.back.prev_elem).trans (element_last l₁)
  ends := ⟨(congrArg element h.next_head).trans (element_first l),
    (congrArg element h.closed).trans (element_last l)⟩
  inverse _ := h.inverse

/-! ### The macros that write -/

variable [DecidableEq ι]

/-- `CIRCLEQ_INIT`. -/
def init (m : Memory ι) : Memory ι := (m.setNext .head .head).setPrev .head .head

/-- `CIRCLEQ_INSERT_AFTER`. -/
def insertAfter (a i : ι) (m : Memory ι) : Memory ι :=
  let m := m.setNext (.elem i) (m.next (.elem a))
  let m := m.setPrev (.elem i) (.elem a)
  let m := match m.next (.elem a) with
    | .head => m.setPrev .head (.elem i)
    | .elem b => m.setPrev (.elem b) (.elem i)
  m.setNext (.elem a) (.elem i)

/-- `CIRCLEQ_INSERT_BEFORE`. -/
def insertBefore (a i : ι) (m : Memory ι) : Memory ι :=
  let m := m.setNext (.elem i) (.elem a)
  let m := m.setPrev (.elem i) (m.prev (.elem a))
  let m := match m.prev (.elem a) with
    | .head => m.setNext .head (Spot.elem i)
    | .elem b => m.setNext (.elem b) (Spot.elem i)
  m.setPrev (.elem a) (.elem i)

/-- `CIRCLEQ_INSERT_HEAD`. -/
def insertHead (i : ι) (m : Memory ι) : Memory ι :=
  let m := m.setNext (.elem i) (m.next .head)
  let m := m.setPrev (.elem i) .head
  let m :=
    if m.prev .head = .head then m.setPrev .head (.elem i)
    else m.setPrev (m.next .head) (.elem i)
  m.setNext .head (.elem i)

/-- `CIRCLEQ_INSERT_TAIL`. -/
def insertTail (i : ι) (m : Memory ι) : Memory ι :=
  let m := m.setNext (.elem i) .head
  let m := m.setPrev (.elem i) (m.prev .head)
  let m :=
    if m.next .head = .head then m.setNext .head (.elem i)
    else m.setNext (m.prev .head) (.elem i)
  m.setPrev .head (.elem i)

/-- `CIRCLEQ_REMOVE`. -/
def remove (i : ι) (m : Memory ι) : Memory ι :=
  let m := match m.next (.elem i) with
    | .head => m.setPrev .head (m.prev (.elem i))
    | .elem b => m.setPrev (.elem b) (m.prev (.elem i))
  match m.prev (.elem i) with
  | .head => m.setNext .head (m.next (.elem i))
  | .elem b => m.setNext (.elem b) (m.next (.elem i))

/-- One use of a macro. -/
def step (m : Memory ι) : Edit ι → Memory ι
  | .insertHead i => insertHead i m
  | .insertTail i => insertTail i m
  | .insertAfter a i => insertAfter a i m
  | .insertBefore a i => insertBefore a i m
  | .remove i => remove i m

/-! ### What the macros keep -/

theorem holds_init (m : Memory ι) : Holds (init m) [] where
  nodup := List.nodup_nil
  linked := show (init m).next .head = .head by simp [init]
  back := trivial
  closed := show (init m).prev .head = .head by simp [init]

/-- Whether the neighbour is the head makes a difference to the names of the fields only. -/
theorem setPrev_cases (p q : Spot ι) (m : Memory ι) :
    (match p with
      | .head => m.setPrev .head q
      | .elem b => m.setPrev (.elem b) q) = m.setPrev p q := by
  cases p <;> rfl

theorem setNext_cases (p q : Spot ι) (m : Memory ι) :
    (match p with
      | .head => m.setNext .head q
      | .elem b => m.setNext (.elem b) q) = m.setNext p q := by
  cases p <;> rfl

theorem Holds.insertHead (h : Holds m l) (hi : i ∉ l) : Holds (insertHead i m) (i :: l) := by
  have hnext : m.next .head = first l := h.next_head
  have hne : Spot.elem i ≠ first l := elem_ne_first_of_notMem hi
  -- in an empty queue the first element is the head
  have hfirst : CircleQueue.insertHead i m =
      (((m.setNext (.elem i) (first l)).setPrev (.elem i) .head).setPrev (first l)
        (.elem i)).setNext .head (.elem i) := by
    simp only [CircleQueue.insertHead, hnext]
    split
    next hl =>
      obtain rfl : l = [] := h.eq_nil_iff.1.1 (by simpa using hl)
      rfl
    next => simp [hnext]
  have hnil : Holds m ([] ++ l) := h
  refine Ring.insert hnil hi ?_ ?_
  · rw [hfirst]
    simp [hnext, last]
  · rw [hfirst]
    exact Function.update_comm hne _ _ _

theorem Holds.insertTail (h : Holds m l) (hi : i ∉ l) : Holds (insertTail i m) (l ++ [i]) := by
  have hlast : m.next (last .head l) = .head := h.linked.next_last
  have hfirst : CircleQueue.insertTail i m =
      (((m.setNext (.elem i) .head).setPrev (.elem i) (last .head l)).setNext (last .head l)
        (.elem i)).setPrev .head (.elem i) := by
    simp only [CircleQueue.insertTail, Fields.prev_setNext, h.closed]
    split
    next hl =>
      obtain rfl : l = [] := h.eq_nil_iff.2.1 (by simpa using hl)
      rfl
    next => simp [h.closed]
  rw [← List.append_nil l] at h hi
  refine Ring.insert h hi ?_ ?_
  · rw [hfirst]
    simp [hlast]
  · rw [hfirst]
    exact Function.update_comm (nofun : Spot.elem i ≠ .head) _ _ _

theorem Holds.insertAfter (h : Holds m (l₁ ++ a :: l₂)) (hi : i ∉ l₁ ++ a :: l₂) :
    Holds (insertAfter a i m) (l₁ ++ a :: i :: l₂) := by
  have hne : Spot.elem a ≠ .elem i := fun heq ↦ hi (by simp [Spot.elem.inj heq])
  have hi₂ : Spot.elem i ≠ first l₂ := elem_ne_first_of_notMem fun hmem ↦ hi (by simp [hmem])
  have hnext : m.next (.elem a) = first l₂ := h.linked.next_elem.trans (start_eq_first l₂)
  rw [List.append_cons] at h hi ⊢
  refine Ring.insert h hi ?_ ?_
  · simp [CircleQueue.insertAfter, setPrev_cases]
  · simp only [CircleQueue.insertAfter, setPrev_cases, hnext, last_concat, Fields.next_setPrev,
      Fields.next_setNext, Fields.prev_setNext, Fields.prev_setPrev, Function.update_of_ne hne]
    exact Function.update_comm hi₂ _ _ _

theorem Holds.insertBefore (h : Holds m (l₁ ++ a :: l₂)) (hi : i ∉ l₁ ++ a :: l₂) :
    Holds (insertBefore a i m) (l₁ ++ i :: a :: l₂) := by
  have hne : Spot.elem a ≠ .elem i := fun heq ↦ hi (by simp [Spot.elem.inj heq])
  have hnext : m.next (last .head l₁) = .elem a := h.linked.next_last_append
  have hprev : m.prev (.elem a) = last .head l₁ := h.back.prev_elem
  refine Ring.insert h hi ?_ ?_
  · simp [CircleQueue.insertBefore, setNext_cases, hprev, hnext, Function.update_of_ne hne]
  · simp only [CircleQueue.insertBefore, setNext_cases, first, hprev, Fields.prev_setPrev,
      Fields.prev_setNext]
    exact Function.update_comm hne.symm _ _ _

theorem Holds.remove (h : Holds m (l₁ ++ i :: l₂)) : Holds (remove i m) (l₁ ++ l₂) := by
  have hne : Spot.elem i ≠ first l₂ := elem_ne_first h.nodup
  have hprev : m.prev (.elem i) = last .head l₁ := h.back.prev_elem
  have hnext : m.next (.elem i) = first l₂ := h.linked.next_elem.trans (start_eq_first l₂)
  refine Ring.remove h ?_ ?_ <;>
    simp [CircleQueue.remove, setPrev_cases, setNext_cases, hprev, hnext,
      Function.update_of_ne hne]

/-- **One use of a macro** makes one edit. -/
theorem Holds.step {e : Edit ι} (h : Holds m l) (he : edit l e = some l') :
    Holds (step m e) l' := by
  cases editCases_of_edit h.nodup he with
  | insertHead hi => exact h.insertHead hi
  | insertTail hi => exact h.insertTail hi
  | insertAfter hi => exact h.insertAfter hi
  | insertBefore hi => exact h.insertBefore hi
  | remove => exact h.remove

/-- **The circle queue is the edited sequence.** Whatever was in memory before `CIRCLEQ_INIT`, after
any run of the macros by the rules of an edited sequence, the queue is read as that sequence from
either end. -/
theorem circleQueue_reads {edits : List (Edit ι)} (m : Memory ι)
    (hrun : runFrom edit [] edits = some l) : Reads (edits.foldl step (init m)) l :=
  (refines_of_runFrom (f := step) Holds Holds.step hrun (holds_init m)).reads

/-- Two elements put in at the end, one between them, and the first of them taken out. -/
theorem circleQueue_reads_two :
    Reads ([.insertTail 1, .insertTail 2, .insertBefore 2 3, .remove 1].foldl step
      (init ⟨fun _ ↦ .head, fun _ ↦ .head⟩)) [3, (2 : ℕ)] :=
  circleQueue_reads _ rfl

end CircleQueue

end PreforkHttpd
