import PreforkHttpd.Memory.Sequences
import PreforkHttpd.Transition.PartialRun

/-!
# Simple queues

The `SIMPLEQ_` macros of `inc/list.h`: singly linked, with a head that also holds the address of the
last `next` field. Elements go in at either end and behind an element, and come out at the front
only; `SIMPLEQ_REMOVE_HEAD` is told the first element by its caller.

The elements have no backward field. They are modelled with one that no macro touches, and the
backward field of the head is `sqh_last`.

`reads_of_runFrom` says that the queue is the edited sequence, and `forEach_of_fifo` what it is for:
with elements put in at the end only, those that came out followed by those still in it are those
that were put in, in order.
-/

open LinkFields LabelledRun Sequence

namespace PreforkHttpd

namespace SimpleQueue

/-- The fields of `SIMPLEQ_HEAD` and of the `SIMPLEQ_ENTRY`s. -/
abbrev Memory (ι : Type*) := Fields ι (Option ι)

/-- One use of a macro that writes. -/
inductive QueueOp (ι : Type*)
  | insertHead (i : ι)
  | insertTail (i : ι)
  | insertAfter (a i : ι)
  | removeHead (i : ι)
deriving DecidableEq

variable {ι : Type*}

/-! ### The macros that read -/

/-- `SIMPLEQ_FOREACH`, for no more than so many rounds. -/
def forEach (rounds : ℕ) (m : Memory ι) : Option (List ι) := walk m.next rounds .head

/-- The memory holds the queue. -/
structure Holds (m : Memory ι) (l : List ι) : Prop where
  nodup : l.Nodup
  linked : Linked some m.next .head l none
  closed : m.prev .head = last .head l

/-- The memory is read as the sequence `l`. -/
structure Reads (m : Memory ι) (l : List ι) : Prop where
  /-- `SIMPLEQ_FOREACH` ends, and visits the elements in order. -/
  forEach : ∀ rounds, l.length ≤ rounds → forEach rounds m = some l
  /-- `SIMPLEQ_FIRST`. -/
  first : m.next .head = l.head?
  /-- The address in the head is that of the null pointer at the end. -/
  last : m.next (m.prev .head) = none

variable {m m' : Memory ι} {l l' l₁ l₂ : List ι} {a i : ι}

theorem Holds.reads (h : Holds m l) : Reads m l where
  forEach _ := h.linked.walk
  first := by
    cases l with
    | nil => exact h.linked
    | cons i l => exact h.linked.1
  last := h.closed ▸ h.linked.next_last

/-! ### The macros that write -/

variable [DecidableEq ι]

/-- `SIMPLEQ_INIT`. -/
def init (m : Memory ι) : Memory ι := (m.setNext .head none).setPrev .head .head

/-- `SIMPLEQ_INSERT_HEAD`. -/
def insertHead (i : ι) (m : Memory ι) : Memory ι :=
  let m := m.setNext (.elem i) (m.next .head)
  let m := if m.next (.elem i) = none then m.setPrev .head (.elem i) else m
  m.setNext .head (some i)

/-- `SIMPLEQ_INSERT_TAIL`. -/
def insertTail (i : ι) (m : Memory ι) : Memory ι :=
  let m := m.setNext (.elem i) none
  let m := m.setNext (m.prev .head) (some i)
  m.setPrev .head (.elem i)

/-- `SIMPLEQ_INSERT_AFTER`. -/
def insertAfter (a i : ι) (m : Memory ι) : Memory ι :=
  let m := m.setNext (.elem i) (m.next (.elem a))
  let m := if m.next (.elem i) = none then m.setPrev .head (.elem i) else m
  m.setNext (.elem a) (some i)

/-- `SIMPLEQ_REMOVE_HEAD`. -/
def removeHead (i : ι) (m : Memory ι) : Memory ι :=
  let m := m.setNext .head (m.next (.elem i))
  if m.next .head = none then m.setPrev .head .head else m

/-- One use of a macro. -/
def step (m : Memory ι) : QueueOp ι → Memory ι
  | .insertHead i => insertHead i m
  | .insertTail i => insertTail i m
  | .insertAfter a i => insertAfter a i m
  | .removeHead i => removeHead i m

/-- What a macro is for: an edit of a sequence, where only the first element comes out. -/
def editQueue (l : List ι) : QueueOp ι → Option (List ι)
  | .insertHead i => edit l (.insertHead i)
  | .insertTail i => edit l (.insertTail i)
  | .insertAfter a i => edit l (.insertAfter a i)
  | .removeHead i => if l.head? = some i then some l.tail else none

/-! ### What the macros keep -/

theorem holds_init (m : Memory ι) : Holds (init m) [] where
  nodup := List.nodup_nil
  linked := show (init m).next .head = none by simp [init]
  closed := show (init m).prev .head = .head by simp [init]

/-- **An element is linked in**, and the head learns of it if it is the last. -/
theorem Holds.insert (h : Holds m (l₁ ++ l₂)) (hi : i ∉ l₁ ++ l₂)
    (hnext : m'.next = Function.update (Function.update m.next (.elem i)
      (m.next (last .head l₁))) (last .head l₁) (some i))
    (hprev : m'.prev .head = if l₂ = [] then .elem i else m.prev .head) :
    Holds m' (l₁ ++ i :: l₂) where
  nodup := List.nodup_middle.2 (List.nodup_cons.2 ⟨hi, h.nodup⟩)
  linked := hnext ▸ h.linked.insert hi h.nodup
  closed := by
    have hclosed := h.closed
    rw [last_append] at hclosed ⊢
    cases l₂ with
    | nil => exact hprev
    | cons j l₂ => exact hprev.trans hclosed

theorem Holds.insertHead (h : Holds m l) (hi : i ∉ l) : Holds (insertHead i m) (i :: l) := by
  have hnext : m.next .head = start some l none := h.linked.next_start
  have hnil : Holds m ([] ++ l) := h
  refine Holds.insert hnil hi ?_ ?_ <;>
    cases l <;> simp [SimpleQueue.insertHead, hnext, start, last]

theorem Holds.insertTail (h : Holds m l) (hi : i ∉ l) : Holds (insertTail i m) (l ++ [i]) := by
  have hnext : m.next (last .head l) = none := h.linked.next_last
  rw [← List.append_nil l] at h hi
  refine Holds.insert h hi ?_ ?_ <;> simp [SimpleQueue.insertTail, h.closed, hnext]

theorem Holds.insertAfter (h : Holds m (l₁ ++ a :: l₂)) (hi : i ∉ l₁ ++ a :: l₂) :
    Holds (insertAfter a i m) (l₁ ++ a :: i :: l₂) := by
  have hnext : m.next (.elem a) = start some l₂ none := h.linked.next_elem
  rw [List.append_cons] at h hi ⊢
  refine Holds.insert h hi ?_ ?_ <;>
    cases l₂ <;> simp [SimpleQueue.insertAfter, hnext, start]

theorem Holds.removeHead (h : Holds m (i :: l)) : Holds (removeHead i m) l := by
  have hnext : m.next (.elem i) = start some l none := h.linked.2.next_start
  have hnext' : (SimpleQueue.removeHead i m).next =
      Function.update m.next .head (m.next (.elem i)) := by
    simp only [SimpleQueue.removeHead]
    split <;> rfl
  have hlinked : Linked some m.next .head ([] ++ i :: l) none := h.linked
  refine ⟨h.nodup.of_cons, hnext' ▸ hlinked.remove h.nodup, ?_⟩
  have hclosed := h.closed
  cases l with
  | nil => simp [SimpleQueue.removeHead, hnext, start, last]
  | cons j l => simpa [SimpleQueue.removeHead, hnext, start, last] using hclosed

/-- **One use of a macro** makes one edit. -/
theorem Holds.step {op : QueueOp ι} (h : Holds m l) (hop : editQueue l op = some l') :
    Holds (step m op) l' := by
  have hcases : ∀ e, edit l e = some l' → EditCases l e l' := fun _ ↦ editCases_of_edit h.nodup
  cases op with
  | insertHead i => cases hcases (.insertHead i) hop with | insertHead hi => exact h.insertHead hi
  | insertTail i => cases hcases (.insertTail i) hop with | insertTail hi => exact h.insertTail hi
  | insertAfter a i =>
    cases hcases (.insertAfter a i) hop with | insertAfter hi => exact h.insertAfter hi
  | removeHead i =>
    obtain ⟨hi, hl⟩ := Option.ite_none_right_eq_some.1 hop
    obtain rfl := Option.some.inj hl
    obtain ⟨l, rfl⟩ := List.head?_eq_some_iff.1 hi
    exact h.removeHead

/-- **The simple queue is the edited sequence.** Whatever was in memory before `SIMPLEQ_INIT`, after
any run of the macros by the rules of such a queue, it is read as that sequence. -/
theorem reads_of_runFrom {ops : List (QueueOp ι)} (m : Memory ι)
    (hrun : runFrom editQueue [] ops = some l) : Reads (ops.foldl step (init m)) l :=
  (refines_of_runFrom (f := step) Holds Holds.step hrun (holds_init m)).reads

/-! ### First in, first out -/

/-- The element that is put in at the end. -/
def QueueOp.inserted? : QueueOp ι → Option ι
  | .insertTail i => some i
  | _ => none

/-- The element that is taken out. -/
def QueueOp.removed? : QueueOp ι → Option ι
  | .removeHead i => some i
  | _ => none

/-- The element is put in at the end, or taken out. -/
def QueueOp.IsFifo : QueueOp ι → Prop
  | .insertTail _ | .removeHead _ => True
  | .insertHead _ | .insertAfter _ _ => False

theorem append_inserted_eq {ops : List (QueueOp ι)} (hrun : runFrom editQueue l ops = some l')
    (hfifo : ∀ op ∈ ops, op.IsFifo) :
    l ++ ops.filterMap QueueOp.inserted? = ops.filterMap QueueOp.removed? ++ l' := by
  induction ops generalizing l with
  | nil => exact (List.append_nil l).trans (Option.some.inj hrun)
  | cons op ops ih =>
    obtain ⟨hop, hops⟩ := List.forall_mem_cons.1 hfifo
    obtain ⟨l₁, hstep, hrest⟩ := runFrom_cons_eq_some_iff.1 hrun
    have hih := ih hrest hops
    cases op with
    | insertTail i =>
      obtain ⟨-, hl⟩ := Option.ite_none_right_eq_some.1 hstep
      obtain rfl := Option.some.inj hl
      rwa [List.append_assoc] at hih
    | removeHead i =>
      obtain ⟨hi, hl⟩ := Option.ite_none_right_eq_some.1 hstep
      obtain rfl := Option.some.inj hl
      obtain ⟨l, rfl⟩ := List.head?_eq_some_iff.1 hi
      exact congrArg (i :: ·) hih
    | _ => exact hop.elim

/-- **First in, first out.** With elements put in at the end only, `SIMPLEQ_FOREACH` finds, behind
those that were taken out, what was put in, in order. -/
theorem forEach_of_fifo {ops : List (QueueOp ι)} (m : Memory ι)
    (hrun : runFrom editQueue [] ops = some l) (hfifo : ∀ op ∈ ops, op.IsFifo) :
    ∃ rest, ops.filterMap QueueOp.inserted? = ops.filterMap QueueOp.removed? ++ rest ∧
      ∀ rounds, rest.length ≤ rounds → forEach rounds (ops.foldl step (init m)) = some rest :=
  ⟨l, append_inserted_eq hrun hfifo, (reads_of_runFrom m hrun).forEach⟩

/-- Two elements put in, and the first of them taken out. -/
theorem forEach_of_fifo_two :
    ∃ rest : List ℕ, [.insertTail 1, .insertTail 2, .removeHead 1].filterMap QueueOp.inserted? =
        [.insertTail 1, .insertTail 2, .removeHead 1].filterMap QueueOp.removed? ++ rest ∧
      ∀ rounds, rest.length ≤ rounds →
        forEach rounds ([.insertTail 1, .insertTail 2, .removeHead 1].foldl step
          (init ⟨fun _ ↦ none, fun _ ↦ .head⟩)) = some rest :=
  forEach_of_fifo _ rfl (by simp [QueueOp.IsFifo])

end SimpleQueue

end PreforkHttpd
