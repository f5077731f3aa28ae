import PreforkHttpd.Memory.Sequences
import PreforkHttpd.Transition.PartialRun

/-!
# Lists

The `LIST_` macros of `inc/list.h`: doubly linked, with a head that is a single pointer. As in a
tail queue `le_prev` is the address of the pointer that points to the element, so that
`LIST_INSERT_BEFORE` and `LIST_REMOVE` need neither the head nor a traversal; but nothing is known
of the end, and there is no macro that inserts there or goes backward.

The head has no backward field. It is modelled with one that no macro touches.
-/

open LinkFields LabelledRun Sequence

namespace PreforkHttpd

namespace Lists

/-- The fields of `LIST_HEAD` and of the `LIST_ENTRY`s. -/
abbrev Memory (ι : Type*) := Fields ι (Option ι)

/-- One use of a macro that writes. -/
inductive ListOp (ι : Type*)
  | insertHead (i : ι)
  | insertAfter (a i : ι)
  | insertBefore (a i : ι)
  | remove (i : ι)
deriving DecidableEq

/-- The edit that a macro makes. -/
def ListOp.edit {ι : Type*} : ListOp ι → Edit ι
  | .insertHead i => .insertHead i
  | .insertAfter a i => .insertAfter a i
  | .insertBefore a i => .insertBefore a i
  | .remove i => .remove i

variable {ι : Type*}

/-! ### The macros that read -/

/-- `LIST_FOREACH`, for no more than so many rounds. -/
def forEach (rounds : ℕ) (m : Memory ι) : Option (List ι) := walk m.next rounds .head

/-- The check of `QUEUEDEBUG_LIST_OP` passes. -/
def CheckOp (m : Memory ι) (i : ι) : Prop :=
  (∀ b ∈ m.next (.elem i), m.prev (.elem b) = .elem i) ∧ m.next (m.prev (.elem i)) = some i

/-- The check of `QUEUEDEBUG_LIST_INSERT_HEAD` passes. -/
def CheckInsertHead (m : Memory ι) : Prop := ∀ b ∈ m.next .head, m.prev (.elem b) = .head

/-- The memory holds the list. -/
structure Holds (m : Memory ι) (l : List ι) : Prop where
  nodup : l.Nodup
  linked : Linked some m.next .head l none
  back : Back m.prev .head l

/-- The memory is read as the sequence `l`, and passes the checks of the header. -/
structure Reads (m : Memory ι) (l : List ι) : Prop where
  /-- `LIST_FOREACH` ends, and visits the elements in order. -/
  forEach : ∀ rounds, l.length ≤ rounds → forEach rounds m = some l
  /-- `LIST_FIRST`. -/
  first : m.next .head = l.head?
  checkOp : ∀ i ∈ l, CheckOp m i
  checkInsertHead : CheckInsertHead m

variable {m m' : Memory ι} {l l' l₁ l₂ : List ι} {a i : ι}

/-- Whatever a place points to points back at it. -/
theorem Holds.prev_of_next (h : Holds m (l₁ ++ l₂)) :
    ∀ b ∈ m.next (last .head l₁), m.prev (.elem b) = last .head l₁ := by
  intro b hb
  rw [Option.mem_def, h.linked.next_last_append] at hb
  cases l₂ with
  | nil => cases hb
  | cons j l₂ =>
    obtain rfl := Option.some.inj hb
    exact h.back.prev_elem

theorem Holds.reads (h : Holds m l) : Reads m l where
  forEach _ := h.linked.walk
  first := by
    cases l with
    | nil => exact h.linked
    | cons i l => exact h.linked.1
  checkOp i hi := by
    obtain ⟨l₁, l₂, rfl⟩ := List.append_of_mem hi
    refine ⟨?_, h.back.prev_elem.symm ▸ h.linked.next_last_append⟩
    rw [List.append_cons] at h
    exact last_concat Spot.head l₁ i ▸ h.prev_of_next
  checkInsertHead := by
    have hnil : Holds m ([] ++ l) := h
    exact hnil.prev_of_next

/-! ### The macros that write -/

variable [DecidableEq ι]

/-- `LIST_INIT`. -/
def init (m : Memory ι) : Memory ι := m.setNext .head none

/-- `LIST_INSERT_HEAD`. -/
def insertHead (i : ι) (m : Memory ι) : Memory ι :=
  let m := m.setNext (.elem i) (m.next .head)
  let m := match m.next .head with
    | some first => m.setPrev (.elem first) (.elem i)
    | none => m
  (m.setNext .head (some i)).setPrev (.elem i) .head

/-- `LIST_INSERT_AFTER`. -/
def insertAfter (a i : ι) (m : Memory ι) : Memory ι :=
  let m := m.setNext (.elem i) (m.next (.elem a))
  let m := match m.next (.elem a) with
    | some b => m.setPrev (.elem b) (.elem i)
    | none => m
  (m.setNext (.elem a) (some i)).setPrev (.elem i) (.elem a)

/-- `LIST_INSERT_BEFORE`. -/
def insertBefore (a i : ι) (m : Memory ι) : Memory ι :=
  let m := m.setPrev (.elem i) (m.prev (.elem a))
  let m := m.setNext (.elem i) (some a)
  let m := m.setNext (m.prev (.elem a)) (some i)
  m.setPrev (.elem a) (.elem i)

/-- `LIST_REMOVE`. -/
def remove (i : ι) (m : Memory ι) : Memory ι :=
  let m := match m.next (.elem i) with
    | some b => m.setPrev (.elem b) (m.prev (.elem i))
    | none => m
  m.setNext (m.prev (.elem i)) (m.next (.elem i))

/-- One use of a macro. -/
def step (m : Memory ι) : ListOp ι → Memory ι
  | .insertHead i => insertHead i m
  | .insertAfter a i => insertAfter a i m
  | .insertBefore a i => insertBefore a i m
  | .remove i => remove i m

/-! ### What the macros keep -/

theorem holds_init (m : Memory ι) : Holds (init m) [] where
  nodup := List.nodup_nil
  linked := show (init m).next .head = none by simp [init]
  back := trivial

/-- The assignment to the backward field of the next element, if there is one. -/
def setPrevOf (l : List ι) (q : Spot ι) (m : Memory ι) : Memory ι :=
  match start some l none with
  | some b => m.setPrev (.elem b) q
  | none => m

@[simp] theorem next_setPrevOf (l : List ι) (q : Spot ι) (m : Memory ι) :
    (setPrevOf l q m).next = m.next := by
  cases l <;> rfl

/-- On the elements this is the assignment to the place behind. -/
theorem prev_setPrevOf (l : List ι) (q : Spot ι) (m : Memory ι) (i : ι) :
    (setPrevOf l q m).prev (.elem i) = (Function.update m.prev (first l) q) (.elem i) := by
  cases l with
  | nil => exact (Function.update_of_ne (nofun : Spot.elem i ≠ .head) _ _).symm
  | cons j l => rfl

/-- **An element is linked in.** -/
theorem Holds.insert (h : Holds m (l₁ ++ l₂)) (hi : i ∉ l₁ ++ l₂)
    (hnext : m'.next = Function.update (Function.update m.next (.elem i)
      (m.next (last .head l₁))) (last .head l₁) (some i))
    (hprev : m'.prev = Function.update (setPrevOf l₂ (.elem i) m).prev (.elem i) (last .head l₁)) :
    Holds m' (l₁ ++ i :: l₂) where
  nodup := List.nodup_middle.2 (List.nodup_cons.2 ⟨hi, h.nodup⟩)
  linked := hnext ▸ h.linked.insert hi h.nodup
  back := by
    refine (h.back.insert hi h.nodup).congr fun j _ ↦ ?_
    rw [hprev, Function.update_apply, Function.update_apply, prev_setPrevOf]

/-- **An element is taken out.** -/
theorem Holds.take (h : Holds m (l₁ ++ i :: l₂))
    (hnext : m'.next = Function.update m.next (last .head l₁) (m.next (.elem i)))
    (hprev : m'.prev = (setPrevOf l₂ (last .head l₁) m).prev) : Holds m' (l₁ ++ l₂) where
  nodup := (List.nodup_cons.1 (List.nodup_middle.1 h.nodup)).2
  linked := hnext ▸ h.linked.remove h.nodup
  back := (h.back.remove h.nodup).congr fun j _ ↦ hprev ▸ prev_setPrevOf _ _ _ j

theorem Holds.insertHead (h : Holds m l) (hi : i ∉ l) : Holds (insertHead i m) (i :: l) := by
  have hnext : m.next .head = start some l none := h.linked.next_start
  have hnil : Holds m ([] ++ l) := h
  refine Holds.insert hnil hi ?_ ?_
  · cases l <;> simp [Lists.insertHead, hnext, start, last]
  · cases l <;> simp [Lists.insertHead, hnext, setPrevOf, start, last]

theorem Holds.insertAfter (h : Holds m (l₁ ++ a :: l₂)) (hi : i ∉ l₁ ++ a :: l₂) :
    Holds (insertAfter a i m) (l₁ ++ a :: i :: l₂) := by
  have hne : Spot.elem a ≠ .elem i := fun heq ↦ hi (by simp [Spot.elem.inj heq])
  have hnext : m.next (.elem a) = start some l₂ none := h.linked.next_elem
  rw [List.append_cons] at h hi ⊢
  refine Holds.insert h hi ?_ ?_
  · cases l₂ <;> simp [Lists.insertAfter, hnext, start, Function.update_of_ne hne]
  · cases l₂ <;> simp [Lists.insertAfter, hnext, setPrevOf, start, Function.update_of_ne hne]

theorem Holds.insertBefore (h : Holds m (l₁ ++ a :: l₂)) (hi : i ∉ l₁ ++ a :: l₂) :
    Holds (insertBefore a i m) (l₁ ++ i :: a :: l₂) := by
  have hne : Spot.elem a ≠ .elem i := fun heq ↦ hi (by simp [Spot.elem.inj heq])
  have hnext : m.next (last .head l₁) = some a := h.linked.next_last_append
  have hprev : m.prev (.elem a) = last .head l₁ := h.back.prev_elem
  refine Holds.insert h hi ?_ ?_
  · simp [Lists.insertBefore, hprev, hnext, Function.update_of_ne hne]
  · simp only [Lists.insertBefore, setPrevOf, start, hprev, Fields.prev_setPrev,
      Fields.prev_setNext]
    exact Function.update_comm hne.symm _ _ _

theorem Holds.remove (h : Holds m (l₁ ++ i :: l₂)) : Holds (remove i m) (l₁ ++ l₂) := by
  have hne : Spot.elem i ≠ first l₂ := elem_ne_first h.nodup
  have hprev : m.prev (.elem i) = last .head l₁ := h.back.prev_elem
  have hnext : m.next (.elem i) = start some l₂ none := h.linked.next_elem
  refine Holds.take h ?_ ?_
  · cases l₂ with
    | nil => simp [Lists.remove, hprev, hnext, start]
    | cons j l₂ =>
      have hj : Spot.elem i ≠ .elem j := hne
      simp [Lists.remove, hprev, hnext, start, Function.update_of_ne hj]
  · cases l₂ <;> simp [Lists.remove, hprev, hnext, setPrevOf, start]

/-- **One use of a macro** makes one edit. -/
theorem Holds.step {op : ListOp ι} (h : Holds m l) (hop : edit l op.edit = some l') :
    Holds (step m op) l' := by
  have hcases := editCases_of_edit h.nodup hop
  cases op with
  | insertHead i => cases hcases with | insertHead hi => exact h.insertHead hi
  | insertAfter a i => cases hcases with | insertAfter hi => exact h.insertAfter hi
  | insertBefore a i => cases hcases with | insertBefore hi => exact h.insertBefore hi
  | remove i => cases hcases with | remove => exact h.remove

/-- **The list is the edited sequence.** Whatever was in memory before `LIST_INIT`, after any run of
the macros by the rules of an edited sequence, the list is read as that sequence, and every check of
the header passes. -/
theorem list_reads {ops : List (ListOp ι)} (m : Memory ι)
    (hrun : runFrom edit [] (ops.map ListOp.edit) = some l) :
    Reads (ops.foldl step (init m)) l := by
  rw [runFrom_map] at hrun
  exact (refines_of_runFrom (f := step) Holds Holds.step hrun (holds_init m)).reads

/-- Three elements put in, each next to the one before, and the first of them taken out. -/
theorem list_reads_three :
    Reads ([.insertHead 1, .insertAfter 1 2, .insertBefore 2 3, .remove 1].foldl step
      (init ⟨fun _ ↦ none, fun _ ↦ .head⟩)) [3, (2 : ℕ)] :=
  list_reads _ rfl

end Lists

end PreforkHttpd
