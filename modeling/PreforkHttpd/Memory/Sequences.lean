import PreforkHttpd.Memory.LinkFields

/-!
# Editing a sequence of distinct elements

What a linked list is for: a list of distinct elements, edited at its ends and next to an element
that is named. `edit` is partial. An element that is inserted must be new, and an element that is
named must be there; these are the rules a caller of a linked list has to keep, since the code that
maintains the links does not look for either.

`editCases` says where an edit takes place: at a cut of the list in two.
-/

namespace Sequence

variable {ι : Type*}

/-- An edit of a sequence. -/
inductive Edit (ι : Type*)
  | insertHead (i : ι)
  | insertTail (i : ι)
  | insertAfter (a i : ι)
  | insertBefore (a i : ι)
  | remove (i : ι)
deriving DecidableEq

/-- **Where an edit takes place.** -/
inductive EditCases : List ι → Edit ι → List ι → Prop
  | insertHead {l : List ι} {i : ι} (hi : i ∉ l) : EditCases l (.insertHead i) (i :: l)
  | insertTail {l : List ι} {i : ι} (hi : i ∉ l) : EditCases l (.insertTail i) (l ++ [i])
  | insertAfter {l₁ l₂ : List ι} {a i : ι} (hi : i ∉ l₁ ++ a :: l₂) :
    EditCases (l₁ ++ a :: l₂) (.insertAfter a i) (l₁ ++ a :: i :: l₂)
  | insertBefore {l₁ l₂ : List ι} {a i : ι} (hi : i ∉ l₁ ++ a :: l₂) :
    EditCases (l₁ ++ a :: l₂) (.insertBefore a i) (l₁ ++ i :: a :: l₂)
  | remove {l₁ l₂ : List ι} {i : ι} : EditCases (l₁ ++ i :: l₂) (.remove i) (l₁ ++ l₂)

/-- A sequence of distinct elements, cut at one of them. -/
theorem exists_append_of_mem {l : List ι} {a : ι} (hnodup : l.Nodup) (h : a ∈ l) :
    ∃ l₁ l₂, l = l₁ ++ a :: l₂ ∧ a ∉ l₁ ∧ a ∉ l₂ := by
  obtain ⟨l₁, l₂, rfl⟩ := List.append_of_mem h
  rw [List.nodup_middle, List.nodup_cons, List.mem_append, not_or] at hnodup
  exact ⟨l₁, l₂, rfl, hnodup.1⟩

variable [DecidableEq ι]

/-- Put `i` behind `a`. -/
def insertAfter (a i : ι) (l : List ι) : List ι := l.flatMap fun x ↦ if x = a then [x, i] else [x]

/-- Put `i` before `a`. -/
def insertBefore (a i : ι) (l : List ι) : List ι := l.flatMap fun x ↦ if x = a then [i, x] else [x]

/-- Edit a sequence, by the rules. -/
def edit (l : List ι) : Edit ι → Option (List ι)
  | .insertHead i => if i ∉ l then some (i :: l) else none
  | .insertTail i => if i ∉ l then some (l ++ [i]) else none
  | .insertAfter a i => if a ∈ l ∧ i ∉ l then some (insertAfter a i l) else none
  | .insertBefore a i => if a ∈ l ∧ i ∉ l then some (insertBefore a i l) else none
  | .remove i => if i ∈ l then some (l.erase i) else none

variable {l l' l₁ l₂ : List ι} {a i : ι}

/-- Only `a` is treated in a special way. -/
theorem flatMap_of_notMem (h : a ∉ l) (xs : ι → List ι) :
    (l.flatMap fun x ↦ if x = a then xs x else [x]) = l := by
  rw [List.flatMap_congr fun x hx ↦ if_neg (ne_of_mem_of_not_mem hx h)]
  exact List.flatMap_singleton' l

theorem insertAfter_append (h₁ : a ∉ l₁) (h₂ : a ∉ l₂) :
    insertAfter a i (l₁ ++ a :: l₂) = l₁ ++ a :: i :: l₂ := by
  rw [insertAfter, List.flatMap_append, List.flatMap_cons, flatMap_of_notMem h₁,
    flatMap_of_notMem h₂, if_pos rfl]
  rfl

theorem insertBefore_append (h₁ : a ∉ l₁) (h₂ : a ∉ l₂) :
    insertBefore a i (l₁ ++ a :: l₂) = l₁ ++ i :: a :: l₂ := by
  rw [insertBefore, List.flatMap_append, List.flatMap_cons, flatMap_of_notMem h₁,
    flatMap_of_notMem h₂, if_pos rfl]
  rfl

theorem editCases_of_edit {e : Edit ι} (hnodup : l.Nodup) (h : edit l e = some l') :
    EditCases l e l' := by
  cases e with
  | insertHead i =>
    obtain ⟨hi, h⟩ := Option.ite_none_right_eq_some.1 h
    obtain rfl := Option.some.inj h
    exact .insertHead hi
  | insertTail i =>
    obtain ⟨hi, h⟩ := Option.ite_none_right_eq_some.1 h
    obtain rfl := Option.some.inj h
    exact .insertTail hi
  | insertAfter a i =>
    obtain ⟨⟨ha, hi⟩, h⟩ := Option.ite_none_right_eq_some.1 h
    obtain rfl := Option.some.inj h
    obtain ⟨l₁, l₂, rfl, h₁, h₂⟩ := exists_append_of_mem hnodup ha
    rw [insertAfter_append h₁ h₂]
    exact .insertAfter hi
  | insertBefore a i =>
    obtain ⟨⟨ha, hi⟩, h⟩ := Option.ite_none_right_eq_some.1 h
    obtain rfl := Option.some.inj h
    obtain ⟨l₁, l₂, rfl, h₁, h₂⟩ := exists_append_of_mem hnodup ha
    rw [insertBefore_append h₁ h₂]
    exact .insertBefore hi
  | remove i =>
    obtain ⟨hi, h⟩ := Option.ite_none_right_eq_some.1 h
    obtain rfl := Option.some.inj h
    obtain ⟨l₁, l₂, rfl, h₁, -⟩ := exists_append_of_mem hnodup hi
    rw [List.erase_append_right _ h₁, List.erase_cons_head]
    exact .remove

end Sequence
