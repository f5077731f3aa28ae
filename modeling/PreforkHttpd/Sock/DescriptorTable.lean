import Mathlib.Data.List.Basic
import Mathlib.Order.Nat

/-!
# Tables of descriptors

A process knows what it has opened by small numbers. A table is the list of what they refer to, with
`none` for a number that is free, and every number beyond the list is free too. A new entry gets the
lowest number that is free.

Two tables that differ in how many free numbers they list are the same table, so what is said of one
is said of its entries: `entry_insert` and `entry_set` are what an operation does to all of them.
-/

/-- What the descriptors refer to. -/
abbrev DescriptorTable (α : Type*) := List (Option α)

namespace DescriptorTable

variable {α : Type*} {t t' : DescriptorTable α} {i j : ℕ} {a : α} {o : Option α}

/-- What a descriptor refers to, if it is open. -/
def entry (t : DescriptorTable α) (i : ℕ) : Option α := t[i]?.join

/-- The lowest descriptor that is free. -/
def lowest (t : DescriptorTable α) : ℕ := t.findIdx Option.isNone

/-- The table with a new entry. -/
def insert (t : DescriptorTable α) (a : α) : DescriptorTable α :=
  t.take t.lowest ++ some a :: t.drop (t.lowest + 1)

/-- **A new descriptor was free.** -/
theorem entry_lowest (t : DescriptorTable α) : entry t t.lowest = none := by
  rw [entry, lowest]
  rcases Nat.lt_or_ge (t.findIdx Option.isNone) t.length with h | h
  · have hnone := List.findIdx_getElem (w := h)
    rw [List.getElem?_eq_getElem h, Option.join_some]
    exact Option.isNone_iff_eq_none.1 hnone
  · rw [List.getElem?_eq_none h, Option.join_none]

/-- **A new entry** changes the table there only. -/
theorem entry_insert (t : DescriptorTable α) (a : α) (i : ℕ) :
    entry (t.insert a) i = if i = t.lowest then some a else entry t i := by
  have hlowest : t.lowest ≤ t.length := List.findIdx_le_length
  have htake : (t.take t.lowest).length = t.lowest := List.length_take_of_le hlowest
  rw [entry, entry, insert]
  rcases Nat.lt_trichotomy i t.lowest with h | h | h
  · rw [if_neg h.ne, List.getElem?_append_left (by omega), List.getElem?_take_of_lt h]
  · subst h
    rw [if_pos rfl, List.getElem?_append_right htake.le, htake, Nat.sub_self]
    rfl
  · rw [if_neg h.ne', List.getElem?_append_right (by omega), htake]
    obtain ⟨k, rfl⟩ := Nat.exists_eq_add_of_lt h
    rw [show t.lowest + k + 1 - t.lowest = k + 1 by omega, List.getElem?_cons_succ,
      List.getElem?_drop, show t.lowest + 1 + k = t.lowest + k + 1 by omega]

/-- **An open descriptor gets another entry**, or none, and no other descriptor does. -/
theorem entry_set (h : entry t i = some a) (o : Option α) (j : ℕ) :
    entry (t.set i o) j = if j = i then o else entry t j := by
  have hi : i < t.length := by
    by_contra hge
    rw [entry, List.getElem?_eq_none (Nat.le_of_not_lt hge)] at h
    cases h
  rw [entry, List.getElem?_set]
  by_cases hij : i = j
  · rw [if_pos hij, if_pos (hij ▸ hi), if_pos hij.symm, Option.join_some]
  · rw [if_neg hij, if_neg (Ne.symm hij), entry]

/-- A new entry that becomes another one. -/
theorem entry_set_insert (t : DescriptorTable α) (a : α) (o : Option α) (i : ℕ) :
    entry ((t.insert a).set t.lowest o) i = if i = t.lowest then o else entry t i := by
  have hself : entry (t.insert a) t.lowest = some a := by rw [entry_insert, if_pos rfl]
  rw [entry_set hself, entry_insert]
  split <;> rfl

/-- **A new entry that is closed again** leaves the table as it was. -/
theorem entry_close_insert (t : DescriptorTable α) (a : α) (i : ℕ) :
    entry ((t.insert a).set t.lowest none) i = entry t i := by
  rw [entry_set_insert]
  split
  next h => rw [h, entry_lowest]
  next => rfl

end DescriptorTable
