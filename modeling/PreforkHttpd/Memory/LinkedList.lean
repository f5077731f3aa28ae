import Mathlib.Data.List.Nodup
import Mathlib.Logic.Function.Basic

/-!
# Singly linked lists in memory

A memory of cells, each with its data and the address of the next cell, holds a list when the cells
are linked in the order of the list. `Chain mem l e` says so of the addresses and data `l`, the last
cell being linked to `e`, and `start l e` is the address by which the list is known.

A chain is a matter of its own cells (`Chain.congr`), it splits and joins where two lists do
(`chain_append_iff`), and what is behind an address is determined by it (`Chain.unique`). From the
last of these it follows that a chain that ends visits no cell twice (`Chain.nodup`), so that a cell
can be unlinked and freed without disturbing the others (`Chain.unlink`).
-/

namespace LinkedList

variable {ι α : Type*}

/-- A cell of a linked list. -/
structure Cell (ι α : Type*) where
  data : α
  next : Option ι
deriving DecidableEq

/-- The cells that are allocated, by address. -/
abbrev Memory (ι α : Type*) := ι → Option (Cell ι α)

/-- The address of the first cell, where the last one is linked to `e`. -/
def start : List (ι × α) → Option ι → Option ι
  | [], e => e
  | c :: _, _ => some c.1

/-- The memory links these addresses and data, and the last of them to `e`. -/
def Chain (mem : Memory ι α) : List (ι × α) → Option ι → Prop
  | [], _ => True
  | c :: l, e => mem c.1 = some ⟨c.2, start l e⟩ ∧ Chain mem l e

variable {mem mem' : Memory ι α} {l l' l₁ l₂ : List (ι × α)} {e : Option ι} {a b c : ι × α}

theorem start_append (l₁ l₂ : List (ι × α)) (e : Option ι) :
    start (l₁ ++ l₂) e = start l₁ (start l₂ e) := by
  cases l₁ <;> rfl

/-- **A chain splits** where its list does. -/
theorem chain_append_iff :
    Chain mem (l₁ ++ l₂) e ↔ Chain mem l₁ (start l₂ e) ∧ Chain mem l₂ e := by
  induction l₁ with
  | nil => simp [Chain]
  | cons c l₁ ih => rw [List.cons_append, Chain, Chain, ih, start_append, and_assoc]

/-- **A chain is a matter of its own cells.** -/
theorem Chain.congr (h : Chain mem l e) (hmem : ∀ c ∈ l, mem' c.1 = mem c.1) : Chain mem' l e := by
  induction l with
  | nil => trivial
  | cons c l ih =>
    obtain ⟨hfirst, hrest⟩ := List.forall_mem_cons.1 hmem
    exact ⟨hfirst.trans h.1, ih h.2 hrest⟩

/-- **What is behind an address** is determined by it. -/
theorem Chain.unique (h : Chain mem l none) (h' : Chain mem l' none)
    (hstart : start l none = start l' none) : l = l' := by
  induction l generalizing l' with
  | nil =>
    rcases l' with - | ⟨c, l'⟩
    · rfl
    · simp [start] at hstart
  | cons c l ih =>
    rcases l' with - | ⟨c', l'⟩
    · simp [start] at hstart
    · have haddress : c.1 = c'.1 := Option.some.inj hstart
      have hcell := h.1.symm.trans (haddress ▸ h'.1)
      rw [Option.some.injEq, Cell.mk.injEq] at hcell
      rw [Prod.ext haddress hcell.1, ih h.2 h'.2 hcell.2]

/-- A chain that ends visits no cell twice. -/
theorem Chain.nodup (h : Chain mem l none) : (l.map Prod.fst).Nodup := by
  induction l with
  | nil => exact List.nodup_nil
  | cons c l ih =>
    rw [List.map_cons, List.nodup_cons]
    refine ⟨fun hmem ↦ ?_, ih h.2⟩
    obtain ⟨c', hc', heq⟩ := List.mem_map.1 hmem
    obtain ⟨before, after, rfl⟩ := List.append_of_mem hc'
    -- the chain from the second visit on would be the whole chain
    have hagain : Chain mem (c' :: after) none := (chain_append_iff.1 h.2).2
    have hlength := congrArg List.length (h.unique hagain (congrArg some heq.symm))
    simp only [List.length_cons, List.length_append] at hlength
    omega

variable [DecidableEq ι]

/-- A change of memory at an address that the chain does not visit. -/
theorem Chain.update {i : ι} (h : Chain mem l e) (hi : i ∉ l.map Prod.fst)
    (cell : Option (Cell ι α)) : Chain (Function.update mem i cell) l e := by
  refine h.congr fun c hc ↦ Function.update_of_ne ?_ _ _
  rintro rfl
  exact hi (List.mem_map_of_mem hc)

/-- **Unlinking**: the cell before `a` is linked to the cell behind `a`, and `a` is freed. -/
theorem Chain.unlink (h : Chain mem (l₁ ++ b :: a :: l₂) none) :
    Chain (Function.update (Function.update mem b.1 (some ⟨b.2, start l₂ none⟩)) a.1 none)
      (l₁ ++ b :: l₂) none := by
  have hnodup := h.nodup
  simp only [List.map_append, List.map_cons, List.nodup_append, List.nodup_cons, List.mem_cons,
    not_or] at hnodup
  obtain ⟨-, ⟨⟨hba, hb⟩, ha, -⟩, hfront⟩ := hnodup
  obtain ⟨hbefore, -, -, hafter⟩ := chain_append_iff.1 h
  refine chain_append_iff.2 ⟨?_, ?_, ?_⟩
  · refine (Chain.update ?_ (fun hmem ↦ ?_) _).update (fun hmem ↦ ?_) _
    · exact hbefore
    · exact hfront _ hmem _ (Or.inl rfl) rfl
    · exact hfront _ hmem _ (Or.inr (Or.inl rfl)) rfl
  · rw [Function.update_of_ne hba, Function.update_self]
  · exact (hafter.update hb _).update ha _

/-- Freeing the first cell leaves the chain behind it. -/
theorem Chain.unlink_first (h : Chain mem (a :: l) none) :
    Chain (Function.update mem a.1 none) l none :=
  h.2.update (List.nodup_cons.1 h.nodup).1 _

end LinkedList
