import Mathlib.Data.List.Basic
import Mathlib.Data.Int.Basic
import Mathlib.Data.Nat.Notation

/-!
# Taking from a fullest place

Units are taken one by one from a list of places, each time from one that holds the most. A list is
`Level` when no two places differ by more than one unit, and taking from a fullest place keeps it
level (`Level.take`).

A level list is known from its total: what a fullest place of it holds is the average, rounded up
(`Level.total_le`, `Level.lt_total`).
-/

namespace Leveling

/-- No place holds more than one unit more than another. -/
def Level (l : List ℤ) : Prop := ∀ a ∈ l, ∀ b ∈ l, a ≤ b + 1

/-- `a` is what the fullest places hold. -/
def Fullest (l : List ℤ) (a : ℤ) : Prop := ∀ b ∈ l, b ≤ a

/-- All that the places hold. -/
def total : List ℤ → ℤ
  | [] => 0
  | a :: l => a + total l

variable {l : List ℤ} {i : ℕ} {a b : ℤ}

theorem level_of_forall_eq (h : ∀ b ∈ l, b = a) : Level l := by
  intro b hb c hc
  rw [h b hb, h c hc]
  exact Int.le_add_one (Int.le_refl a)

/-- **Taking keeps the list level**, when it is from a fullest place. -/
theorem Level.take (hl : Level l) (hi : l[i]? = some a) (ha : Fullest l a) :
    Level (l.set i (a - 1)) := by
  have hmem : a ∈ l := List.mem_of_getElem? hi
  intro b hb c hc
  rcases List.mem_or_eq_of_mem_set hb with hb | rfl <;>
    rcases List.mem_or_eq_of_mem_set hc with hc | rfl
  · exact hl b hb c hc
  · have hle := ha b hb
    omega
  · have hle := hl a hmem c hc
    omega
  · omega

/-- A place that is set anew changes the total by the difference. -/
theorem total_set : ∀ {l : List ℤ} {i : ℕ}, l[i]? = some a → total (l.set i b) = total l - a + b
  | [], _, h => by cases h
  | c :: l, 0, h => by
    obtain rfl : c = a := Option.some.inj h
    rw [List.set_cons_zero, total, total]
    omega
  | c :: l, i + 1, h => by
    have hi : l[i]? = some a := h
    rw [List.set_cons_succ, total, total, total_set hi]
    omega

theorem total_of_forall_eq : ∀ {l : List ℤ}, (∀ b ∈ l, b = a) → total l = l.length * a
  | [], _ => by rw [total, List.length_nil, Int.natCast_zero, Int.zero_mul]
  | b :: l, h => by
    obtain ⟨hb, hl⟩ := List.forall_mem_cons.1 h
    rw [total, total_of_forall_eq hl, hb, List.length_cons, Int.natCast_succ, Int.add_mul,
      Int.one_mul]
    omega

/-- No place holds more than the fullest. -/
theorem Fullest.total_le : ∀ {l : List ℤ}, Fullest l a → total l ≤ l.length * a
  | [], _ => Int.le_of_eq (Int.zero_mul a).symm
  | b :: l, h => by
    obtain ⟨hb, hl⟩ := List.forall_mem_cons.1 h
    have hle := Fullest.total_le (l := l) hl
    rw [total, List.length_cons, Int.natCast_succ, Int.add_mul, Int.one_mul]
    omega

theorem mul_le_total : ∀ {l : List ℤ}, (∀ b ∈ l, a ≤ b) → l.length * a ≤ total l
  | [], _ => Int.le_of_eq (Int.zero_mul a)
  | b :: l, h => by
    obtain ⟨hb, hl⟩ := List.forall_mem_cons.1 h
    have hle := mul_le_total hl
    rw [total, List.length_cons, Int.natCast_succ, Int.add_mul, Int.one_mul]
    omega

/-- In a level list no place holds much less than the fullest. -/
theorem Level.lt_total (hl : Level l) (hi : l[i]? = some a) : l.length * (a - 1) < total l := by
  -- one unit taken from the place leaves each place with `a - 1` at least
  have hmem : a ∈ l := List.mem_of_getElem? hi
  have hle : ∀ b ∈ l.set i (a - 1), a - 1 ≤ b := by
    intro b hb
    rcases List.mem_or_eq_of_mem_set hb with hb | rfl
    · have hab := hl a hmem b hb
      omega
    · exact Int.le_refl _
  have htotal := mul_le_total hle
  rw [List.length_set, total_set hi] at htotal
  omega

end Leveling
