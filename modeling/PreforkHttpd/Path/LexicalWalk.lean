import Mathlib.Data.List.Basic
import Mathlib.Order.Nat

/-!
# Walking a tree of names

A path read from left to right is a list of **moves** in a tree of names: stay, go up, go down to a
name. A place in the tree is the list of names that lead to it from the root, and going up from the
root stays there. Nothing is known of what exists: this is the lexical reading of a path.

What a list of moves does is independent of where it starts, up to how far it climbs. `net ms` is
that summary: how many levels the moves climb above their start, and the names they then lead down
by. `walk_eq` turns a walk into it.

`prefix_walk_iff` decides whether a walk ends inside a subtree `base` when it starts at `base`, or
at a sibling of it: the moves must leave the sibling, and what they climb out of `base` they must
come down again by the same names.
-/

namespace LexicalWalk

variable {α : Type}

/-- One component of a path. -/
inductive Move (α : Type)
  | stay
  | up
  | down (a : α)
deriving DecidableEq

/-- Where one move leads. -/
def move (s : List α) : Move α → List α
  | .stay => s
  | .up => s.dropLast
  | .down a => s ++ [a]

/-- Where a list of moves leads. -/
def walk (s : List α) (ms : List (Move α)) : List α := ms.foldl move s

/-- One move after others that climb `k` levels and then go down by `names`. -/
def netStep : ℕ × List α → Move α → ℕ × List α
  | (k, names), .stay => (k, names)
  | (k, []), .up => (k + 1, [])
  | (k, a :: names), .up => (k, (a :: names).dropLast)
  | (k, names), .down a => (k, names ++ [a])

/-- How far a list of moves climbs, and the names it then goes down by. -/
def net (ms : List (Move α)) : ℕ × List α := ms.foldl netStep (0, [])

theorem walk_append (s : List α) (ms ms' : List (Move α)) :
    walk s (ms ++ ms') = walk (walk s ms) ms' := List.foldl_append

/-- Staying put makes no difference. -/
theorem walk_append_stay (s : List α) (ms : List (Move α)) :
    walk s (ms ++ [.stay]) = walk s ms := walk_append s ms [.stay]

/-- One move, from a place that is some levels up and some names down. -/
theorem move_eq (s : List α) (m : Move α) (r : ℕ × List α) :
    move (s.take (s.length - r.1) ++ r.2) m =
      s.take (s.length - (netStep r m).1) ++ (netStep r m).2 := by
  obtain ⟨k, names⟩ := r
  cases m with
  | stay => cases names <;> rfl
  | down a =>
    cases names with
    | nil => exact List.append_assoc _ _ _
    | cons b names => exact List.append_assoc _ _ _
  | up =>
    cases names with
    | cons b names => exact List.dropLast_append_of_ne_nil (List.cons_ne_nil b names)
    | nil =>
      -- with no names left to give up, the move climbs one level further
      show (s.take (s.length - k) ++ []).dropLast = s.take (s.length - (k + 1)) ++ []
      rw [List.append_nil, List.append_nil, List.dropLast_eq_take, List.take_take,
        List.length_take]
      congr 1
      omega

/-- **A walk in terms of its net effect.** -/
theorem walk_eq (s : List α) (ms : List (Move α)) :
    walk s ms = s.take (s.length - (net ms).1) ++ (net ms).2 := by
  have hfold : ∀ (ms : List (Move α)) (r : ℕ × List α),
      ms.foldl move (s.take (s.length - r.1) ++ r.2) =
        s.take (s.length - (ms.foldl netStep r).1) ++ (ms.foldl netStep r).2 := by
    intro ms
    induction ms with
    | nil => exact fun r ↦ rfl
    | cons m ms ih =>
      intro r
      rw [List.foldl_cons, List.foldl_cons, move_eq]
      exact ih _
  have h := hfold ms (0, [])
  rw [Nat.sub_zero, List.take_length, List.append_nil] at h
  exact h

/-- **Staying inside a subtree**: a walk from `s`, which is `base` or a sibling of it, ends at or
below `base` if and only if it leaves a sibling, and comes down again by the names it climbed. -/
theorem prefix_walk_iff {base s : List α} (hs : s.dropLast = base.dropLast)
    (hlength : s.length = base.length) (ms : List (Move α)) :
    base <+: walk s ms ↔
      (s = base ∨ 0 < (net ms).1) ∧ base.drop (base.length - (net ms).1) <+: (net ms).2 := by
  rw [walk_eq, hlength]
  generalize (net ms).1 = k, (net ms).2 = names
  by_cases hk : k = 0
  · -- nothing climbed: the walk stays below `s`, which then has to be `base`
    rw [hk, Nat.sub_zero, List.drop_length, ← hlength, List.take_length, or_iff_left (lt_irrefl 0),
      and_iff_left List.nil_prefix]
    refine ⟨fun h ↦ ?_, fun h ↦ h ▸ List.prefix_append _ _⟩
    exact ((List.prefix_of_prefix_length_le h (List.prefix_append _ _) hlength.ge).eq_of_length
      hlength.symm).symm
  · -- climbing a level leaves the last name of `s` behind, the only one that may differ
    have htake : s.take (base.length - k) = base.take (base.length - k) := by
      have h := congrArg (List.take (base.length - k)) hs
      rw [List.dropLast_eq_take, List.dropLast_eq_take, List.take_take, List.take_take, hlength,
        min_eq_left (by omega)] at h
      exact h
    rw [htake, and_iff_right (Or.inr (Nat.pos_of_ne_zero hk))]
    nth_rewrite 1 [← List.take_append_drop (base.length - k) base]
    exact List.prefix_append_right_inj _

end LexicalWalk
