import Mathlib.Data.List.Basic

/-!
# Streams that carry marks

A stream socket delivers bytes, not messages: what one `pull` takes out may cut a message short, or
run on into the next one. What is sent is kept in **pieces**, and a piece may carry a mark (a
control message), which is delivered with the first of its bytes. A `pull` that has taken the last
byte of a marked piece stops there, so that it never delivers two marks.

The one law needed of such a stream is `pull_of_length`: a `pull` that asks for exactly the bytes of
the piece in front delivers that piece, its mark, and nothing else.
-/

namespace MarkedStream

/-- Bytes that were sent together, with the mark that was sent with them. -/
structure Piece (α ρ : Type*) where
  bytes : List α
  mark : Option ρ
deriving DecidableEq

/-- What one `pull` delivers, and what it leaves. -/
structure Receipt (α ρ : Type*) where
  bytes : List α
  mark : Option ρ
  left : List (Piece α ρ)
deriving DecidableEq

variable {α ρ : Type*} {p : Piece α ρ} {q : List (Piece α ρ)} {n : ℕ}

/-- Put a piece at the end. A message without bytes puts nothing on a stream. -/
def push (q : List (Piece α ρ)) (p : Piece α ρ) : List (Piece α ρ) :=
  if p.bytes = [] then q else q ++ [p]

/-- Take up to `n` bytes from the front. -/
def pull : List (Piece α ρ) → ℕ → Receipt α ρ
  | q, 0 => ⟨[], none, q⟩
  | [], _ => ⟨[], none, []⟩
  | p :: q, n + 1 =>
    if n + 1 < p.bytes.length then
      -- the mark has gone out with the first part of the piece
      ⟨p.bytes.take (n + 1), p.mark, ⟨p.bytes.drop (n + 1), none⟩ :: q⟩
    else match p.mark with
      | some r => ⟨p.bytes, some r, q⟩
      | none =>
        let next := pull q (n + 1 - p.bytes.length)
        ⟨p.bytes ++ next.bytes, next.mark, next.left⟩

theorem pull_zero (q : List (Piece α ρ)) : pull q 0 = ⟨[], none, q⟩ := by
  cases q <;> rfl

theorem push_of_ne_nil (h : p.bytes ≠ []) : push q p = q ++ [p] := if_neg h

/-- **A `pull` of exactly one piece** delivers it with its mark, and leaves the rest. -/
theorem pull_of_length (h : p.bytes.length = n) (hn : 0 < n) :
    pull (p :: q) n = ⟨p.bytes, p.mark, q⟩ := by
  obtain ⟨m, rfl⟩ : ∃ m, n = m + 1 := ⟨n - 1, (Nat.succ_pred_eq_of_pos hn).symm⟩
  obtain ⟨bytes, mark⟩ := p
  rw [pull, if_neg (Nat.not_lt.2 (Nat.le_of_eq h))]
  cases mark with
  | some r => rfl
  | none =>
    have hrest : m + 1 - bytes.length = 0 := Nat.sub_eq_zero_of_le (Nat.le_of_eq h.symm)
    simp only [hrest, pull_zero, List.append_nil]

end MarkedStream
