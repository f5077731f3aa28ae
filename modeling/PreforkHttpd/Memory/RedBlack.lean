import Mathlib.Algebra.Group.Nat.Defs
import Mathlib.Data.Nat.Log
import PreforkHttpd.Memory.TreeSurgery

/-!
# Red-black trees

The colouring conditions on a binary tree, and on the frames around a subtree. `Balanced t c n` says
that a red node of `t` has black children and that every path of `t` from its root down passes `n`
black nodes, `c` being the colour of the root, black for the empty tree. `FramesBalanced fs c n`
says that a subtree of colour `c` with `n` black nodes on its paths fits into the frames, so that
the whole is balanced with a black root (`balanced_plug_iff`).

An algorithm that restores the conditions from some place upward is followed by what fits there.
Height and number of nodes are related as usual (`Balanced.height_le`).
-/

namespace RedBlack

open LinkedTree

variable {ι κ : Type*}

/-- The colour of a node. -/
inductive Color
  | black
  | red
deriving DecidableEq

/-- What a node carries. -/
structure Colored (κ : Type*) where
  color : Color
  key : κ
deriving DecidableEq

/-- A tree of coloured nodes, each with its address. -/
abbrev Colors (ι κ : Type*) := BinaryTree (ι × Colored κ)

/-- The addresses and keys from left to right. -/
def entries (t : Colors ι κ) : List (ι × κ) := (inorder t).map fun c ↦ (c.1, c.2.key)

/-- The node with another colour. -/
def paint (col : Color) (c : ι × Colored κ) : ι × Colored κ := (c.1, { c.2 with color := col })

@[simp] theorem paint_fst (col : Color) (c : ι × Colored κ) : (paint col c).1 = c.1 := rfl

@[simp] theorem color_paint (col : Color) (c : ι × Colored κ) : (paint col c).2.color = col := rfl

@[simp] theorem paint_paint (col col' : Color) (c : ι × Colored κ) :
    paint col (paint col' c) = paint col c := rfl

theorem paint_of_eq {col : Color} {c : ι × Colored κ} (h : c.2.color = col) : paint col c = c := by
  subst h
  rfl

/-- The colouring conditions: the colour of the root, and the number of black nodes on a path. -/
inductive Balanced : Colors ι κ → Color → ℕ → Prop
  | nil : Balanced .nil .black 0
  | red {c : ι × Colored κ} {l r : Colors ι κ} {n : ℕ} (hc : c.2.color = .red)
    (hl : Balanced l .black n) (hr : Balanced r .black n) : Balanced (.node c l r) .red n
  | black {c : ι × Colored κ} {l r : Colors ι κ} {cl cr : Color} {n : ℕ} (hc : c.2.color = .black)
    (hl : Balanced l cl n) (hr : Balanced r cr n) : Balanced (.node c l r) .black (n + 1)

/-- A subtree of colour `c` with `n` black nodes on its paths fits into the frames. -/
def FramesBalanced : List (Frame ι (Colored κ)) → Color → ℕ → Prop
  | [], c, _ => c = .black
  | f :: fs, c, n =>
    (f.node.2.color = .red ∧ c = .black ∧ Balanced f.sibling .black n ∧ FramesBalanced fs .red n) ∨
      (f.node.2.color = .black ∧ (∃ c', Balanced f.sibling c' n) ∧ FramesBalanced fs .black (n + 1))

/-- The conditions on a whole tree. -/
def IsRedBlack (t : Colors ι κ) : Prop := ∃ n, Balanced t .black n

variable {t s A B : Colors ι κ} {c : ι × Colored κ} {col col' : Color} {n m : ℕ} {d : Side}
  {f : Frame ι (Colored κ)} {fs : List (Frame ι (Colored κ))}

/-! ### Nodes -/

theorem Balanced.red_branch (hc : c.2.color = .red) (hA : Balanced A .black n)
    (hB : Balanced B .black n) : Balanced (branch d c A B) .red n := by
  cases d with
  | left => exact .red hc hB hA
  | right => exact .red hc hA hB

theorem Balanced.black_branch (hc : c.2.color = .black) (hA : Balanced A col n)
    (hB : Balanced B col' n) : Balanced (branch d c A B) .black (n + 1) := by
  cases d with
  | left => exact .black hc hB hA
  | right => exact .black hc hA hB

/-- **The two kinds of node.** -/
theorem balanced_branch_cases (h : Balanced (branch d c A B) col n) :
    (c.2.color = .red ∧ col = .red ∧ Balanced A .black n ∧ Balanced B .black n) ∨
      ∃ m cA cB, c.2.color = .black ∧ col = .black ∧ n = m + 1 ∧ Balanced A cA m ∧
        Balanced B cB m := by
  cases d <;> cases h
  all_goals first
    | exact Or.inl ⟨‹_›, rfl, ‹_›, ‹_›⟩
    | exact Or.inr ⟨_, _, _, ‹_›, rfl, rfl, ‹_›, ‹_›⟩

/-- The colour of the root. -/
theorem Balanced.color_eq (h : Balanced (branch d c A B) col n) : col = c.2.color := by
  obtain ⟨hc, hcol, -⟩ | ⟨_, _, _, hc, hcol, -⟩ := balanced_branch_cases h <;> rw [hc, hcol]

/-- A red node is not empty, and its children are black. -/
theorem Balanced.exists_of_red (h : Balanced t .red n) (d : Side) :
    ∃ c A B, t = branch d c A B ∧ c.2.color = .red ∧ Balanced A .black n ∧ Balanced B .black n := by
  cases t with
  | nil => cases h
  | node c l r =>
    obtain ⟨A, B, hAB⟩ := exists_branch d c l r
    rw [hAB] at h ⊢
    obtain ⟨hc, -, hA, hB⟩ | ⟨_, _, _, -, hcol, -⟩ := balanced_branch_cases h
    · exact ⟨c, A, B, rfl, hc, hA, hB⟩
    · cases hcol

/-- A tree with a black node on its paths is not empty. -/
theorem Balanced.exists_of_succ (h : Balanced t .black (n + 1)) (d : Side) :
    ∃ c A B cA cB, t = branch d c A B ∧ c.2.color = .black ∧ Balanced A cA n ∧ Balanced B cB n := by
  cases t with
  | nil => cases h
  | node c l r =>
    obtain ⟨A, B, hAB⟩ := exists_branch d c l r
    rw [hAB] at h ⊢
    obtain ⟨-, hcol, -⟩ | ⟨m, cA, cB, hc, -, hm, hA, hB⟩ := balanced_branch_cases h
    · cases hcol
    · obtain rfl := Nat.succ.inj hm
      exact ⟨c, A, B, cA, cB, rfl, hc, hA, hB⟩

/-- A red root painted black. -/
theorem Balanced.paint_red (h : Balanced (branch d c A B) .red n) :
    Balanced (branch d (paint .black c) A B) .black (n + 1) := by
  obtain ⟨-, -, hA, hB⟩ | ⟨_, _, _, -, hcol, -⟩ := balanced_branch_cases h
  · exact .black_branch rfl hA hB
  · cases hcol

/-! ### Frames -/

theorem FramesBalanced.black_of_red (h : FramesBalanced fs .red n) :
    FramesBalanced fs .black n := by
  cases fs with
  | nil => rfl
  | cons f fs =>
    obtain ⟨-, hcol, -⟩ | hblack := h
    · cases hcol
    · exact Or.inr hblack

/-- Above a red node is a black one. -/
theorem FramesBalanced.exists_of_red (h : FramesBalanced fs .red n) :
    ∃ g gs c, fs = g :: gs ∧ g.node.2.color = .black ∧ Balanced g.sibling c n ∧
      FramesBalanced gs .black (n + 1) := by
  cases fs with
  | nil => cases h
  | cons g gs =>
    obtain ⟨-, hcol, -⟩ | ⟨hg, ⟨c, hc⟩, hgs⟩ := h
    · cases hcol
    · exact ⟨g, gs, c, rfl, hg, hc, hgs⟩

/-- Of a frame, the colour and the sibling count. -/
theorem FramesBalanced.replace {gs : List (Frame ι (Colored κ))} {c c' : ι × Colored κ}
    (h : FramesBalanced (gs ++ ⟨d, c, s⟩ :: fs) col n) (hcolor : c'.2.color = c.2.color) :
    FramesBalanced (gs ++ ⟨d, c', s⟩ :: fs) col n := by
  induction gs generalizing col n with
  | nil =>
    refine h.imp ?_ ?_
    · rintro ⟨hc, hrest⟩
      exact ⟨hcolor.trans hc, hrest⟩
    · rintro ⟨hc, hrest⟩
      exact ⟨hcolor.trans hc, hrest⟩
  | cons g gs ih =>
    refine h.imp ?_ ?_
    · rintro ⟨hg, hcol, hs, hgs⟩
      exact ⟨hg, hcol, hs, ih hgs⟩
    · rintro ⟨hg, hs, hgs⟩
      exact ⟨hg, hs, ih hgs⟩

/-- **What fits into the frames** makes a balanced tree with a black root, and nothing else does. -/
theorem balanced_plug_iff :
    IsRedBlack (plug fs t) ↔ ∃ col n, FramesBalanced fs col n ∧ Balanced t col n := by
  induction fs generalizing t with
  | nil =>
    constructor
    · rintro ⟨n, h⟩
      exact ⟨.black, n, rfl, h⟩
    · rintro ⟨col, n, rfl, h⟩
      exact ⟨n, h⟩
  | cons f fs ih =>
    rw [plug, ih]
    constructor
    · rintro ⟨col, n, hfs, h⟩
      obtain ⟨hf, rfl, hs, ht⟩ | ⟨m, cs, ct, hf, rfl, rfl, hs, ht⟩ := balanced_branch_cases h
      · exact ⟨.black, n, Or.inl ⟨hf, rfl, hs, hfs⟩, ht⟩
      · exact ⟨ct, m, Or.inr ⟨hf, ⟨cs, hs⟩, hfs⟩, ht⟩
    · rintro ⟨col, n, ⟨hf, rfl, hs, hfs⟩ | ⟨hf, ⟨cs, hs⟩, hfs⟩, ht⟩
      · exact ⟨.red, n, hfs, .red_branch hf hs ht⟩
      · exact ⟨.black, n + 1, hfs, .black_branch hf hs ht⟩

/-- A node of colour `col` over black subtrees with `n` black nodes on their paths fits into the
frames. -/
def Accepts (fs : List (Frame ι (Colored κ))) (col : Color) (n : ℕ) : Prop :=
  match col with
  | .red => FramesBalanced fs .red n
  | .black => FramesBalanced fs .black (n + 1)

theorem Accepts.plug (h : Accepts fs c.2.color n) (hA : Balanced A .black n)
    (hB : Balanced B .black n) : IsRedBlack (plug fs (branch d c A B)) := by
  cases hc : c.2.color with
  | red =>
    rw [hc] at h
    exact balanced_plug_iff.2 ⟨_, _, h, .red_branch hc hA hB⟩
  | black =>
    rw [hc] at h
    exact balanced_plug_iff.2 ⟨_, _, h, .black_branch hc hA hB⟩

/-! ### Entries -/

/-- The entries of a subtree decide those of the whole. -/
theorem entries_plug_congr (h : entries t = entries s) :
    entries (plug fs t) = entries (plug fs s) := by
  induction fs generalizing t s with
  | nil => exact h
  | cons f fs ih =>
    refine ih ?_
    simp only [entries] at h
    cases hf : f.side <;> simp only [entries, branch, inorder, List.map_append, List.map_cons, h]

theorem entries_branch_congr {A' B' : Colors ι κ} {c' : ι × Colored κ} (hc : c.1 = c'.1)
    (hkey : c.2.key = c'.2.key) (hA : entries A = entries A') (hB : entries B = entries B') :
    entries (branch d c A B) = entries (branch d c' A' B') := by
  simp only [entries] at hA hB
  cases d <;> simp only [entries, branch, inorder, List.map_append, List.map_cons, hA, hB, hc, hkey]

theorem entries_paint : entries (branch d (paint col c) A B) = entries (branch d c A B) :=
  entries_branch_congr rfl rfl rfl rfl

/-- A rotation keeps the entries. -/
theorem entries_rotate {a b : ι × Colored κ} {C : Colors ι κ} :
    entries (branch d b (branch d a A B) C) = entries (branch d a A (branch d b B C)) := by
  cases d <;> simp only [entries, branch, inorder, List.map_append, List.map_cons,
    List.append_assoc, List.cons_append]

theorem addresses_eq_map_entries (t : Colors ι κ) : addresses t = (entries t).map Prod.fst := by
  rw [addresses, entries, List.map_map]
  rfl

/-! ### Height -/

/-- Black nodes are at least half of a path, and every path has as many. -/
theorem Balanced.height_le_two_mul (h : Balanced t col n) :
    height t ≤ 2 * n + (if col = .red then 1 else 0) ∧ 2 ^ n ≤ (entries t).length + 1 := by
  induction h with
  | nil => exact ⟨le_rfl, le_rfl⟩
  | @red c l r n hc _ _ ihl ihr =>
    simp only [height, entries, inorder, List.map_append, List.map_cons, List.length_append,
      List.length_cons, reduceCtorEq, if_false, if_true] at ihl ihr ⊢
    omega
  | @black c l r cl cr n hc _ _ ihl ihr =>
    have hl : height l ≤ 2 * n + 1 := ihl.1.trans (by split <;> omega)
    have hr : height r ≤ 2 * n + 1 := ihr.1.trans (by split <;> omega)
    simp only [height, entries, inorder, List.map_append, List.map_cons, List.length_append,
      List.length_cons, reduceCtorEq, if_false, Nat.pow_succ] at ihl ihr ⊢
    omega

/-- **The height of a red-black tree** is at most twice the logarithm of its size plus one. -/
theorem IsRedBlack.height_le (h : IsRedBlack t) :
    height t ≤ 2 * Nat.log 2 ((entries t).length + 1) := by
  obtain ⟨n, hn⟩ := h
  obtain ⟨hheight, hsize⟩ := hn.height_le_two_mul
  rw [if_neg nofun, Nat.add_zero] at hheight
  exact hheight.trans (Nat.mul_le_mul_left 2 (Nat.le_log_of_pow_le (by decide) hsize))

end RedBlack
