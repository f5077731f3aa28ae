import PreforkHttpd.Tree.RbInsert

/-!
# `RB_REMOVE_COLOR`

Where a black node is gone from its place, the paths through this place lack one, and
`RB_REMOVE_COLOR` repairs that from there upward.

The repair is followed by induction on the frames around a subtree with one black node too few. A
red sibling is rotated away; below a black one, either it becomes red and the lack is passed to the
parent, or one or two rotations end the repair.
-/

open LinkedTree RedBlack

namespace PreforkHttpd

namespace RbHead

variable {ι κ : Type} [DecidableEq ι]

/-! ### The code -/

/-- `if (p) RB_COLOR(p, field) = RB_BLACK;`. -/
def blacken (p : Option ι) (h : RbHead ι κ) : Option (RbHead ι κ) :=
  match p with
  | none => some h
  | some i => h.setColor .black i

/-- Both children are black, or null. The right child is only looked at if the left one is. -/
def childrenBlack (n : Node ι (Colored κ)) (h : RbHead ι κ) : Option Bool := do
  if ← h.isRed n.left then some false
  else (h.isRed n.right).map (! ·)

/-- `RB_REMOVE_COLOR`, the sibling `tmp`: a red one is rotated away. -/
def siblingOf (d : Side) (parent : ι) (h : RbHead ι κ) : Option (ι × RbHead ι κ) := do
  let tmp ← (← h.nodes parent).child d.other
  if ← h.isRed (some tmp) then
    let h ← h.setBlackRed tmp parent
    let h ← h.rotate d.other parent
    some (← (← h.nodes parent).child d.other, h)
  else some (tmp, h)

/-- `RB_REMOVE_COLOR`, below a sibling with a red child: the child that is farther from `elm` is
made red by a rotation, if it is not. -/
def outerRed (d : Side) (parent tmp : ι) (h : RbHead ι κ) : Option (ι × RbHead ι κ) := do
  if ← h.isRed ((← h.nodes tmp).child d.other) then some (tmp, h)
  else
    let h ← h.blacken ((← h.nodes tmp).child d)
    let h ← h.setColor .red tmp
    let h ← h.rotate d tmp
    some (← (← h.nodes parent).child d.other, h)

/-- `RB_REMOVE_COLOR`, the last rotation, and what follows the loop then. -/
def lastRotation (d : Side) (parent tmp : ι) (h : RbHead ι κ) : Option (RbHead ι κ) := do
  let h ← h.setColor (← h.nodes parent).data.color tmp
  let h ← h.setColor .black parent
  let h ← h.blacken ((← h.nodes tmp).child d.other)
  let h ← h.rotate d.other parent
  h.blacken h.rbhRoot

/-- `RB_REMOVE_COLOR`. The side `d` is that of `elm` in `parent`. -/
def removeColor : ℕ → Option ι → Option ι → RbHead ι κ → Option (RbHead ι κ)
  | 0, _, _, _ => none
  | fuel + 1, parent, elm, h => do
    if !(← h.isRed elm) ∧ elm ≠ h.rbhRoot then
      let parent ← parent
      let d := sideOf (← h.nodes parent) elm
      let (tmp, h) ← h.siblingOf d parent
      if ← h.childrenBlack (← h.nodes tmp) then
        let h ← h.setColor .red tmp
        removeColor fuel (← h.nodes parent).parent (some parent) h
      else
        let (tmp, h) ← h.outerRed d parent tmp
        h.lastRotation d parent tmp
    else h.blacken elm

variable {h : RbHead ι κ} {t S X Y : Colors ι κ} {p s : ι × Colored κ} {d : Side} {n m : ℕ}
  {col colX : Color} {fs : List (Frame ι (Colored κ))} {i : ι}

/-! ### The colours are repaired -/

/-- **The root is painted black** at the end. -/
theorem blacken_rbhRoot (hh : h.Holds t) (ht : Balanced t col n) :
    ∃ h' t', h.blacken h.rbhRoot = some h' ∧ Rebuilt h t h' t' ∧ IsRedBlack t' := by
  cases t with
  | nil =>
    refine ⟨h, .nil, ?_, .refl hh, ⟨0, .nil⟩⟩
    rw [hh.root_eq]
    rfl
  | node c l r =>
    obtain ⟨h', t', hrun, hrebuilt, hrb⟩ := blacken_root hh ht (mem_addresses_of_root rfl)
    refine ⟨h', t', ?_, hrebuilt, hrb⟩
    rw [hh.root_eq] at hrun ⊢
    exact hrun

/-- **The last rotation.** The place gets a node with the colour of the parent, over black
subtrees. -/
theorem lastRotation_spec
    (hh : h.Holds (plug fs (branch d.other p t (branch d.other s X Y)))) (ht : Balanced t .black n)
    (hX : Balanced X colX n) (hY : Balanced Y .red n) (hfs : Accepts fs p.2.color (n + 1)) :
    ∃ h' t', h.lastRotation d p.1 s.1 = some h' ∧
      Rebuilt h (plug fs (branch d.other p t (branch d.other s X Y))) h' t' ∧ IsRedBlack t' := by
  obtain ⟨y, Y₁, Y₂, rfl, -, hY₁, hY₂⟩ := hY.exists_of_red d.other
  have hparent := hh.node fs
  obtain ⟨h₁, hrun₁, hrebuilt₁⟩ := setColor_spec (⟨d.other, p, t⟩ :: fs) p.2.color hh
  obtain ⟨h₂, hrun₂, hrebuilt₂⟩ := setColor_spec (d := d.other) (c := p) fs .black hrebuilt₁.holds
  have hsibling := hrebuilt₂.holds.node (⟨d.other, paint .black p, t⟩ :: fs)
  obtain ⟨h₃, hrun₃, hrebuilt₃⟩ := setColor_spec (c := y) (⟨d.other, paint p.2.color s, X⟩ ::
    ⟨d.other, paint .black p, t⟩ :: fs) .black hrebuilt₂.holds
  obtain ⟨h₄, hrun₄, hrebuilt₄⟩ := rotate_holds (d := d.other) (a := paint .black p) hrebuilt₃.holds
  have hrb : IsRedBlack (plug fs (branch d.other (paint p.2.color s)
      (branch d.other (paint .black p) t X) (branch d.other (paint .black y) Y₁ Y₂))) :=
    Accepts.plug hfs (.black_branch rfl ht hX) (.black_branch rfl hY₁ hY₂)
  obtain ⟨h', t', hrun, hrebuilt, hrb'⟩ := blacken_rbhRoot hrebuilt₄.holds hrb.choose_spec
  refine ⟨h', t', ?_,
    (((hrebuilt₁.trans hrebuilt₂).trans hrebuilt₃).trans hrebuilt₄).trans hrebuilt, hrb'⟩
  rw [paint_fst] at hrun₄ hsibling
  simp only [lastRotation, hparent, data_mkNode, Option.bind_eq_bind, Option.bind_some, hrun₁,
    hrun₂, hsibling, child_mkNode, root_branch, blacken, hrun₃, hrun₄]
  exact hrun

omit [DecidableEq ι] in
/-- Asking for the colours of the children. -/
theorem childrenBlack_eq (fs : List (Frame ι (Colored κ))) {colY : Color}
    (hh : h.Holds (plug fs (branch d s X Y)))
    (hX : Balanced X colX n) (hY : Balanced Y colY n) (q : Option ι) (data : Colored κ) :
    h.childrenBlack (mkNode d (root X) (root Y) q data) =
      some (decide (colX = .black ∧ colY = .black)) := by
  have hinner : h.Holds (plug (⟨d.other, s, Y⟩ :: fs) X) := by
    rw [plug, branch_other]
    exact hh
  have hredX := isRed_root _ hinner hX
  have hredY := isRed_root (⟨d, s, X⟩ :: fs) hh hY
  cases d <;> cases colX <;> cases colY <;>
    simp [childrenBlack, mkNode, hredX, hredY]

/-- **The farther child of the sibling is red** after this. -/
theorem outerRed_spec {colY : Color}
    (hh : h.Holds (plug fs (branch d.other p t (branch d.other s X Y)))) (hX : Balanced X colX n)
    (hY : Balanced Y colY n) (hred : ¬ (colX = .black ∧ colY = .black)) :
    ∃ h' s' X' Y' colX', h.outerRed d p.1 s.1 = some (s'.1, h') ∧
      Rebuilt h (plug fs (branch d.other p t (branch d.other s X Y))) h'
        (plug fs (branch d.other p t (branch d.other s' X' Y'))) ∧
      Balanced X' colX' n ∧ Balanced Y' .red n := by
  have hsibling := hh.node (⟨d.other, p, t⟩ :: fs)
  have houter := isRed_root (⟨d.other, s, X⟩ :: ⟨d.other, p, t⟩ :: fs) hh hY
  cases colY with
  | red =>
    refine ⟨h, s, X, Y, colX, ?_, .refl hh, hX, hY⟩
    simp only [outerRed, hsibling, Option.bind_eq_bind, Option.bind_some, child_mkNode, houter,
      decide_true, if_true]
  | black =>
    cases colX with
    | black => exact absurd ⟨rfl, rfl⟩ hred
    | red =>
      obtain ⟨x, P, Q, rfl, -, hP, hQ⟩ := hX.exists_of_red d
      have hflip : plug fs (branch d.other p t (branch d.other s (branch d x P Q) Y)) =
          plug (⟨d, s, Y⟩ :: ⟨d.other, p, t⟩ :: fs) (branch d x P Q) := by
        rw [plug, plug, branch_other d s]
      rw [hflip] at hh ⊢
      obtain ⟨h₁, hrun₁, hrebuilt₁⟩ := setColor_spec _ .black hh
      obtain ⟨h₂, hrun₂, hrebuilt₂⟩ :=
        setColor_spec (d := d) (c := s) (⟨d.other, p, t⟩ :: fs) .red hrebuilt₁.holds
      obtain ⟨h₃, hrun₃, hrebuilt₃⟩ := rotate_holds (d := d) (a := paint .red s) hrebuilt₂.holds
      have hback : plug (⟨d.other, p, t⟩ :: fs)
            (branch d (paint .black x) (branch d (paint .red s) Y P) Q) =
          plug fs (branch d.other p t
            (branch d.other (paint .black x) Q (branch d (paint .red s) Y P))) := by
        rw [plug, branch_other d (paint .black x)]
      have hrebuilt := (hrebuilt₁.trans hrebuilt₂).trans hrebuilt₃
      rw [hback] at hrebuilt
      refine ⟨h₃, paint .black x, Q, branch d (paint .red s) Y P, .black, ?_, hrebuilt, hQ,
        .red_branch rfl hY hP⟩
      have hnode := hrebuilt.holds.node fs
      rw [paint_fst] at hrun₃
      simp only [outerRed, hsibling, Option.bind_eq_bind, Option.bind_some, child_mkNode, houter,
        reduceCtorEq, decide_false, Bool.false_eq_true, if_false, child_mkNode_other, root_branch,
        blacken, hrun₁, hrun₂, hrun₃, hnode, paint_fst]

omit [DecidableEq ι] in
/-- What the access to the sibling reads. -/
theorem sibling_eq (hh : h.Holds (plug fs (branch d.other p t S))) (hS : Balanced S col m) :
    h.nodes p.1 = some (mkNode d.other (root t) (root S) (above fs) p.2) ∧
      h.isRed (root S) = some (decide (col = .red)) :=
  ⟨hh.node fs, isRed_root (⟨d.other, p, t⟩ :: fs) hh hS⟩

/-- **A red sibling is rotated away.** The parent is then red, and one frame more is above it. -/
theorem siblingOf_spec (hh : h.Holds (plug fs (branch d.other p t S)))
    (hfs : FramesBalanced (⟨d, p, S⟩ :: fs) .black (n + 1)) :
    ∃ h' gs p' s X Y colX colY, h.siblingOf d p.1 = some (s.1, h') ∧ p'.1 = p.1 ∧
      Rebuilt h (plug fs (branch d.other p t S)) h'
        (plug gs (branch d.other p' t (branch d.other s X Y))) ∧
      Balanced X colX n ∧ Balanced Y colY n ∧ Accepts gs p'.2.color (n + 1) ∧
      (p'.2.color = .black → gs = fs) := by
  obtain ⟨col, hS, hplace⟩ : ∃ col, Balanced S col (n + 1) ∧
      if col = .red then FramesBalanced fs .black (n + 2)
      else Accepts fs p.2.color (n + 1) := by
    obtain ⟨hp, -, hS, hfs⟩ | ⟨hp, ⟨col, hS⟩, hfs⟩ := hfs
    · exact ⟨.black, hS, by rw [if_neg (by decide), hp]; exact hfs⟩
    · refine ⟨col, hS, ?_⟩
      rw [hp]
      split <;> exact hfs
  obtain ⟨hparent, hred⟩ := sibling_eq hh hS
  cases col with
  | black =>
    rw [if_neg (by decide)] at hplace
    obtain ⟨s, X, Y, colX, colY, rfl, -, hX, hY⟩ := hS.exists_of_succ d.other
    refine ⟨h, fs, p, s, X, Y, colX, colY, ?_, rfl, .refl hh, hX, hY, hplace, fun _ ↦ rfl⟩
    rw [root_branch] at hred hparent
    simp only [siblingOf, hparent, child_mkNode, hred, Option.bind_eq_bind, Option.bind_some,
      reduceCtorEq, decide_false, Bool.false_eq_true, if_false]
  | red =>
    rw [if_pos rfl] at hplace
    have hred_ne : Color.red ≠ .black := by decide
    obtain ⟨r, Z, W, rfl, -, hZ, hW⟩ := hS.exists_of_red d.other
    obtain ⟨s, X, Y, colX, colY, rfl, -, hX, hY⟩ := hZ.exists_of_succ d.other
    obtain ⟨h₁, hrun₁, hrebuilt₁⟩ := setColor_spec (⟨d.other, p, t⟩ :: fs) .black hh
    obtain ⟨h₂, hrun₂, hrebuilt₂⟩ := setColor_spec (d := d.other) (c := p) fs .red hrebuilt₁.holds
    obtain ⟨h₃, hrun₃, hrebuilt₃⟩ := rotate_holds (d := d.other) (a := paint .red p) hrebuilt₂.holds
    have hflip : plug fs (branch d.other (paint .black r)
          (branch d.other (paint .red p) t (branch d.other s X Y)) W) =
        plug (⟨d, paint .black r, W⟩ :: fs)
          (branch d.other (paint .red p) t (branch d.other s X Y)) := by
      rw [plug, branch_other d (paint .black r)]
    have hrebuilt := (hrebuilt₁.trans hrebuilt₂).trans hrebuilt₃
    rw [hflip] at hrebuilt
    refine ⟨h₃, ⟨d, paint .black r, W⟩ :: fs, paint .red p, s, X, Y, colX, colY, ?_, rfl, hrebuilt,
      hX, hY, Or.inr ⟨rfl, ⟨_, hW⟩, hplace⟩, fun hcol ↦ absurd hcol hred_ne⟩
    have hnode := hrebuilt.holds.node (⟨d, paint .black r, W⟩ :: fs)
    rw [root_branch] at hred hparent
    rw [paint_fst] at hrun₃ hnode
    simp only [siblingOf, hparent, child_mkNode, hred, Option.bind_eq_bind, Option.bind_some,
      decide_true, if_true, setBlackRed, hrun₁, hrun₂, hrun₃, hnode, root_branch]

/-- **The repair ends** at a red node, which becomes black. -/
theorem removeColor_of_red (fuel : ℕ) {c : ι × Colored κ} (q : Option ι)
    (hh : h.Holds (plug fs (branch d c X Y))) (hc : c.2.color = .red)
    (hrb : IsRedBlack (plug fs (branch d (paint .black c) X Y))) :
    ∃ h' t', removeColor (fuel + 1) q (some c.1) h = some h' ∧
      Rebuilt h (plug fs (branch d c X Y)) h' t' ∧ IsRedBlack t' := by
  obtain ⟨h', hrun, hrebuilt⟩ := setColor_spec fs .black hh
  refine ⟨h', _, ?_, hrebuilt, hrb⟩
  have hred : h.isRed (some c.1) = some true := by
    rw [isRed, hh.node fs, Option.map_some, data_mkNode, hc]
    rfl
  simp only [removeColor, hred, Option.bind_eq_bind, Option.bind_some, Bool.not_true,
    Bool.false_eq_true, false_and, if_false, blacken, hrun]

omit [DecidableEq ι] in
/-- A subtree that is not the whole tree has another root. -/
theorem root_ne_rbhRoot {f : Frame ι (Colored κ)} (hh : h.Holds (plug (f :: fs) t)) :
    root t ≠ h.rbhRoot := by
  obtain ⟨i, hi, hroot⟩ := exists_root_plug f fs t
  rw [hh.root_eq, hroot]
  exact fun heq ↦ (nodup_plug.1 hh.nodup).2.2 i hi (mem_addresses_of_root heq)

omit [DecidableEq ι] in
/-- The sibling of a subtree that lacks a black node is not empty, and has another root. -/
theorem root_sibling_ne_root {f : Frame ι (Colored κ)} (hh : h.Holds (plug (f :: fs) t))
    (hfs : FramesBalanced (f :: fs) col (n + 1)) : root f.sibling ≠ root t := by
  cases t with
  | node c l r => exact root_sibling_ne fs hh rfl
  | nil =>
    obtain ⟨col', hS⟩ : ∃ col', Balanced f.sibling col' (n + 1) := by
      obtain ⟨-, -, hS, -⟩ | ⟨-, hS, -⟩ := hfs
      · exact ⟨_, hS⟩
      · exact hS
    intro hnone
    cases hf : f.sibling with
    | nil =>
      rw [hf] at hS
      cases hS
    | node c l r =>
      rw [hf] at hnone
      cases hnone

/-- **A round of the loop** at a black subtree. -/
theorem removeColor_of_black (fuel : ℕ) {h₁ : RbHead ι κ} {tmp : ι} {k : Node ι (Colored κ)}
    {b : Bool} (hh : h.Holds (plug (⟨d, p, S⟩ :: fs) t)) (ht : Balanced t .black n)
    (hfs : FramesBalanced (⟨d, p, S⟩ :: fs) col (m + 1))
    (hsibling : h.siblingOf d p.1 = some (tmp, h₁)) (hk : h₁.nodes tmp = some k)
    (hchildren : h₁.childrenBlack k = some b) :
    removeColor (fuel + 1) (some p.1) (root t) h =
      if b then (h₁.setColor .red tmp).bind fun h ↦ (h.nodes p.1).bind fun k ↦
        removeColor fuel k.parent (some p.1) h
      else (h₁.outerRed d p.1 tmp).bind fun x ↦ x.2.lastRotation d p.1 x.1 := by
  have helm := isRed_root _ hh ht
  have hne := root_ne_rbhRoot hh
  have hparent := hh.node fs
  have hside : sideOf (mkNode d (root S) (root t) (above fs) p.2) (root t) = d :=
    sideOf_mkNode (root_sibling_ne_root hh hfs)
  simp only [removeColor, helm, Option.bind_eq_bind, Option.bind_some, reduceCtorEq, decide_false,
    Bool.not_false, true_and, hne, ne_eq, not_false_eq_true, if_true, hparent, hside, hsibling, hk,
    hchildren]

/-- **`RB_REMOVE_COLOR` makes a red-black tree** of one in which a subtree has one black node too
few. -/
theorem removeColor_spec {fuel : ℕ} (hh : h.Holds (plug fs t)) (ht : Balanced t col n)
    (hfs : FramesBalanced fs .black (n + 1)) (hfuel : fs.length < fuel) :
    ∃ h' t', removeColor fuel (above fs) (root t) h = some h' ∧ Rebuilt h (plug fs t) h' t' ∧
      IsRedBlack t' := by
  induction fuel generalizing h fs t n col with
  | zero => cases hfuel
  | succ fuel ih =>
    cases col with
    | red =>
      obtain ⟨c, X, Y, rfl, hc, hX, hY⟩ := ht.exists_of_red .right
      rw [root_branch]
      exact removeColor_of_red fuel _ hh hc
        (balanced_plug_iff.2 ⟨_, _, hfs, .black_branch rfl hX hY⟩)
    | black =>
      match fs with
      | [] =>
        obtain ⟨h', t', hrun, hrebuilt, hrb⟩ := blacken_rbhRoot hh ht
        refine ⟨h', t', ?_, hrebuilt, hrb⟩
        have helm := isRed_root [] hh ht
        have hroot : root t = h.rbhRoot := hh.root_eq.symm
        rw [hroot] at helm ⊢
        simp only [removeColor, helm, Option.bind_eq_bind, Option.bind_some, ne_eq,
          not_true_eq_false, and_false, if_false, hrun]
      | ⟨d, p, S⟩ :: fs =>
        rw [List.length_cons, Nat.succ_lt_succ_iff] at hfuel
        have hflip : plug (⟨d, p, S⟩ :: fs) t = plug fs (branch d.other p t S) := by
          rw [plug, branch_other]
        obtain ⟨h₁, gs, p', s, X, Y, colX, colY, hrun₁, hp', hrebuilt₁, hX, hY, haccepts, hgs⟩ :=
          siblingOf_spec (hflip ▸ hh) hfs
        have hround := removeColor_of_black fuel hh ht hfs hrun₁
          (hrebuilt₁.holds.node (⟨d.other, p', t⟩ :: gs))
          (childrenBlack_eq (⟨d.other, p', t⟩ :: gs) hrebuilt₁.holds hX hY _ _)
        rw [hflip]
        by_cases hblack : colX = .black ∧ colY = .black
        · -- the lack is passed to the parent
          rw [decide_eq_true hblack, if_pos rfl] at hround
          obtain ⟨rfl, rfl⟩ := hblack
          obtain ⟨h₂, hrun₂, hrebuilt₂⟩ := setColor_spec (⟨d.other, p', t⟩ :: gs) .red
            hrebuilt₁.holds
          have hplace : Balanced (branch d.other (paint .black p') t
              (branch d.other (paint .red s) X Y)) .black (n + 1) :=
            .black_branch rfl ht (.red_branch rfl hX hY)
          have hh₂ : h₂.Holds (plug gs (branch d.other p' t
              (branch d.other (paint .red s) X Y))) := hrebuilt₂.holds
          have hnode := hh₂.node gs
          rw [hp'] at hnode
          rw [hrun₂, Option.bind_some, hnode, Option.bind_some, parent_mkNode] at hround
          cases hcol : p'.2.color with
          | red =>
            rw [hcol] at haccepts
            obtain ⟨fuel, rfl⟩ : ∃ k, fuel = k + 1 := ⟨fuel - 1, by omega⟩
            obtain ⟨h', t', hrun, hrebuilt, hrb⟩ := removeColor_of_red fuel (above gs) hh₂ hcol
              (balanced_plug_iff.2 ⟨_, _, FramesBalanced.black_of_red haccepts, hplace⟩)
            rw [hp'] at hrun
            exact ⟨h', t', hround.trans hrun, (hrebuilt₁.trans hrebuilt₂).trans hrebuilt, hrb⟩
          | black =>
            obtain rfl := hgs hcol
            rw [hcol] at haccepts
            rw [paint_of_eq hcol] at hplace
            obtain ⟨h', t', hrun, hrebuilt, hrb⟩ := ih hh₂ hplace haccepts hfuel
            rw [root_branch, hp'] at hrun
            exact ⟨h', t', hround.trans hrun, (hrebuilt₁.trans hrebuilt₂).trans hrebuilt, hrb⟩
        · -- one or two rotations end the repair
          rw [decide_eq_false hblack, if_neg Bool.false_ne_true] at hround
          obtain ⟨h₂, s', X', Y', colX', hrun₂, hrebuilt₂, hX', hY'⟩ :=
            outerRed_spec hrebuilt₁.holds hX hY hblack
          obtain ⟨h', t', hrun, hrebuilt, hrb⟩ :=
            lastRotation_spec hrebuilt₂.holds ht hX' hY' haccepts
          refine ⟨h', t', hround.trans ?_, (hrebuilt₁.trans hrebuilt₂).trans hrebuilt, hrb⟩
          rw [← hp', hrun₂, Option.bind_some, hrun]

end RbHead

end PreforkHttpd
