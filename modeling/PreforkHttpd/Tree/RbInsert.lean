import PreforkHttpd.Memory.SearchTree
import PreforkHttpd.Tree.RbMacros

/-!
# `RB_INSERT`

`RB_INSERT` looks for the place of a new element by the comparison function, hangs it in there as a
red leaf and lets `RB_INSERT_COLOR` repair the colours upward. Every loop is given a number of
rounds; with more of them than there are nodes on the path, the result is there.

The repair is followed by induction on the frames around the red node: a red parent has a black
grandparent, and either both are recoloured along with the uncle and the repair goes on there, or
one or two rotations end it.
-/

open LinkedTree RedBlack

namespace PreforkHttpd

namespace RbHead

variable {ι κ : Type} [DecidableEq ι]

/-! ### The code -/

/-- `RB_INSERT_COLOR`. The side `d` is that of the parent in the grandparent. -/
def insertColor : ℕ → ι → RbHead ι κ → Option (RbHead ι κ)
  | 0, _, _ => none
  | fuel + 1, elm, h => do
    let parent := (← h.nodes elm).parent
    if ← h.isRed parent then
      let parent ← parent
      let gparent ← (← h.nodes parent).parent
      let d := sideOf (← h.nodes gparent) (some parent)
      let tmp := (← h.nodes gparent).child d.other
      if ← h.isRed tmp then
        let h ← h.setColor .black (← tmp)
        let h ← h.setBlackRed parent gparent
        insertColor fuel gparent h
      else
        let (h, parent, elm) ←
          if (← h.nodes parent).child d.other = some elm then
            (h.rotate d.other parent).map fun h ↦ (h, elm, parent)
          else some (h, parent, elm)
        let h ← h.setBlackRed parent gparent
        let h ← h.rotate d gparent
        insertColor fuel elm h
    else h.setColor .black (← h.rbhRoot)

/-- The loop of `RB_INSERT`: the element that compares equal, or the last one and how `elm` compares
to it. -/
def insertLoop (cmp : κ → κ → ℤ) (elm : ι) (h : RbHead ι κ) :
    ℕ → Option ι → Option ι → ℤ → Option (ι ⊕ Option ι × ℤ)
  | 0, _, _, _ => none
  | _ + 1, none, parent, comp => some (.inr (parent, comp))
  | fuel + 1, some tmp, _, _ => do
    let n ← h.nodes tmp
    let comp := cmp (← h.nodes elm).data.key n.data.key
    if comp < 0 then insertLoop cmp elm h fuel n.left (some tmp) comp
    else if 0 < comp then insertLoop cmp elm h fuel n.right (some tmp) comp
    else some (.inl tmp)

/-- `RB_SET`. -/
def set (elm : ι) (parent : Option ι) (h : RbHead ι κ) : Option (RbHead ι κ) :=
  h.assign elm fun n ↦ ⟨none, none, parent, { n.data with color := .red }⟩

/-- `RB_INSERT` below its loop, up to the repair of the colours. -/
def attach (elm : ι) (parent : Option ι) (comp : ℤ) (h : RbHead ι κ) : Option (RbHead ι κ) :=
  (h.set elm parent).bind fun h ↦
    match parent with
    | some p => h.assign p (Node.setChild (if comp < 0 then .left else .right) (some elm))
    | none => some { h with rbhRoot := some elm }

/-- `RB_INSERT`: `NULL`, or the element that is there already. -/
def insert (cmp : κ → κ → ℤ) (fuel : ℕ) (elm : ι) (h : RbHead ι κ) :
    Option (Option ι × RbHead ι κ) := do
  match ← insertLoop cmp elm h fuel h.rbhRoot none 0 with
  | .inl tmp => some (some tmp, h)
  | .inr (parent, comp) =>
    let h ← h.attach elm parent comp
    let h ← insertColor fuel elm h
    some (none, h)

variable {h : RbHead ι κ} {t C S P : Colors ι κ} {a b c g : ι × Colored κ} {d : Side} {n fuel : ℕ}
  {fs : List (Frame ι (Colored κ))} {i : ι}

/-! ### The colours are repaired -/

/-- **The root is painted black** at the end. -/
theorem blacken_root {col : Color} (hh : h.Holds t) (ht : Balanced t col n) (hi : i ∈ addresses t) :
    ∃ h' t', (h.rbhRoot.bind fun r ↦ h.setColor .black r) = some h' ∧ Rebuilt h t h' t' ∧
      IsRedBlack t' := by
  cases t with
  | nil => cases hi
  | node c l r =>
    obtain ⟨h', hrun, hrebuilt⟩ := setColor_spec (d := .right) [] .black hh
    refine ⟨h', _, ?_, hrebuilt, ?_⟩
    · rw [hh.root_eq, root, Option.bind_some, hrun]
    · change Balanced (branch .right c l r) col n at ht
      obtain ⟨-, -, hl, hr⟩ | ⟨m, cl, cr, -, -, -, hl, hr⟩ := balanced_branch_cases ht
      · exact ⟨n + 1, .black_branch rfl hl hr⟩
      · exact ⟨m + 1, .black_branch rfl hl hr⟩

/-- **The repair ends** where the node above is not red. -/
theorem insertColor_of_not_red (fuel : ℕ) (fs : List (Frame ι (Colored κ)))
    (hh : h.Holds (plug fs t)) (hi : root t = some i)
    (habove : h.isRed (above fs) = some false) (ht : ∃ col n, Balanced (plug fs t) col n) :
    ∃ h' t', insertColor (fuel + 1) i h = some h' ∧ Rebuilt h (plug fs t) h' t' ∧
      IsRedBlack t' := by
  obtain ⟨col, n, ht⟩ := ht
  obtain ⟨h', t', hrun, hrebuilt, hrb⟩ := blacken_root hh ht
    (mem_addresses_plug.2 (Or.inr (mem_addresses_of_root hi)))
  refine ⟨h', t', ?_, hrebuilt, hrb⟩
  cases t with
  | nil => cases hi
  | node c l r =>
    obtain rfl : c.1 = i := Option.some.inj hi
    have hnode := hh.node (d := .right) fs
    simp only [insertColor, hnode, parent_mkNode, habove, Option.bind_eq_bind, Option.bind_some,
      Bool.false_eq_true, if_false]
    exact hrun

omit [DecidableEq ι] in
/-- Asking for the colour of the node above. -/
theorem isRed_above {f : Frame ι (Colored κ)} (hh : h.Holds (plug (f :: fs) t)) :
    h.isRed (above (f :: fs)) = some (decide (f.node.2.color = .red)) := by
  have hnode := hh.node fs
  rw [above, List.head?_cons, Option.map_some, isRed, hnode, Option.map_some, data_mkNode]

omit [DecidableEq ι] in
/-- Asking for the colour of the root of a subtree, or of no node. -/
theorem isRed_root {col : Color} (fs : List (Frame ι (Colored κ))) (hh : h.Holds (plug fs t))
    (ht : Balanced t col n) :
    h.isRed (root t) = some (decide (col = .red)) := by
  cases t with
  | nil =>
    cases ht
    rfl
  | node c l r =>
    have hnode := hh.node (d := .right) fs
    rw [root, isRed, hnode, Option.map_some, data_mkNode, Balanced.color_eq (d := .right) ht]

/-- **The rotation at the grandparent** ends the repair. -/
theorem insertColor_rotate (fuel : ℕ)
    (hh : h.Holds (plug fs (branch d g S (branch d c C P))))
    (hP : Balanced P .red n) (hi : root P = some i) (hS : Balanced S .black n)
    (hC : Balanced C .black n) (hfs : FramesBalanced fs .black (n + 1)) :
    ∃ h' t', ((h.setBlackRed c.1 g.1).bind fun h ↦ (h.rotate d g.1).bind fun h ↦
        insertColor (fuel + 1) i h) = some h' ∧
      Rebuilt h (plug fs (branch d g S (branch d c C P))) h' t' ∧ IsRedBlack t' := by
  obtain ⟨h₁, hrun₁, hrebuilt₁⟩ := setColor_spec (⟨d, g, S⟩ :: fs) .black hh
  obtain ⟨h₂, hrun₂, hrebuilt₂⟩ := setColor_spec (d := d) (c := g) fs .red hrebuilt₁.holds
  obtain ⟨h₃, hrun₃, hrebuilt₃⟩ := rotate_holds (d := d) (a := paint .red g) hrebuilt₂.holds
  have hbalanced := balanced_plug_iff.2 ⟨_, _, hfs,
    Balanced.black_branch (c := paint .black c) (d := d) rfl
      (Balanced.red_branch (c := paint .red g) (d := d) rfl hS hC) hP⟩
  obtain ⟨h', t', hrun, hrebuilt, hrb⟩ := insertColor_of_not_red fuel
    (⟨d, paint .black c, branch d (paint .red g) S C⟩ :: fs) hrebuilt₃.holds hi
    (isRed_above hrebuilt₃.holds) ⟨_, hbalanced⟩
  refine ⟨h', t', ?_, ((hrebuilt₁.trans hrebuilt₂).trans hrebuilt₃).trans hrebuilt, hrb⟩
  rw [paint_fst] at hrun₃
  rw [setBlackRed, hrun₁, Option.bind_some, hrun₂, Option.bind_some, hrun₃, Option.bind_some, hrun]

/-- **A round of the loop** below a red parent. -/
theorem insertColor_of_red (fuel : ℕ) {f k : Frame ι (Colored κ)} {col : Color}
    (hh : h.Holds (plug (f :: k :: fs) t)) (hi : root t = some i) (hf : f.node.2.color = .red)
    (hs : Balanced k.sibling col n) :
    insertColor (fuel + 1) i h = if col = .red then
        (root k.sibling).bind fun u ↦ (h.setColor .black u).bind fun h ↦
          (h.setBlackRed f.node.1 k.node.1).bind fun h ↦ insertColor fuel k.node.1 h
      else if f.side = k.side.other then
        (h.rotate k.side.other f.node.1).bind fun h ↦ (h.setBlackRed i k.node.1).bind fun h ↦
          (h.rotate k.side k.node.1).bind fun h ↦ insertColor fuel f.node.1 h
      else (h.setBlackRed f.node.1 k.node.1).bind fun h ↦
        (h.rotate k.side k.node.1).bind fun h ↦ insertColor fuel i h := by
  have hparent : h.nodes f.node.1 = some
      (mkNode f.side (root f.sibling) (some i) (some k.node.1) f.node.2) :=
    hi ▸ hh.node (k :: fs)
  have hgrand : h.nodes k.node.1 = some
      (mkNode k.side (root k.sibling) (some f.node.1) (above fs) k.node.2) := by
    have hnode := hh.node fs (B := branch f.side f.node f.sibling t)
    rwa [root_branch] at hnode
  have hside : sideOf (mkNode k.side (root k.sibling) (some f.node.1) (above fs) k.node.2)
      (some f.node.1) = k.side := sideOf_mkNode (root_sibling_ne fs hh root_branch)
  have hother : h.Holds (plug (⟨k.side.other, k.node, branch f.side f.node f.sibling t⟩ :: fs)
      k.sibling) := by
    rw [plug, branch_other]
    exact hh
  have hinner : (mkNode f.side (root f.sibling) (some i) (some k.node.1) f.node.2).child
      k.side.other = some i ↔ f.side = k.side.other := by
    have hne := root_sibling_ne _ hh hi
    cases f.side <;> cases k.side <;> simp [mkNode, Node.child, Side.other, hne]
  have hred := isRed_above hh
  rw [hf] at hred
  have huncle := isRed_root _ hother hs
  have habove : above (f :: k :: fs) = some f.node.1 := rfl
  cases t with
  | nil => cases hi
  | node c l r =>
    obtain rfl : c.1 = i := Option.some.inj hi
    have hnode := hh.node (d := .right) (f :: k :: fs)
    rw [habove] at hnode hred
    simp only [insertColor, hnode, parent_mkNode, hred, Option.bind_eq_bind, Option.bind_some,
      if_true, hparent, hgrand, hside, child_other_mkNode, huncle, decide_true, decide_eq_true_eq,
      hinner]
    congr 1
    split
    · rw [Option.map_eq_bind, Option.bind_assoc]
      rfl
    · rfl

/-- **Recolouring** below a black grandparent. -/
theorem recolor_spec {f k : Frame ι (Colored κ)} {e : Side} {u : ι × Colored κ} {U V : Colors ι κ}
    (hh : h.Holds (plug (f :: k :: fs) t)) (hu : k.sibling = branch e u U V) :
    ∃ h', ((h.setColor .black u.1).bind (setBlackRed f.node.1 k.node.1)) = some h' ∧
      Rebuilt h (plug (f :: k :: fs) t) h' (plug fs (branch k.side (paint .red k.node)
        (branch e (paint .black u) U V) (branch f.side (paint .black f.node) f.sibling t))) := by
  have hother : plug (f :: k :: fs) t =
      plug (⟨k.side.other, k.node, branch f.side f.node f.sibling t⟩ :: fs) (branch e u U V) := by
    rw [plug, plug, plug, branch_other, hu]
  rw [hother] at hh ⊢
  obtain ⟨h₁, hrun₁, hrebuilt₁⟩ := setColor_spec _ .black hh
  have hflip : plug (⟨k.side.other, k.node, branch f.side f.node f.sibling t⟩ :: fs)
        (branch e (paint .black u) U V) =
      plug (⟨k.side, k.node, branch e (paint .black u) U V⟩ :: fs)
        (branch f.side f.node f.sibling t) := by
    rw [plug, plug, branch_other]
  rw [hflip] at hrebuilt₁
  obtain ⟨h₂, hrun₂, hrebuilt₂⟩ := setColor_spec _ .black hrebuilt₁.holds
  obtain ⟨h₃, hrun₃, hrebuilt₃⟩ := setColor_spec (c := k.node) (d := k.side) fs .red hrebuilt₂.holds
  refine ⟨h₃, ?_, (hrebuilt₁.trans hrebuilt₂).trans hrebuilt₃⟩
  rw [hrun₁, Option.bind_some, setBlackRed, hrun₂, Option.bind_some, hrun₃]

/-- **`RB_INSERT_COLOR` makes a red-black tree** of one that has a red node with black children
where a black node would fit. -/
theorem insertColor_spec (hh : h.Holds (plug fs t)) (hi : root t = some i) (ht : Balanced t .red n)
    (hfs : FramesBalanced fs .black n) (hfuel : fs.length < fuel) :
    ∃ h' t', insertColor fuel i h = some h' ∧ Rebuilt h (plug fs t) h' t' ∧ IsRedBlack t' := by
  induction fuel generalizing h fs t i n with
  | zero => cases hfuel
  | succ fuel ih =>
    match fs, hfs with
    | [], _ => exact insertColor_of_not_red fuel [] hh hi rfl ⟨_, _, ht⟩
    | f :: fs, Or.inr ⟨hf, hs, hfs⟩ =>
      have habove := isRed_above hh
      rw [hf] at habove
      exact insertColor_of_not_red fuel (f :: fs) hh hi habove
        ⟨.black, balanced_plug_iff.2 ⟨_, _, Or.inr ⟨hf, hs, hfs⟩, ht⟩⟩
    | f :: fs, Or.inl ⟨hf, _, hs, hfs⟩ =>
      obtain ⟨k, gs, col, rfl, -, hsibling, hgs⟩ := hfs.exists_of_red
      have hstep := insertColor_of_red fuel hh hi hf hsibling
      rw [List.length_cons, List.length_cons] at hfuel
      cases col with
      | red =>
        obtain ⟨u, U, V, hu, -, -, -⟩ := hsibling.exists_of_red .right
        obtain ⟨h₁, hrun₁, hrebuilt₁⟩ := recolor_spec hh hu
        rw [hu] at hsibling
        obtain ⟨h', t', hrun, hrebuilt, hrb⟩ := ih hrebuilt₁.holds root_branch
          (.red_branch rfl hsibling.paint_red (.black_branch rfl hs ht)) hgs (by omega)
        refine ⟨h', t', ?_, hrebuilt₁.trans hrebuilt, hrb⟩
        rw [hstep, if_pos rfl, hu, root_branch, Option.bind_some, ← Option.bind_assoc, hrun₁]
        exact hrun
      | black =>
        obtain ⟨fuel, rfl⟩ : ∃ m, fuel = m + 1 := ⟨fuel - 1, by omega⟩
        rw [if_neg nofun] at hstep
        obtain ⟨e, p, S⟩ := f
        obtain ⟨d, g, U⟩ := k
        obtain rfl | rfl : e = d.other ∨ e = d := by
          cases e <;> cases d <;> decide
        · obtain ⟨c, A, B, rfl, -, hA, hB⟩ := ht.exists_of_red d.other
          obtain rfl : c.1 = i := Option.some.inj (root_branch.symm.trans hi)
          have hinner : h.Holds
            (plug (⟨d, g, U⟩ :: gs) (branch d.other p S (branch d.other c A B))) := hh
          obtain ⟨h₁, hrun₁, hrebuilt₁⟩ := rotate_holds hinner
          have hflip : plug (⟨d, g, U⟩ :: gs) (branch d.other c (branch d.other p S A) B) =
              plug gs (branch d g U (branch d c B (branch d.other p S A))) := by
            rw [plug, branch_other d c]
          rw [hflip] at hrebuilt₁
          obtain ⟨h', t', hrun, hrebuilt, hrb⟩ := insertColor_rotate fuel hrebuilt₁.holds
            (.red_branch hf hs hA) root_branch hsibling hB hgs
          refine ⟨h', t', ?_, hrebuilt₁.trans hrebuilt, hrb⟩
          rw [hstep, if_pos rfl, hrun₁]
          exact hrun
        · have hne : e ≠ e.other := by
            cases e <;> decide
          obtain ⟨h', t', hrun, hrebuilt, hrb⟩ := insertColor_rotate fuel hh ht hi
            hsibling hs hgs
          exact ⟨h', t', by rw [hstep, if_neg hne]; exact hrun, hrebuilt, hrb⟩

/-! ### The new leaf -/

/-- The comparison with the last element tells on which side of it the place is. -/
def Points (comp : ℤ) : List (Frame ι (Colored κ)) → Prop
  | [] => True
  | f :: _ => (if comp < 0 then Side.left else Side.right) = f.side

variable {elm : ι} {node : Node ι (Colored κ)} {comp : ℤ}

/-- **A red leaf is hung in.** -/
theorem attach_spec (hh : h.Holds (plug fs .nil)) (helm : h.nodes elm = some node)
    (hnew : elm ∉ addresses (plug fs .nil)) (hcomp : Points comp fs) :
    ∃ h', h.attach elm (above fs) comp = some h' ∧
      h'.Holds (plug fs (.node (elm, ⟨.red, node.data.key⟩) .nil .nil)) ∧
      ∀ i ≠ elm, i ∉ addresses (plug fs .nil) → h'.nodes i = h.nodes i := by
  obtain ⟨hframes, -⟩ := stored_plug.1 hh.stored
  have hfs : elm ∉ frameAddresses fs := fun hmem ↦ hnew (mem_addresses_plug.2 (Or.inl hmem))
  have hnodup : (addresses (plug fs (.node (elm, (⟨.red, node.data.key⟩ : Colored κ)) .nil
      .nil))).Nodup := nodup_plug.2 ⟨(nodup_plug.1 hh.nodup).1, List.nodup_singleton _,
    fun i hi hmem ↦ hfs (by rwa [List.mem_singleton.1 hmem] at hi)⟩
  have hset : h.set elm (above fs) = some { h with nodes := modify h.nodes elm fun n ↦
    ⟨none, none, above fs, { n.data with color := .red }⟩ } := assign_of_some helm
  have hleaf := modify_eq_some helm fun n ↦
    (⟨none, none, above fs, { n.data with color := .red }⟩ : Node ι (Colored κ))
  cases fs with
  | nil =>
    refine ⟨_, by rw [attach, hset]; rfl, ⟨rfl, ⟨hleaf, trivial, trivial⟩, hnodup⟩,
      fun i hi _ ↦ modify_of_ne hi⟩
  | cons f fs =>
    have hne : f.node.1 ≠ elm := fun heq ↦ hfs (mem_frameAddresses_cons.2 (Or.inl heq.symm))
    have hlink := assign_of_some (h := { h with nodes := modify h.nodes elm fun n ↦
      ⟨none, none, above (f :: fs), { n.data with color := .red }⟩ })
      (g := Node.setChild f.side (some elm)) ((modify_of_ne hne).trans hframes.1)
    refine ⟨_, Eq.trans ?_ hlink, ⟨hh.root_eq.trans (root_plug_cons _ _),
      stored_plug.2 ⟨?_, ?_, trivial, trivial⟩, hnodup⟩, fun i hi hmem ↦ ?_⟩
    · rw [attach, hset, Option.bind_some, ← hcomp]
      rfl
    · exact (hframes.modify_of_notMem hfs _).setChild (nodup_plug.1 hh.nodup).1 _
    · exact (modify_of_ne hne.symm).trans hleaf
    · refine (modify_of_ne fun heq ↦ hmem ?_).trans (modify_of_ne hi)
      exact mem_addresses_plug.2 (Or.inl (mem_frameAddresses_cons.2 (Or.inl heq)))

/-! ### The search -/

section Search

variable [LinearOrder κ] {cmp : κ → κ → ℤ}

/-- The comparison function orders the keys. -/
structure Compares (cmp : κ → κ → ℤ) : Prop where
  neg_iff : ∀ a b, cmp a b < 0 ↔ a < b
  pos_iff : ∀ a b, 0 < cmp a b ↔ b < a

omit [DecidableEq ι] in
/-- **The loop of `RB_INSERT`** goes where the search for the key does. -/
theorem insertLoop_spec (fs : List (Frame ι (Colored κ))) (comp : ℤ) (hcmp : Compares cmp)
    {p : Option ι} (ht : Stored h.nodes p t) (helm : h.nodes elm = some node)
    (hfuel : height t < fuel) (hcomp : Points comp fs) :
    (∃ c l r, (seek Colored.key node.data.key t fs).2 = .node c l r ∧
      insertLoop cmp elm h fuel (root t) (above fs) comp = some (.inl c.1)) ∨
    (seek Colored.key node.data.key t fs).2 = .nil ∧
      ∃ comp', Points comp' (seek Colored.key node.data.key t fs).1 ∧
        insertLoop cmp elm h fuel (root t) (above fs) comp =
          some (.inr (above (seek Colored.key node.data.key t fs).1, comp')) := by
  induction t generalizing fs comp p fuel with
  | nil =>
    obtain ⟨fuel, rfl⟩ : ∃ m, fuel = m + 1 := ⟨fuel - 1, by omega⟩
    exact Or.inr ⟨rfl, comp, hcomp, rfl⟩
  | node c l r ihl ihr =>
    obtain ⟨fuel, rfl⟩ : ∃ m, fuel = m + 1 := ⟨fuel - 1, by omega⟩
    rw [height] at hfuel
    have hstep : insertLoop cmp elm h (fuel + 1) (some c.1) (above fs) comp =
        if node.data.key < c.2.key then
          insertLoop cmp elm h fuel (root l) (some c.1) (cmp node.data.key c.2.key)
        else if c.2.key < node.data.key then
          insertLoop cmp elm h fuel (root r) (some c.1) (cmp node.data.key c.2.key)
        else some (.inl c.1) := by
      simp only [insertLoop, ht.1, helm, Option.bind_eq_bind, Option.bind_some, hcmp.neg_iff,
        hcmp.pos_iff, mkNode]
    rw [root, hstep, seek]
    split
    · exact ihl _ _ ht.2.1 (by omega) (if_pos ((hcmp.neg_iff _ _).2 ‹_›))
    · split
      · exact ihr _ _ ht.2.2 (by omega) (if_neg fun hlt ↦ ‹¬ _› ((hcmp.neg_iff _ _).1 hlt))
      · exact Or.inl ⟨c, l, r, rfl, rfl⟩

omit [DecidableEq ι] in
/-- The order of a tree is that of its entries. -/
theorem ordered_iff_entries :
    Ordered Colored.key t ↔ (entries t).Pairwise fun a b ↦ a.2 < b.2 := by
  rw [entries, List.pairwise_map, Ordered]

/-- The head holds a red-black search tree with these entries. -/
def Represents (h : RbHead ι κ) (es : List (ι × κ)) : Prop :=
  ∃ t, h.Holds t ∧ IsRedBlack t ∧ Ordered Colored.key t ∧ entries t = es

/-- **`RB_INSERT`** returns the element with the same key, or puts the new one where it belongs and
restores the colouring conditions. -/
theorem insert_spec (hcmp : Compares cmp) {es : List (ι × κ)} (hes : h.Represents es)
    (helm : h.nodes elm = some node) (hnew : elm ∉ es.map Prod.fst) (hfuel : es.length < fuel) :
    (∃ i, (i, node.data.key) ∈ es ∧ insert cmp fuel elm h = some (some i, h)) ∨
    ∃ h' l r, es = l ++ r ∧ (∀ e ∈ l, e.2 < node.data.key) ∧ (∀ e ∈ r, node.data.key < e.2) ∧
      insert cmp fuel elm h = some (none, h') ∧
      h'.Represents (l ++ (elm, node.data.key) :: r) ∧
      ∀ i ≠ elm, i ∉ es.map Prod.fst → h'.nodes i = h.nodes i := by
  obtain ⟨t, hh, hrb, hordered, rfl⟩ := hes
  have hlength : (entries t).length = (inorder t).length := List.length_map _
  have hheight : height t < fuel := (height_le_length t).trans_lt (hlength ▸ hfuel)
  have hdepth := (length_seek_le Colored.key node.data.key t []).trans_lt
    ((Nat.zero_add _).trans_lt hheight)
  have hplug : plug _ (seek Colored.key node.data.key t []).2 = t := plug_seek _ _ _ []
  have hbetween : Between Colored.key node.data.key (seek Colored.key node.data.key t []).1 :=
    between_seek ⟨nofun, nofun⟩ hordered
  obtain ⟨c, l, r, hseek, hloop⟩ | ⟨hseek, comp, hcomp, hloop⟩ :=
    insertLoop_spec [] 0 hcmp hh.stored helm hheight trivial
  · -- the search has ended at a node with this key
    rw [hseek] at hplug
    refine Or.inl ⟨c.1, List.mem_map.2 ⟨c, ?_, by rw [key_eq_of_seek hseek]⟩, ?_⟩
    · rw [← hplug, inorder_plug]
      simp [inorder]
    · rw [insert, hh.root_eq]
      exact congrArg (Option.bind · _) hloop
  · generalize (seek Colored.key node.data.key t []).1 = fs at hplug hdepth hbetween hcomp hloop
    obtain rfl : plug fs .nil = t := hseek ▸ hplug
    rw [← addresses_eq_map_entries] at hnew ⊢
    obtain ⟨h₁, hattach, hh₁, hkeep⟩ := attach_spec hh helm hnew hcomp
    obtain ⟨col, n, hfs, hnil⟩ := balanced_plug_iff.1 hrb
    cases hnil
    obtain ⟨h₂, t', hrun, hrebuilt, hrb'⟩ :=
      insertColor_spec hh₁ rfl (.red rfl .nil .nil) hfs hdepth
    have hentries : entries (plug fs .nil) = (before fs).map (fun c ↦ (c.1, c.2.key)) ++
        (after fs).map (fun c ↦ (c.1, c.2.key)) := by
      simp [entries, inorder_plug, inorder]
    have hentries' : entries t' = (before fs).map (fun c ↦ (c.1, c.2.key)) ++
        (elm, node.data.key) :: (after fs).map (fun c ↦ (c.1, c.2.key)) := by
      rw [hrebuilt.entries_eq]
      simp [entries, inorder_plug, inorder]
    refine Or.inr ⟨h₂, _, _, hentries, ?_, ?_, ?_, ⟨t', hrebuilt.holds, hrb', ?_, hentries'⟩, ?_⟩
    · rintro e he
      obtain ⟨c, hc, rfl⟩ := List.mem_map.1 he
      exact hbetween.1 c hc
    · rintro e he
      obtain ⟨c, hc, rfl⟩ := List.mem_map.1 he
      exact hbetween.2 c hc
    · rw [insert, hh.root_eq]
      refine (congrArg (Option.bind · _) hloop).trans ?_
      simp only [Option.bind_eq_bind, Option.bind_some, hattach, hrun]
    · rw [ordered_iff_entries, hrebuilt.entries_eq, ← ordered_iff_entries]
      exact hordered.plug_leaf hbetween
    · intro i hi hmem
      refine (hrebuilt.outside i fun hmem' ↦ ?_).trans (hkeep i hi hmem)
      obtain hfs | helm := mem_addresses_plug.1 hmem'
      · exact hmem (mem_addresses_plug.2 (Or.inl hfs))
      · exact hi (List.mem_singleton.1 helm)

end Search

end RbHead

end PreforkHttpd
