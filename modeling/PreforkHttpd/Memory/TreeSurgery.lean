import PreforkHttpd.Memory.BinaryTree

/-!
# Surgery on binary trees in memory

Where the parent fields of a tree are maintained along with its child fields, every node of a tree
that is held in memory is known completely. `Stored mem p t` says what each is, `p` being the parent
of the root, and `FramesStored` says it of the frames around a subtree; a tree made of both is
stored when both are (`stored_plug`).

What code does to such a tree it does to a subtree. It changes the subtree itself, tells the node
above of the new root, and leaves the frames alone otherwise: `FramesStored.setChild` is the one
assignment that concerns them, `Stored.setParent` the one that hangs a subtree under another node,
and `Intact` is the tree as a whole, known by the address of its root.
-/

namespace LinkedTree

variable {ι α : Type*}

/-! ### Complete nodes -/

/-- The node whose child on side `d` is `outer`. -/
def mkNode (d : Side) (inner outer parent : Option ι) (a : α) : Node ι α :=
  match d with
  | .left => ⟨outer, inner, parent, a⟩
  | .right => ⟨inner, outer, parent, a⟩

section MkNode

variable (d : Side) (inner outer parent p : Option ι) (a : α)

@[simp] theorem child_mkNode : (mkNode d inner outer parent a).child d = outer := by
  cases d <;> rfl

@[simp] theorem child_other_mkNode : (mkNode d inner outer parent a).child d.other = inner := by
  cases d <;> rfl

@[simp] theorem child_mkNode_other : (mkNode d.other inner outer parent a).child d = inner := by
  cases d <;> rfl

@[simp] theorem parent_mkNode : (mkNode d inner outer parent a).parent = parent := by
  cases d <;> rfl

@[simp] theorem data_mkNode : (mkNode d inner outer parent a).data = a := by
  cases d <;> rfl

@[simp] theorem setChild_mkNode :
    (mkNode d inner outer parent a).setChild d p = mkNode d inner p parent a := by
  cases d <;> rfl

@[simp] theorem setChild_other_mkNode :
    (mkNode d inner outer parent a).setChild d.other p = mkNode d p outer parent a := by
  cases d <;> rfl

@[simp] theorem setParent_mkNode :
    (mkNode d inner outer parent a).setParent p = mkNode d inner outer p a := by
  cases d <;> rfl

end MkNode

@[simp] theorem Side.other_other (d : Side) : d.other.other = d := by
  cases d <;> rfl

/-- A subtree seen from the other side. -/
theorem branch_other (d : Side) (c : ι × α) (A B : BinaryTree (ι × α)) :
    branch d.other c A B = branch d c B A := by
  cases d <;> rfl

/-! ### Stored trees -/

/-- Each node of the tree is in memory, with its children, its parent and its data; the parent of
the root is `p`. -/
def Stored (mem : Memory ι α) : Option ι → BinaryTree (ι × α) → Prop
  | _, .nil => True
  | p, .node c l r =>
    mem c.1 = some (mkNode .right (root l) (root r) p c.2) ∧ Stored mem (some c.1) l ∧
      Stored mem (some c.1) r

/-- Each node of the frames is in memory, and so are the siblings; `q` is the root of what is
inside. -/
def FramesStored (mem : Memory ι α) : List (Frame ι α) → Option ι → Prop
  | [], _ => True
  | f :: fs, q => mem f.node.1 = some (mkNode f.side (root f.sibling) q (above fs) f.node.2) ∧
    Stored mem (some f.node.1) f.sibling ∧ FramesStored mem fs (some f.node.1)

variable {mem mem' : Memory ι α} {d : Side} {i j : ι} {t s A B : BinaryTree (ι × α)} {c : ι × α}
  {p q : Option ι} {f : Frame ι α} {fs gs : List (Frame ι α)}

theorem stored_branch : Stored mem p (branch d c A B) ↔
    mem c.1 = some (mkNode d (root A) (root B) p c.2) ∧ Stored mem (some c.1) A ∧
      Stored mem (some c.1) B := by
  cases d with
  | right => exact Iff.rfl
  | left => exact and_congr_right' and_comm

/-- **A stored tree is a matter of its own nodes.** -/
theorem Stored.congr (h : Stored mem p t) (hmem : ∀ i ∈ addresses t, mem' i = mem i) :
    Stored mem' p t := by
  induction t generalizing p with
  | nil => trivial
  | node c l r ihl ihr =>
    simp only [addresses, inorder, List.map_append, List.map_cons, List.mem_append,
      List.mem_cons] at hmem
    exact ⟨(hmem c.1 (Or.inr (Or.inl rfl))).trans h.1, ihl h.2.1 fun i hi ↦ hmem i (Or.inl hi),
      ihr h.2.2 fun i hi ↦ hmem i (Or.inr (Or.inr hi))⟩

theorem FramesStored.congr (h : FramesStored mem fs q)
    (hmem : ∀ i ∈ frameAddresses fs, mem' i = mem i) : FramesStored mem' fs q := by
  induction fs generalizing q with
  | nil => trivial
  | cons f fs ih =>
    simp only [frameAddresses, List.flatMap_cons, List.mem_append, List.mem_cons] at hmem
    exact ⟨(hmem _ (Or.inl (Or.inl rfl))).trans h.1,
      h.2.1.congr fun i hi ↦ hmem i (Or.inl (Or.inr hi)), ih h.2.2 fun i hi ↦ hmem i (Or.inr hi)⟩

/-- **Stored trees split** along the frames. -/
theorem stored_plug : Stored mem none (plug fs t) ↔
    FramesStored mem fs (root t) ∧ Stored mem (above fs) t := by
  induction fs generalizing t with
  | nil => exact (and_iff_right trivial).symm
  | cons f fs ih =>
    rw [plug, ih, stored_branch, root_branch, FramesStored]
    simp only [above, List.head?_cons, Option.map_some]
    tauto

section Assignments

variable [DecidableEq ι]

theorem Stored.modify_of_notMem (h : Stored mem p t) (hi : i ∉ addresses t)
    (g : Node ι α → Node ι α) : Stored (modify mem i g) p t :=
  h.congr fun _ hj ↦ modify_of_ne (ne_of_mem_of_not_mem hj hi)

theorem FramesStored.modify_of_notMem (h : FramesStored mem fs q) (hi : i ∉ frameAddresses fs)
    (g : Node ι α → Node ι α) : FramesStored (modify mem i g) fs q :=
  h.congr fun _ hj ↦ modify_of_ne (ne_of_mem_of_not_mem hj hi)

/-- The node at an address after a change of it. -/
theorem modify_eq_some {n : Node ι α} (h : mem i = some n) (g : Node ι α → Node ι α) :
    modify mem i g i = some (g n) := by
  rw [modify_self, h, Option.map_some]

/-- Hang a tree, if it is not empty, under another node. -/
def adopt (mem : Memory ι α) (q p : Option ι) : Memory ι α :=
  q.elim mem fun b ↦ modify mem b (Node.setParent p)

theorem adopt_of_ne (h : q ≠ some i) : adopt mem q p i = mem i := by
  cases q with
  | none => rfl
  | some b => exact modify_of_ne fun heq ↦ h (congrArg some heq.symm)

/-- **A subtree under another node** is stored there. -/
theorem Stored.adopt (h : Stored mem p t) (hnodup : (addresses t).Nodup) (p' : Option ι) :
    Stored (adopt mem (root t) p') p' t := by
  cases t with
  | nil => trivial
  | node c l r =>
    simp only [addresses, inorder, List.map_append, List.map_cons] at hnodup
    obtain ⟨hc, -⟩ := List.nodup_cons.1 (List.nodup_middle.1 hnodup)
    rw [List.mem_append, not_or] at hc
    refine ⟨?_, h.2.1.modify_of_notMem hc.1 _, h.2.2.modify_of_notMem hc.2 _⟩
    rw [LinkedTree.adopt, root, Option.elim_some, modify_eq_some h.1, setParent_mkNode]

/-- Hanging another tree somewhere else leaves a tree alone. -/
theorem Stored.adopt_other (h : Stored mem p t) (hs : ∀ i ∈ addresses s, i ∉ addresses t)
    (p' : Option ι) : Stored (LinkedTree.adopt mem (root s) p') p t :=
  h.congr fun _ hi ↦ adopt_of_ne fun heq ↦ hs _ (mem_addresses_of_root heq) hi

theorem FramesStored.adopt_other (h : FramesStored mem fs q)
    (hs : ∀ i ∈ addresses s, i ∉ frameAddresses fs) (p' : Option ι) :
    FramesStored (adopt mem (root s) p') fs q :=
  h.congr fun _ hi ↦ adopt_of_ne fun heq ↦ hs _ (mem_addresses_of_root heq) hi

/-- **The node above is told** of another root. -/
theorem FramesStored.setChild (h : FramesStored mem (f :: fs) q)
    (hnodup : (frameAddresses (f :: fs)).Nodup) (q' : Option ι) :
    FramesStored (modify mem f.node.1 (Node.setChild f.side q')) (f :: fs) q' := by
  rw [frameAddresses, List.flatMap_cons, List.cons_append, List.nodup_cons, List.mem_append,
    not_or] at hnodup
  obtain ⟨⟨hsibling, hfs⟩, -⟩ := hnodup
  refine ⟨?_, h.2.1.modify_of_notMem hsibling _, h.2.2.modify_of_notMem hfs _⟩
  rw [modify_eq_some h.1, setChild_mkNode]

end Assignments

/-- Above a subtree the root is a node of the frames. -/
theorem exists_root_plug (f : Frame ι α) (fs : List (Frame ι α)) (t : BinaryTree (ι × α)) :
    ∃ i ∈ frameAddresses (f :: fs), root (plug (f :: fs) t) = some i := by
  induction fs generalizing f t with
  | nil => exact ⟨f.node.1, List.mem_cons_self, root_branch⟩
  | cons g fs ih =>
    obtain ⟨i, hi, hroot⟩ := ih g (branch f.side f.node f.sibling t)
    exact ⟨i, List.mem_append_right (f.node.1 :: addresses f.sibling) hi, hroot⟩

/-- A node has a leftmost node below it. -/
theorem exists_head_inorder (c : ι × α) (l r : BinaryTree (ι × α)) :
    ∃ e, (inorder (.node c l r)).head? = some e := by
  rw [inorder, List.head?_append]
  cases (inorder l).head? <;> exact ⟨_, rfl⟩

/-! ### What is on either side -/

/-- The nodes to the left of a subtree. -/
def before : List (Frame ι α) → List (ι × α)
  | [] => []
  | f :: fs => before fs ++
    match f.side with
    | .left => []
    | .right => inorder f.sibling ++ [f.node]

/-- The nodes to the right of a subtree. -/
def after : List (Frame ι α) → List (ι × α)
  | [] => []
  | f :: fs =>
    (match f.side with
    | .left => f.node :: inorder f.sibling
    | .right => []) ++ after fs

theorem before_append (fs gs : List (Frame ι α)) : before (fs ++ gs) = before gs ++ before fs := by
  induction fs with
  | nil => exact (List.append_nil _).symm
  | cons f fs ih => rw [List.cons_append, before, before, ih, List.append_assoc]

theorem after_append (fs gs : List (Frame ι α)) : after (fs ++ gs) = after fs ++ after gs := by
  induction fs with
  | nil => rfl
  | cons f fs ih => rw [List.cons_append, after, after, ih, List.append_assoc]

/-- **The nodes of the whole**, from left to right. -/
theorem inorder_plug (fs : List (Frame ι α)) (t : BinaryTree (ι × α)) :
    inorder (plug fs t) = before fs ++ inorder t ++ after fs := by
  induction fs generalizing t with
  | nil => exact (List.append_nil _).symm
  | cons f fs ih =>
    rw [plug, ih, before, after]
    cases f.side <;> simp [branch, inorder]

/-- Each frame has a node. -/
theorem length_plug (fs : List (Frame ι α)) (t : BinaryTree (ι × α)) :
    fs.length + (inorder t).length ≤ (inorder (plug fs t)).length := by
  induction fs generalizing t with
  | nil => exact Nat.le_of_eq (Nat.zero_add _)
  | cons f fs ih =>
    refine Nat.le_trans ?_ (ih _)
    cases hf : f.side <;>
      simp only [branch, inorder, List.length_append, List.length_cons] <;> omega

/-- **A place in the order** is a place in the tree. -/
theorem exists_plug_of_inorder_eq {xs ys : List (ι × α)} (h : inorder t = xs ++ c :: ys) :
    ∃ fs l r, t = plug fs (.node c l r) ∧ xs = before fs ++ inorder l ∧
      ys = inorder r ++ after fs := by
  induction t generalizing xs ys with
  | nil => exact absurd h (by simp [inorder])
  | node b l r ihl ihr =>
    have hroot : b = c → xs = inorder l → ys = inorder r → ∃ fs l' r', BinaryTree.node b l r =
        plug fs (.node c l' r') ∧ xs = before fs ++ inorder l' ∧ ys = inorder r' ++ after fs := by
      rintro rfl rfl rfl
      exact ⟨[], l, r, rfl, rfl, (List.append_nil _).symm⟩
    obtain ⟨as, hxs, hys⟩ | ⟨as, hxs, hys⟩ := List.append_eq_append_iff.1 h
    · obtain _ | ⟨a, as⟩ := as
      · obtain ⟨hb, hr⟩ := List.cons.inj hys
        exact hroot hb (hxs.trans (List.append_nil _)) hr.symm
      · obtain ⟨rfl, hr⟩ := List.cons.inj hys
        obtain ⟨fs, l', r', rfl, rfl, rfl⟩ := ihr hr
        refine ⟨fs ++ [⟨.right, b, l⟩], l', r', by rw [plug_append]; rfl, ?_, ?_⟩
        · simp [before_append, before, hxs]
        · simp [after_append, after]
    · obtain _ | ⟨a, as⟩ := as
      · obtain ⟨hb, hr⟩ := List.cons.inj hys
        exact hroot hb.symm ((List.append_nil _).symm.trans hxs.symm) hr
      · obtain ⟨rfl, hr⟩ := List.cons.inj hys
        obtain ⟨fs, l', r', rfl, rfl, rfl⟩ := ihl hxs
        refine ⟨fs ++ [⟨.left, b, r⟩], l', r', by rw [plug_append]; rfl, ?_, ?_⟩
        · simp [before_append, before]
        · simp [after_append, after, hr]

/-- **The first node** of a subtree has no left child, and nothing to the left of it. -/
theorem exists_plug_of_head (h : t ≠ .nil) :
    ∃ fs c r, t = plug fs (.node c .nil r) ∧ before fs = [] ∧
      inorder t = c :: (inorder r ++ after fs) ∧ (inorder t).head? = some c := by
  cases t with
  | nil => exact absurd rfl h
  | node b l r =>
    obtain ⟨c, hc⟩ := exists_head_inorder b l r
    obtain ⟨ys, hys⟩ := List.head?_eq_some_iff.1 hc
    have hsplit : inorder (.node b l r) = [] ++ c :: ys := hys
    obtain ⟨fs, l', r', hplug, hxs, rfl⟩ := exists_plug_of_inorder_eq hsplit
    obtain ⟨hbefore, hl⟩ := List.append_eq_nil_iff.1 hxs.symm
    obtain rfl : l' = .nil := by
      cases l' with
      | nil => rfl
      | node => exact absurd hl (by simp [inorder])
    exact ⟨fs, c, r', hplug, hbefore, hys, hc⟩

/-- The number of nodes on the longest path. -/
def height : BinaryTree (ι × α) → ℕ
  | .nil => 0
  | .node _ l r => max (height l) (height r) + 1

theorem height_le_length (t : BinaryTree (ι × α)) : height t ≤ (inorder t).length := by
  induction t with
  | nil => exact Nat.le_refl 0
  | node c l r ihl ihr =>
    rw [height, inorder, List.length_append, List.length_cons]
    omega

/-! ### Intact trees -/

/-- The memory holds a tree, known by the address `p`, all of whose fields are right. -/
structure Intact (mem : Memory ι α) (p : Option ι) (t : BinaryTree (ι × α)) : Prop where
  root_eq : p = root t
  stored : Stored mem none t
  nodup : (addresses t).Nodup

/-- The addresses of frames and subtree, where no node is also another. -/
theorem nodup_plug : (addresses (plug fs t)).Nodup ↔
    (frameAddresses fs).Nodup ∧ (addresses t).Nodup ∧
      ∀ i ∈ frameAddresses fs, i ∉ addresses t := by
  rw [addresses_plug_perm.nodup_iff, List.nodup_append]
  refine and_congr_right' (and_congr_right' ⟨fun h i hi hmem ↦ h i hi i hmem rfl, ?_⟩)
  rintro h i hi j hj rfl
  exact h i hi hj

theorem nodup_branch : (addresses (branch d c A B)).Nodup ↔
    c.1 ∉ addresses A ∧ c.1 ∉ addresses B ∧ (addresses A).Nodup ∧ (addresses B).Nodup ∧
      ∀ i ∈ addresses A, i ∉ addresses B := by
  rw [addresses_branch_perm.nodup_iff, List.nodup_cons, List.mem_append, not_or, List.nodup_append,
    and_assoc]
  refine and_congr_right' (and_congr_right' (and_congr_right' (and_congr_right' ?_)))
  refine ⟨fun h i hi hmem ↦ h i hi i hmem rfl, ?_⟩
  rintro h i hi j hj rfl
  exact h i hi hj

theorem mem_addresses_branch : i ∈ addresses (branch d c A B) ↔
    i = c.1 ∨ i ∈ addresses A ∨ i ∈ addresses B := by
  rw [addresses_branch_perm.mem_iff, List.mem_cons, List.mem_append]

theorem mem_addresses_node {l r : BinaryTree (ι × α)} : i ∈ addresses (.node c l r) ↔
    i = c.1 ∨ i ∈ addresses l ∨ i ∈ addresses r := mem_addresses_branch (d := .right)

theorem mem_frameAddresses_cons : i ∈ frameAddresses (f :: fs) ↔
    i = f.node.1 ∨ i ∈ addresses f.sibling ∨ i ∈ frameAddresses fs := by
  rw [frameAddresses, List.flatMap_cons, List.mem_append, List.mem_cons, or_assoc]
  rfl

theorem mem_addresses_plug : i ∈ addresses (plug fs t) ↔
    i ∈ frameAddresses fs ∨ i ∈ addresses t := by
  rw [addresses_plug_perm.mem_iff, List.mem_append]

/-- **What an access to a node reads.** -/
theorem Intact.node (fs : List (Frame ι α)) (h : Intact mem p (plug fs (branch d c A B))) :
    mem c.1 = some (mkNode d (root A) (root B) (above fs) c.2) :=
  (stored_branch.1 (stored_plug.1 h.stored).2).1

end LinkedTree
