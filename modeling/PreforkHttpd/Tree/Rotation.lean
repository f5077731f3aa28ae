import Mathlib.Data.Int.Notation
import PreforkHttpd.Memory.BinaryTree

/-!
# The rotations of the red-black tree

`rotate_left` and `rotate_right` of `rb_tree.c` turn a node and one of its children about: the child
comes up to the place of the node, the node goes down on the other side of it, and the inner subtree
of the child passes to the node. Each is the mirror image of the other, so both are `rotate`, which
is given the side of the child that comes up.

`rotate_spec` says what a call does to the memory. The child fields come out as they should, for a
node anywhere in a tree of any shape; `rotations_rebuild` says so of the two functions. The parent
field of the node that goes down is the one field that no assignment mentions.
-/

open LinkedTree

namespace PreforkHttpd

variable {ι : Type} [DecidableEq ι]

/-! ### The code -/

/-- What `rb_node_t` holds besides its links. -/
structure RbData where
  color : ℤ
  buf : Option ℕ
deriving DecidableEq

/-- The nodes in memory. A null pointer is `none`. -/
abbrev RbMemory (ι : Type) := Memory ι RbData

/-- `p->left` or `p->right`, read. -/
def readChild (d : Side) (mem : RbMemory ι) (p : Option ι) : Option (Option ι) := do
  return (← mem (← p)).child d

/-- `p->parent`, read. -/
def readParent (mem : RbMemory ι) (p : Option ι) : Option (Option ι) := do
  return (← mem (← p)).parent

/-- An assignment to a field of `*p`. -/
def assign (mem : RbMemory ι) (p : Option ι) (f : Node ι RbData → Node ι RbData) :
    Option (RbMemory ι) := do
  let i ← p
  let _ ← mem i
  return modify mem i f

/-- `if (inner) child->…->parent = node;`, the inner subtree being read again from the child. -/
def tellInner (d : Side) (mem : RbMemory ι) (node child inner : Option ι) :
    Option (RbMemory ι) :=
  if inner = none then some mem else do
    assign mem (← readChild d.other mem child) (Node.setParent node)

/-- The parent of the node gets the child in its place, on the side on which the node hangs; without
a parent, the child is the new root. -/
def tellParent (d : Side) (mem : RbMemory ι) (node child parent root : Option ι) :
    Option (RbMemory ι × Option ι) :=
  if parent = none then some (mem, child) else do
    let above ← readParent mem node
    let side := if (← readChild d mem above) = node then d else d.other
    return (← assign mem above (Node.setChild side child), root)

/-- A rotation that brings up the child on side `d`: the memory after it and the root it returns,
and nothing when it accesses what is not a node. -/
def rotate (d : Side) (mem : RbMemory ι) (node root : Option ι) :
    Option (RbMemory ι × Option ι) := do
  let child ← readChild d mem node
  let inner ← readChild d.other mem child
  let mem ← assign mem node (Node.setChild d inner)
  let mem ← tellInner d mem node child inner
  let mem ← assign mem child (Node.setChild d.other node)
  let parent ← readParent mem node
  let mem ← assign mem child (Node.setParent parent)
  tellParent d mem node child parent root

/-- `rotate_left` brings up the right child. -/
def rotateLeft (mem : RbMemory ι) (node root : Option ι) : Option (RbMemory ι × Option ι) :=
  rotate .right mem node root

/-- `rotate_right` brings up the left child. -/
def rotateRight (mem : RbMemory ι) (node root : Option ι) : Option (RbMemory ι × Option ι) :=
  rotate .left mem node root

/-! ### Running it -/

variable {mem mem' : RbMemory ι} {d : Side} {i j x y : ι} {inner parent : Option ι}
  {f : Node ι RbData → Node ι RbData}

omit [DecidableEq ι] in
theorem readChild_some : readChild d mem (some i) = (links d mem i).map fun l ↦ l.2.1 := by
  show ((mem i).bind fun n ↦ some (n.child d)) = _
  rw [links]
  cases mem i <;> rfl

omit [DecidableEq ι] in
theorem readChild_other_some : readChild d.other mem (some i) = (links d mem i).map Prod.fst := by
  show ((mem i).bind fun n ↦ some (n.child d.other)) = _
  rw [links]
  cases mem i <;> rfl

omit [DecidableEq ι] in
theorem readParent_some : readParent mem (some i) = parentOf mem i := by
  show ((mem i).bind fun n ↦ some n.parent) = _
  rw [parentOf]
  cases mem i <;> rfl

theorem assign_of_links {l : Option ι × Option ι × RbData} (h : links d mem i = some l) :
    assign mem (some i) f = some (modify mem i f) := by
  obtain ⟨n, hn, -⟩ := Option.map_eq_some_iff.1 h
  show ((mem i).bind fun _ ↦ some (modify mem i f)) = _
  rw [hn]
  rfl

/-- The memory once `y` has come up to the place of `x`, before the parent is told. -/
def lifted (d : Side) (mem : RbMemory ι) (x y : ι) (inner parent : Option ι) : RbMemory ι :=
  let mem := modify mem x (Node.setChild d inner)
  let mem := inner.elim mem fun b ↦ modify mem b (Node.setParent (some x))
  modify (modify mem y (Node.setChild d.other (some x))) y (Node.setParent parent)

/-- A parent field changes no child field. -/
theorem links_elim_setParent (mem : RbMemory ι) (inner p : Option ι) :
    links d (inner.elim mem fun b ↦ modify mem b (Node.setParent p)) j = links d mem j := by
  cases inner with
  | none => rfl
  | some b => exact links_setParent

theorem links_lifted_node (hxy : x ≠ y) : links d (lifted d mem x y inner parent) x =
    (links d mem x).map fun l ↦ (l.1, inner, l.2.2) := by
  rw [lifted, links_setParent, links_modify_of_ne hxy, links_elim_setParent, links_setChild]

theorem links_lifted_child (hxy : x ≠ y) : links d (lifted d mem x y inner parent) y =
    (links d mem y).map fun l ↦ (some x, l.2) := by
  rw [lifted, links_setParent, links_setChild_other, links_elim_setParent,
    links_modify_of_ne hxy.symm]

theorem links_lifted_of_ne (hx : j ≠ x) (hy : j ≠ y) :
    links d (lifted d mem x y inner parent) j = links d mem j := by
  rw [lifted, links_setParent, links_modify_of_ne hy, links_elim_setParent, links_modify_of_ne hx]

theorem lifted_of_ne (hx : j ≠ x) (hy : j ≠ y) (hinner : inner ≠ some j) :
    lifted d mem x y inner parent j = mem j := by
  rw [lifted, modify_of_ne hy, modify_of_ne hy]
  cases inner with
  | none => exact modify_of_ne hx
  | some b =>
    have hb : j ≠ b := fun h ↦ hinner (congrArg some h.symm)
    exact (modify_of_ne hb).trans (modify_of_ne hx)

/-- **The stale field**: the node that goes down keeps its parent. -/
theorem parentOf_lifted_node (hxy : x ≠ y) (hinner : inner ≠ some x) :
    parentOf (lifted d mem x y inner parent) x = parentOf mem x := by
  rw [lifted, parentOf_setParent_of_ne hxy, parentOf_setChild]
  cases inner with
  | none => exact parentOf_setChild
  | some b =>
    have hb : x ≠ b := fun h ↦ hinner (congrArg some h.symm)
    exact (parentOf_setParent_of_ne hb).trans parentOf_setChild

/-- The inner subtree, when there is one, is told of its new parent. -/
theorem tellInner_eq {outer p : Option ι} {data : RbData}
    (hy : links d mem y = some (inner, outer, data))
    (hinner : ∀ b ∈ inner, ∃ l, links d mem b = some l) :
    tellInner d mem p (some y) inner =
      some (inner.elim mem fun b ↦ modify mem b (Node.setParent p)) := by
  cases inner with
  | none => rfl
  | some b =>
    obtain ⟨l, hl⟩ := hinner b rfl
    rw [tellInner, if_neg nofun, readChild_other_some, hy]
    exact assign_of_links hl

/-- **The code, up to the test for a parent.** -/
theorem rotate_eq {root outer outer' : Option ι} {data data' : RbData} (hxy : x ≠ y)
    (hx : links d mem x = some (outer', some y, data))
    (hy : links d mem y = some (inner, outer, data')) (hparent : parentOf mem x = some parent)
    (hinner : ∀ b ∈ inner, b ≠ x ∧ ∃ l, links d mem b = some l) :
    rotate d mem (some x) root =
      tellParent d (lifted d mem x y inner parent) (some x) (some y) parent root := by
  -- `node->right = right->left`
  have hy₁ : links d (modify mem x (Node.setChild d inner)) y = some (inner, outer, data') := by
    rw [links_modify_of_ne hxy.symm, hy]
  have htell := tellInner_eq hy₁ (p := some x) fun b hb ↦ by
    obtain ⟨hbx, l, hl⟩ := hinner b hb
    exact ⟨l, (links_modify_of_ne hbx).trans hl⟩
  -- `right->left = node`
  have hy₂ := (links_elim_setParent (d := d) _ inner (some x)).trans hy₁
  have hy₃ := (links_setChild_other (p := some x)).trans (congrArg (Option.map _) hy₂)
  have hstale : ∀ p, parentOf (lifted d mem x y inner p) x = some parent := fun p ↦
    (parentOf_lifted_node hxy fun h ↦ (hinner x h).1 rfl).trans hparent
  have hparent₃ := (parentOf_setParent_of_ne hxy).symm.trans (hstale none)
  have hchild : readChild d mem (some x) = some (some y) := by
    rw [readChild_some, hx, Option.map_some]
  have hinner₀ : readChild d.other mem (some y) = some inner := by
    rw [readChild_other_some, hy, Option.map_some]
  simp only [rotate, hchild, hinner₀, assign_of_links hx, htell, assign_of_links hy₂,
    readParent_some, Option.bind_eq_bind, Option.bind_some]
  rw [hparent₃, Option.bind_some, assign_of_links hy₃, Option.bind_some]
  rfl

/-- The parent of the node gets the child on the side on which the node hangs. -/
theorem tellParent_of_frame {g : Frame ι RbData} {root : Option ι}
    (hparent : parentOf mem x = some (some g.node.1))
    (hlinks : links g.side mem g.node.1 = some (LinkedTree.root g.sibling, some x, g.node.2))
    (hsibling : x ∉ addresses g.sibling) :
    tellParent d mem (some x) (some y) (some g.node.1) root =
      some (modify mem g.node.1 (Node.setChild g.side (some y)), root) := by
  have hside : ∃ c, readChild d mem (some g.node.1) = some c ∧
      (if c = some x then d else d.other) = g.side := by
    by_cases hd : d = g.side
    · refine ⟨some x, ?_, (if_pos rfl).trans hd⟩
      rw [hd, readChild_some, hlinks, Option.map_some]
    · have hother : d = g.side.other := by
        cases d <;> cases hg : g.side <;> first | rfl | exact absurd hg.symm hd
      refine ⟨LinkedTree.root g.sibling, ?_, ?_⟩
      · rw [hother, readChild_other_some, hlinks, Option.map_some]
      · -- the sibling is another node
        rw [if_neg fun h ↦ hsibling (mem_addresses_of_root h), hother]
        cases g.side <;> rfl
  obtain ⟨c, hread, hside⟩ := hside
  rw [tellParent, if_neg nofun, readParent_some, hparent]
  show ((readChild d mem (some g.node.1)).bind fun c ↦
    (assign mem (some g.node.1) (Node.setChild (if c = some x then d else d.other) (some y))).bind
      fun mem ↦ some (mem, root)) = _
  rw [hread, Option.bind_some, hside, assign_of_links hlinks, Option.bind_some]

/-! ### The trees -/

section Trees

variable {fs : List (Frame ι RbData)} {a b : ι × RbData} {A B C : BinaryTree (ι × RbData)}
  {p : Option ι}

omit [DecidableEq ι] in
/-- No node of the tree is also another. -/
theorem nodup_of_plug (h : (addresses (plug fs (branch d a A (branch d b B C)))).Nodup) :
    (frameAddresses fs ++ a.1 :: (addresses A ++ b.1 :: (addresses B ++ addresses C))).Nodup := by
  refine (List.Perm.nodup_iff ?_).1 h
  refine addresses_plug_perm.trans (List.Perm.append_left _ ?_)
  exact addresses_branch_perm.trans ((addresses_branch_perm.append_left _).cons _)

omit [DecidableEq ι] in
/-- A rotation leaves the order of the nodes as it is. -/
theorem inorder_rotate : inorder (plug fs (branch d b (branch d a A B) C)) =
    inorder (plug fs (branch d a A (branch d b B C))) := by
  refine inorder_plug_congr ?_
  cases d <;> simp only [branch, inorder, List.append_assoc, List.cons_append]

/-- The subtree is rebuilt. -/
theorem linked_lifted (h : Linked mem (branch d a A (branch d b B C)))
    (hnodup : (a.1 :: (addresses A ++ b.1 :: (addresses B ++ addresses C))).Nodup) :
    Linked (lifted d mem a.1 b.1 (root B) p) (branch d b (branch d a A B) C) := by
  obtain ⟨ha, hA, hb⟩ := linked_branch.1 h
  obtain ⟨hb, hB, hC⟩ := linked_branch.1 hb
  have hne : a.1 ≠ b.1 := by grind
  have hkeep : ∀ {T : BinaryTree (ι × RbData)}, Linked mem T → (∀ i ∈ addresses T, i ≠ a.1 ∧
      i ≠ b.1) → Linked (lifted d mem a.1 b.1 (root B) p) T := fun hT hi ↦
    hT.congr fun i hmem ↦ links_lifted_of_ne (hi i hmem).1 (hi i hmem).2
  refine linked_branch.2 ⟨?_, linked_branch.2 ⟨?_, hkeep hA ?_, hkeep hB ?_⟩, hkeep hC ?_⟩
  · rw [links_lifted_child hne, hb, root_branch]
    rfl
  · rw [links_lifted_node hne, ha]
    rfl
  all_goals grind

omit [DecidableEq ι] in
/-- The addresses of the subtree that is rebuilt. -/
theorem mem_addresses_place_iff : i ∈ addresses (branch d a A (branch d b B C)) ↔
    i = a.1 ∨ i ∈ addresses A ∨ i = b.1 ∨ i ∈ addresses B ∨ i ∈ addresses C := by
  rw [addresses_branch_perm.mem_iff, List.mem_cons, List.mem_append,
    addresses_branch_perm.mem_iff, List.mem_cons, List.mem_append]

/-- What is reached before the parent is told: the subtree is rebuilt, and the frames are still
linked to the node that goes down. -/
theorem rotate_lifted {r : Option ι}
    (h : Consistent mem r (plug fs (branch d a A (branch d b B C)))) :
    ∃ mem₁, rotate d mem (some a.1) r = tellParent d mem₁ (some a.1) (some b.1) (above fs) r ∧
      Linked mem₁ (branch d b (branch d a A B) C) ∧ FramesLinked mem₁ fs (some a.1) ∧
      parentOf mem₁ a.1 = some (above fs) ∧
      ∀ i ∉ addresses (plug fs (branch d a A (branch d b B C))), mem₁ i = mem i := by
  have hnodup := nodup_of_plug h.nodup
  obtain ⟨hframes, hlinked⟩ := linked_plug.1 h.linked
  obtain ⟨ha, -, hbranch⟩ := linked_branch.1 hlinked
  obtain ⟨hb, hB, -⟩ := linked_branch.1 hbranch
  rw [root_branch] at ha hframes
  have hparent : parentOf mem a.1 = some (above fs) := (parented_branch.1 h.parented.of_plug).1
  have hne : a.1 ≠ b.1 := by grind
  have hinner : ∀ i ∈ root B, i ≠ a.1 ∧ ∃ l, links d mem i = some l := fun i hi ↦ by
    have hmem : i ∈ addresses B := mem_addresses_of_root hi
    exact ⟨by grind, hB.exists_links hmem⟩
  refine ⟨lifted d mem a.1 b.1 (root B) (above fs), rotate_eq hne ha hb hparent hinner,
    linked_lifted hlinked (List.nodup_append.1 hnodup).2.1, ?_, ?_, fun i hi ↦ ?_⟩
  · exact hframes.congr fun i hi ↦ links_lifted_of_ne (by grind) (by grind)
  · exact (parentOf_lifted_node hne fun hi ↦ (hinner _ hi).1 rfl).trans hparent
  · rw [addresses_plug_perm.mem_iff, List.mem_append, mem_addresses_place_iff] at hi
    push Not at hi
    obtain ⟨-, hia, -, hib, hiB, -⟩ := hi
    exact lifted_of_ne hia hib fun hroot ↦ hiB (mem_addresses_of_root hroot)

/-- **What a rotation does**: the subtree is rebuilt in its place, the node that goes down keeps
the parent it had, and other nodes are left alone. -/
theorem rotate_spec {r : Option ι}
    (h : Consistent mem r (plug fs (branch d a A (branch d b B C)))) :
    ∃ mem' r', rotate d mem (some a.1) r = some (mem', r') ∧
      Held mem' r' (plug fs (branch d b (branch d a A B) C)) ∧
      parentOf mem' a.1 = some (above fs) ∧
      ∀ i ∉ addresses (plug fs (branch d a A (branch d b B C))), mem' i = mem i := by
  obtain ⟨mem₁, hrun, hsubtree, hframes, hstale, hkeep⟩ := rotate_lifted h
  have hnodup : (addresses (plug fs (branch d b (branch d a A B) C))).Nodup := by
    rw [addresses, inorder_rotate, ← addresses]
    exact h.nodup
  cases fs with
  | nil => exact ⟨mem₁, some b.1, hrun, ⟨root_branch.symm, hsubtree, hnodup⟩, hstale, hkeep⟩
  | cons f fs =>
    have hsplit := List.nodup_append.1 (addresses_plug_perm.nodup_iff.1 hnodup)
    have hf : f.node.1 ∈ frameAddresses (f :: fs) := List.mem_cons_self
    have hsibling : a.1 ∉ addresses f.sibling := fun hmem ↦
      (List.nodup_append.1 (addresses_plug_perm.nodup_iff.1 h.nodup)).2.2 a.1
        (List.mem_cons_of_mem _ (List.mem_append_left _ hmem)) a.1
        (mem_addresses_place_iff.2 (Or.inl rfl)) rfl
    refine ⟨modify mem₁ f.node.1 (Node.setChild f.side (some b.1)), r,
      hrun.trans (tellParent_of_frame hstale hframes.1 hsibling), ⟨?_, ?_, hnodup⟩, ?_, ?_⟩
    · exact h.root_eq.trans (root_plug_cons _ _)
    · refine linked_plug.2 ⟨?_, hsubtree.congr (d := .left) fun i hi ↦ ?_⟩
      · exact root_branch ▸ hframes.setChild hsplit.1 _
      · exact links_modify_of_ne (hsplit.2.2 _ hf i hi).symm
    · exact parentOf_setChild.trans hstale
    · intro i hi
      refine (modify_of_ne fun heq ↦ hi ?_).trans (hkeep i hi)
      exact addresses_plug_perm.mem_iff.2 (List.mem_append_left _ (heq ▸ hf))

end Trees

/-! ### What the rotations are for -/

/-- A rotation **rebuilds** the tree `t` at its node `a`: with `right` for `d`, the subtree
`a(A, b(B, C))` is replaced in place by `b(a(A, B), C)`, and with `left` the mirror image of the one
by that of the other. The root is returned, the nodes are in the order in which they were, and other
nodes are left alone. -/
def Rebuilds (rotation : RbMemory ι → Option ι → Option ι → Option (RbMemory ι × Option ι))
    (d : Side) (mem : RbMemory ι) (r : Option ι) (t : BinaryTree (ι × RbData))
    (a : ι × RbData) : Prop :=
  ∃ fs b A B C mem' r', t = plug fs (branch d a A (branch d b B C)) ∧
    rotation mem (some a.1) r = some (mem', r') ∧
    Held mem' r' (plug fs (branch d b (branch d a A B) C)) ∧
    inorder (plug fs (branch d b (branch d a A B) C)) = inorder t ∧
    ∀ i ∉ addresses t, mem' i = mem i

/-- The node has a child on side `d`. -/
def HasChild (d : Side) (mem : RbMemory ι) (i : ι) : Prop :=
  ∃ n j, mem i = some n ∧ n.child d = some j

variable {r : Option ι} {t : BinaryTree (ι × RbData)} {a : ι × RbData}

omit [DecidableEq ι] in
/-- A node with a child is at the place of a rotation. -/
theorem exists_rotation_place (h : Linked mem t) (ha : a ∈ inorder t) (hd : HasChild d mem a.1) :
    ∃ fs b A B C, t = plug fs (branch d a A (branch d b B C)) := by
  obtain ⟨fs, l, r, rfl⟩ := exists_plug_of_mem ha
  obtain ⟨A, T, hT⟩ := exists_branch d a l r
  rw [hT] at h ⊢
  obtain ⟨n, j, hn, hj⟩ := hd
  have hlinks := (linked_branch.1 (linked_plug.1 h).2).1
  rw [links, hn, Option.map_some, hj, Option.some.injEq, Prod.mk.injEq, Prod.mk.injEq] at hlinks
  obtain ⟨-, hroot, -⟩ := hlinks
  cases T with
  | nil => cases hroot
  | node b l r =>
    obtain ⟨B, C, hbranch⟩ := exists_branch d b l r
    exact ⟨fs, b, A, B, C, by rw [hbranch]⟩

theorem rebuilds_rotate (h : Consistent mem r t) (ha : a ∈ inorder t) (hd : HasChild d mem a.1) :
    Rebuilds (rotate d) d mem r t a := by
  obtain ⟨fs, b, A, B, C, rfl⟩ := exists_rotation_place h.linked ha hd
  obtain ⟨mem', r', hrun, hheld, -, hframe⟩ := rotate_spec h
  exact ⟨fs, b, A, B, C, mem', r', rfl, hrun, hheld, inorder_rotate, hframe⟩

/-- **Rotations rebuild the standard tree**, of any shape and at any of its nodes that has the child
in question. -/
theorem rotations_rebuild (h : Consistent mem r t) (ha : a ∈ inorder t) :
    (HasChild .right mem a.1 → Rebuilds rotateLeft .right mem r t a) ∧
      (HasChild .left mem a.1 → Rebuilds rotateRight .left mem r t a) :=
  ⟨rebuilds_rotate h ha, rebuilds_rotate h ha⟩

/-- A root of two children. -/
def threeNodes : RbMemory ℕ
  | 0 => some ⟨some 1, some 2, none, ⟨0, none⟩⟩
  | 1 => some ⟨none, none, some 0, ⟨1, none⟩⟩
  | 2 => some ⟨none, none, some 0, ⟨1, none⟩⟩
  | _ => none

/-- The tree of the three nodes. -/
def threeNodesTree : BinaryTree (ℕ × RbData) :=
  .node (0, ⟨0, none⟩) (.node (1, ⟨1, none⟩) .nil .nil) (.node (2, ⟨1, none⟩) .nil .nil)

theorem consistent_threeNodes : Consistent threeNodes (some 0) threeNodesTree where
  root_eq := rfl
  linked := by simp [threeNodesTree, Linked, links, threeNodes, Node.child, Side.other, root]
  nodup := by decide
  parented := by simp [threeNodesTree, Parented, parentOf, threeNodes]

/-- The root of the three nodes can be rotated either way. -/
theorem rotations_rebuild_threeNodes :
    Rebuilds rotateLeft .right threeNodes (some 0) threeNodesTree (0, ⟨0, none⟩) ∧
      Rebuilds rotateRight .left threeNodes (some 0) threeNodesTree (0, ⟨0, none⟩) := by
  have h := rotations_rebuild consistent_threeNodes (a := (0, ⟨0, none⟩)) (by decide)
  exact ⟨h.1 ⟨_, 2, rfl, rfl⟩, h.2 ⟨_, 1, rfl, rfl⟩⟩

end PreforkHttpd
