import Mathlib.Data.List.Nodup
import Mathlib.Data.List.Perm.Basic
import Mathlib.Data.Tree.Basic
import Mathlib.Logic.Function.Basic

/-!
# Binary trees in memory

A memory of nodes, each with its data, the addresses of its two children and that of its parent,
holds a binary tree when the nodes are linked as the tree is. The two kinds of link are kept apart:
`Linked mem t` is about the child fields alone and `Parented mem p t` about the parent fields, so
that code which maintains one of them and not the other can be spoken of.

Most of what is said about one side of a node holds of the other side too. A `Side` names one of the
two, `branch d c inner outer` is the node `c` with `outer` on side `d`, and `links d` reads the
children of a node in this order.

A subtree is a tree with a list of `Frame`s around it, the innermost first, and `plug` puts the tree
together. What is linked splits along the frames (`linked_plug`), and the addresses do
(`addresses_plug_perm`), so that a change inside a subtree leaves the frames as they are.
-/

namespace LinkedTree

variable {ι α : Type*}

/-! ### Nodes -/

/-- The side on which a child is. -/
inductive Side
  | left
  | right
deriving DecidableEq

/-- The opposite side. -/
def Side.other : Side → Side
  | left => right
  | right => left

/-- A node of a linked binary tree. -/
structure Node (ι α : Type*) where
  left : Option ι
  right : Option ι
  parent : Option ι
  data : α
deriving DecidableEq

namespace Node

/-- The child on one side. -/
def child (n : Node ι α) : Side → Option ι
  | .left => n.left
  | .right => n.right

/-- The node with another child on one side. -/
def setChild (d : Side) (p : Option ι) (n : Node ι α) : Node ι α :=
  match d with
  | .left => { n with left := p }
  | .right => { n with right := p }

/-- The node with another parent. -/
def setParent (p : Option ι) (n : Node ι α) : Node ι α := { n with parent := p }

variable (n : Node ι α) (d e : Side) (p : Option ι)

@[simp] theorem child_setChild : (n.setChild d p).child d = p := by
  cases d <;> rfl

@[simp] theorem child_other_setChild : (n.setChild d p).child d.other = n.child d.other := by
  cases d <;> rfl

@[simp] theorem child_setChild_other : (n.setChild d.other p).child d = n.child d := by
  cases d <;> rfl

@[simp] theorem parent_setChild : (n.setChild d p).parent = n.parent := by
  cases d <;> rfl

@[simp] theorem data_setChild : (n.setChild d p).data = n.data := by
  cases d <;> rfl

@[simp] theorem child_setParent : (n.setParent p).child e = n.child e := by
  cases e <;> rfl

@[simp] theorem parent_setParent : (n.setParent p).parent = p := rfl

@[simp] theorem data_setParent : (n.setParent p).data = n.data := rfl

end Node

/-! ### Memory -/

/-- The nodes that are allocated, by address. -/
abbrev Memory (ι α : Type*) := ι → Option (Node ι α)

/-- The children of a node, that on side `d` second, and its data. -/
def links (d : Side) (mem : Memory ι α) (i : ι) : Option (Option ι × Option ι × α) :=
  (mem i).map fun n ↦ (n.child d.other, n.child d, n.data)

/-- The parent field of a node. -/
def parentOf (mem : Memory ι α) (i : ι) : Option (Option ι) := (mem i).map Node.parent

variable {mem mem' : Memory ι α} {d : Side} {i j : ι}

/-- Two memories link a node alike, from whichever side one looks. -/
theorem links_congr (h : links d mem' i = links d mem i) (e : Side) :
    links e mem' i = links e mem i := by
  unfold links at h ⊢
  cases hi : mem i <;> cases hi' : mem' i <;> simp only [hi, hi'] at h
  · rfl
  · cases h
  · cases h
  · cases d <;> cases e <;> grind [Side.other]

section Modify

variable [DecidableEq ι]

/-- Change the node at an address, if there is one. -/
def modify (mem : Memory ι α) (i : ι) (f : Node ι α → Node ι α) : Memory ι α :=
  Function.update mem i ((mem i).map f)

variable {f : Node ι α → Node ι α} {p : Option ι}

theorem modify_of_ne (h : j ≠ i) : modify mem i f j = mem j := Function.update_of_ne h _ _

theorem modify_self : modify mem i f i = (mem i).map f := Function.update_self _ _ _

theorem links_modify_of_ne (h : j ≠ i) : links d (modify mem i f) j = links d mem j := by
  rw [links, modify_of_ne h, links]

theorem links_setChild : links d (modify mem i (Node.setChild d p)) i =
    (links d mem i).map fun l ↦ (l.1, p, l.2.2) := by
  rw [links, modify_self, links, Option.map_map, Option.map_map]
  exact congrArg (Option.map · (mem i)) (funext fun n ↦ by simp)

theorem links_setChild_other : links d (modify mem i (Node.setChild d.other p)) i =
    (links d mem i).map fun l ↦ (p, l.2) := by
  rw [links, modify_self, links, Option.map_map, Option.map_map]
  exact congrArg (Option.map · (mem i)) (funext fun n ↦ by simp)

/-- The child links do not depend on the parent fields. -/
@[simp] theorem links_setParent : links d (modify mem i (Node.setParent p)) j = links d mem j := by
  by_cases h : j = i
  · rw [h, links, modify_self, links, Option.map_map]
    exact congrArg (Option.map · (mem i)) (funext fun n ↦ by simp)
  · exact links_modify_of_ne h

/-- The parent fields do not depend on the child links. -/
@[simp] theorem parentOf_setChild :
    parentOf (modify mem i (Node.setChild d p)) j = parentOf mem j := by
  by_cases h : j = i
  · rw [h, parentOf, modify_self, parentOf, Option.map_map]
    exact congrArg (Option.map · (mem i)) (funext fun n ↦ by simp)
  · rw [parentOf, modify_of_ne h, parentOf]

theorem parentOf_setParent_of_ne (h : j ≠ i) :
    parentOf (modify mem i (Node.setParent p)) j = parentOf mem j := by
  rw [parentOf, modify_of_ne h, parentOf]

end Modify

/-! ### Trees -/

variable {t t' s s' A B : BinaryTree (ι × α)} {c : ι × α} {p : Option ι}

/-- The address by which a tree is known. -/
def root : BinaryTree (ι × α) → Option ι
  | .nil => none
  | .node c _ _ => some c.1

/-- The nodes from left to right. -/
def inorder : BinaryTree (ι × α) → List (ι × α)
  | .nil => []
  | .node c l r => inorder l ++ c :: inorder r

/-- The addresses of a tree. -/
def addresses (t : BinaryTree (ι × α)) : List ι := (inorder t).map Prod.fst

/-- The child fields link these nodes as the tree does. -/
def Linked (mem : Memory ι α) : BinaryTree (ι × α) → Prop
  | .nil => True
  | .node c l r => links .right mem c.1 = some (root l, root r, c.2) ∧ Linked mem l ∧ Linked mem r

/-- The parent field of each node is its parent, and that of the root is `p`. -/
def Parented (mem : Memory ι α) : Option ι → BinaryTree (ι × α) → Prop
  | _, .nil => True
  | p, .node c l r =>
    parentOf mem c.1 = some p ∧ Parented mem (some c.1) l ∧ Parented mem (some c.1) r

/-- A node with a subtree on side `d`, and the other subtree on the other side. -/
def branch (d : Side) (c : ι × α) (inner outer : BinaryTree (ι × α)) : BinaryTree (ι × α) :=
  match d with
  | .left => .node c outer inner
  | .right => .node c inner outer

/-- A node with its subtrees, seen from either side. -/
theorem exists_branch (d : Side) (c : ι × α) (l r : BinaryTree (ι × α)) :
    ∃ A B, BinaryTree.node c l r = branch d c A B := by
  cases d with
  | left => exact ⟨r, l, rfl⟩
  | right => exact ⟨l, r, rfl⟩

@[simp] theorem root_branch : root (branch d c A B) = some c.1 := by
  cases d <;> rfl

theorem linked_branch : Linked mem (branch d c A B) ↔
    links d mem c.1 = some (root A, root B, c.2) ∧ Linked mem A ∧ Linked mem B := by
  cases d with
  | right => exact Iff.rfl
  | left =>
    refine and_congr ?_ and_comm
    unfold links
    cases mem c.1 with
    | none => exact ⟨nofun, nofun⟩
    | some n => grind [Node.child, Side.other, branch]

theorem parented_branch : Parented mem p (branch d c A B) ↔
    parentOf mem c.1 = some p ∧ Parented mem (some c.1) A ∧ Parented mem (some c.1) B := by
  cases d with
  | right => exact Iff.rfl
  | left => exact and_congr_right' and_comm

/-- **A linked tree is a matter of its own nodes**, and of their child fields. -/
theorem Linked.congr (h : Linked mem t)
    (hmem : ∀ i ∈ addresses t, links d mem' i = links d mem i) : Linked mem' t := by
  induction t with
  | nil => trivial
  | node c l r ihl ihr =>
    simp only [addresses, inorder, List.map_append, List.map_cons, List.mem_append,
      List.mem_cons] at hmem
    refine ⟨?_, ihl h.2.1 fun i hi ↦ hmem i (Or.inl hi),
      ihr h.2.2 fun i hi ↦ hmem i (Or.inr (Or.inr hi))⟩
    exact (links_congr (hmem c.1 (Or.inr (Or.inl rfl))) _).trans h.1

/-- **The tree behind an address** is determined by it. -/
theorem Linked.unique (h : Linked mem t) (h' : Linked mem t') (hroot : root t = root t') :
    t = t' := by
  induction t generalizing t' with
  | nil =>
    cases t' with
    | nil => rfl
    | node => cases hroot
  | node c l r ihl ihr =>
    cases t' with
    | nil => cases hroot
    | node c' l' r' =>
      have haddress : c.1 = c'.1 := Option.some.inj hroot
      have hlinks := h.1.symm.trans (haddress ▸ h'.1)
      simp only [Option.some.injEq, Prod.mk.injEq] at hlinks
      rw [Prod.ext haddress hlinks.2.2, ihl h.2.1 h'.2.1 hlinks.1, ihr h.2.2 h'.2.2 hlinks.2.1]

/-- The nodes of a linked tree are allocated. -/
theorem Linked.exists_links (h : Linked mem t) (hi : i ∈ addresses t) :
    ∃ l, links d mem i = some l := by
  induction t with
  | nil => cases hi
  | node c l r ihl ihr =>
    simp only [addresses, inorder, List.map_append, List.map_cons, List.mem_append,
      List.mem_cons] at hi
    obtain hl | rfl | hr := hi
    · exact ihl h.2.1 hl
    · obtain ⟨n, hn, -⟩ := Option.map_eq_some_iff.1 h.1
      exact ⟨_, congrArg (Option.map _) hn⟩
    · exact ihr h.2.2 hr

/-- The addresses of a node and its subtrees. -/
theorem addresses_branch_perm :
    (addresses (branch d c A B)).Perm (c.1 :: (addresses A ++ addresses B)) := by
  cases d with
  | right =>
    simp only [branch, addresses, inorder, List.map_append, List.map_cons]
    exact List.perm_middle
  | left =>
    simp only [branch, addresses, inorder, List.map_append, List.map_cons]
    exact List.perm_middle.trans (List.perm_append_comm.cons _)

/-- The root of a tree is one of its nodes. -/
theorem mem_addresses_of_root (h : root t = some i) : i ∈ addresses t := by
  cases t with
  | nil => cases h
  | node c l r =>
    obtain rfl : c.1 = i := Option.some.inj h
    exact List.mem_map_of_mem (List.mem_append_right _ List.mem_cons_self)

/-! ### Subtrees -/

/-- A node around a subtree: the side of the subtree, the node, and what is on its other side. -/
structure Frame (ι α : Type*) where
  side : Side
  node : ι × α
  sibling : BinaryTree (ι × α)

/-- The tree that consists of a subtree and the frames around it. -/
def plug : List (Frame ι α) → BinaryTree (ι × α) → BinaryTree (ι × α)
  | [], t => t
  | f :: fs, t => plug fs (branch f.side f.node f.sibling t)

/-- The node above a subtree. -/
def above (fs : List (Frame ι α)) : Option ι := fs.head?.map fun f ↦ f.node.1

/-- The addresses of frames. -/
def frameAddresses (fs : List (Frame ι α)) : List ι :=
  fs.flatMap fun f ↦ f.node.1 :: addresses f.sibling

/-- The frames are linked around a subtree with the root `p`. -/
def FramesLinked (mem : Memory ι α) : List (Frame ι α) → Option ι → Prop
  | [], _ => True
  | f :: fs, p => links f.side mem f.node.1 = some (root f.sibling, p, f.node.2) ∧
    Linked mem f.sibling ∧ FramesLinked mem fs (some f.node.1)

variable {f : Frame ι α} {fs gs : List (Frame ι α)}

theorem plug_append (fs gs : List (Frame ι α)) (t : BinaryTree (ι × α)) :
    plug (fs ++ gs) t = plug gs (plug fs t) := by
  induction fs generalizing t with
  | nil => rfl
  | cons f fs ih => exact ih _

/-- **A node is the root of a subtree.** -/
theorem exists_plug_of_mem (h : c ∈ inorder t) : ∃ fs l r, t = plug fs (.node c l r) := by
  induction t with
  | nil => cases h
  | node b l r ihl ihr =>
    obtain hl | hr := List.mem_append.1 h
    · obtain ⟨fs, A, B, rfl⟩ := ihl hl
      exact ⟨fs ++ [⟨.left, b, r⟩], A, B, by rw [plug_append]; rfl⟩
    · obtain rfl | hr := List.mem_cons.1 hr
      · exact ⟨[], l, r, rfl⟩
      · obtain ⟨fs, A, B, rfl⟩ := ihr hr
        exact ⟨fs ++ [⟨.right, b, l⟩], A, B, by rw [plug_append]; rfl⟩

/-- **What is linked splits** along the frames. -/
theorem linked_plug : Linked mem (plug fs t) ↔ FramesLinked mem fs (root t) ∧ Linked mem t := by
  induction fs generalizing t with
  | nil => exact (and_iff_right trivial).symm
  | cons f fs ih =>
    rw [plug, ih, linked_branch, root_branch, FramesLinked]
    tauto

/-- The node above a subtree is the parent of its root. -/
theorem Parented.of_plug (h : Parented mem none (plug fs t)) : Parented mem (above fs) t := by
  induction fs generalizing t with
  | nil => exact h
  | cons f fs ih => exact (parented_branch.1 (ih h)).2.2

theorem FramesLinked.congr (h : FramesLinked mem fs p)
    (hmem : ∀ i ∈ frameAddresses fs, links d mem' i = links d mem i) :
    FramesLinked mem' fs p := by
  induction fs generalizing p with
  | nil => trivial
  | cons f fs ih =>
    simp only [frameAddresses, List.flatMap_cons, List.mem_append, List.mem_cons] at hmem
    refine ⟨?_, h.2.1.congr fun i hi ↦ hmem i (Or.inl (Or.inr hi)),
      ih h.2.2 fun i hi ↦ hmem i (Or.inr hi)⟩
    exact (links_congr (hmem _ (Or.inl (Or.inl rfl))) _).trans h.1

/-- **A subtree is exchanged** by one assignment to the innermost frame. -/
theorem FramesLinked.setChild [DecidableEq ι] (h : FramesLinked mem (f :: fs) p)
    (hnodup : (frameAddresses (f :: fs)).Nodup) (q : Option ι) :
    FramesLinked (modify mem f.node.1 (Node.setChild f.side q)) (f :: fs) q := by
  rw [frameAddresses, List.flatMap_cons, List.cons_append, List.nodup_cons, List.mem_append,
    not_or] at hnodup
  obtain ⟨⟨hsibling, hfs⟩, -⟩ := hnodup
  have hkeep : ∀ {l : List ι}, f.node.1 ∉ l → ∀ i ∈ l,
      links .left (modify mem f.node.1 (Node.setChild f.side q)) i = links .left mem i :=
    fun hl i hi ↦ links_modify_of_ne fun heq ↦ hl (heq ▸ hi)
  refine ⟨?_, h.2.1.congr (hkeep hsibling), h.2.2.congr (hkeep hfs)⟩
  rw [links_setChild, h.1]
  rfl

/-- **The addresses split** along the frames. -/
theorem addresses_plug_perm :
    (addresses (plug fs t)).Perm (frameAddresses fs ++ addresses t) := by
  induction fs generalizing t with
  | nil => rfl
  | cons f fs ih =>
    refine ih.trans ((List.Perm.append_left _ addresses_branch_perm).trans ?_)
    rw [frameAddresses, frameAddresses, List.flatMap_cons, ← List.cons_append, ← List.append_assoc]
    exact List.perm_append_comm.append_right _

/-- A subtree with the same nodes in order leaves the order of all nodes as it is. -/
theorem inorder_plug_congr (h : inorder s = inorder s') :
    inorder (plug fs s) = inorder (plug fs s') := by
  induction fs generalizing s s' with
  | nil => exact h
  | cons f fs ih =>
    refine ih ?_
    cases hf : f.side <;> simp only [branch, inorder, h]

/-- The root is a matter of the frames, when there are any. -/
theorem root_plug_cons (s s' : BinaryTree (ι × α)) :
    root (plug (f :: fs) s) = root (plug (f :: fs) s') := by
  induction fs generalizing f s s' with
  | nil => exact root_branch.trans root_branch.symm
  | cons g fs ih => exact ih _ _

/-! ### Held trees -/

/-- The memory holds a tree, known by the address `p`: no node of it is also another, and the child
fields link them. -/
structure Held (mem : Memory ι α) (p : Option ι) (t : BinaryTree (ι × α)) : Prop where
  root_eq : p = root t
  linked : Linked mem t
  nodup : (addresses t).Nodup

/-- The memory holds a tree whose parent fields are right. -/
structure Consistent (mem : Memory ι α) (p : Option ι) (t : BinaryTree (ι × α)) : Prop
    extends Held mem p t where
  parented : Parented mem none t

/-- The tree that is held at an address is determined by it. -/
theorem Held.unique (h : Held mem p t) (h' : Held mem p t') : t = t' :=
  h.linked.unique h'.linked (h.root_eq.symm.trans h'.root_eq)

end LinkedTree
