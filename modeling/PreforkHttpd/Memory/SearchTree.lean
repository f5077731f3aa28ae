import Mathlib.Order.Lattice
import PreforkHttpd.Memory.TreeSurgery

/-!
# Search trees

The nodes of a search tree are in the order of their keys. What a search for a key `k` has passed is
a list of frames with smaller keys on the left and larger ones on the right (`Between k`), and
`seek` is the place at which the search ends: at a node with this key, or at an empty subtree where
such a node belongs (`Ordered.plug_leaf`).
-/

namespace LinkedTree

variable {ι α κ : Type*} [LinearOrder κ] (key : α → κ)

/-- From left to right, the keys increase. -/
def Ordered (t : BinaryTree (ι × α)) : Prop :=
  (inorder t).Pairwise fun a b ↦ key a.2 < key b.2

/-- A node with the key `k` belongs into these frames. -/
def Between (k : κ) (fs : List (Frame ι α)) : Prop :=
  (∀ c ∈ before fs, key c.2 < k) ∧ ∀ c ∈ after fs, k < key c.2

/-- The frames that the search for `k` passes in `t`, and the subtree at which it ends. -/
def seek (k : κ) : BinaryTree (ι × α) → List (Frame ι α) → List (Frame ι α) × BinaryTree (ι × α)
  | .nil, fs => (fs, .nil)
  | .node c l r, fs =>
    if k < key c.2 then seek k l (⟨.left, c, r⟩ :: fs)
    else if key c.2 < k then seek k r (⟨.right, c, l⟩ :: fs)
    else (fs, .node c l r)

variable {key} {k : κ} {t l r : BinaryTree (ι × α)} {c : ι × α} {fs : List (Frame ι α)}

/-! ### Order -/

theorem ordered_plug : Ordered key (plug fs t) ↔
    (before fs ++ after fs).Pairwise (fun a b ↦ key a.2 < key b.2) ∧ Ordered key t ∧
      ∀ a ∈ inorder t, Between key (key a.2) fs := by
  rw [Ordered, inorder_plug, List.pairwise_append, List.pairwise_append, List.pairwise_append]
  constructor
  · rintro ⟨⟨hbefore, ht, hbt⟩, hafter, hout⟩
    exact ⟨⟨hbefore, hafter, fun a ha ↦ hout a (List.mem_append_left _ ha)⟩, ht,
      fun a ha ↦ ⟨fun b hb ↦ hbt b hb a ha, hout a (List.mem_append_right _ ha)⟩⟩
  · rintro ⟨⟨hbefore, hafter, hba⟩, ht, hbetween⟩
    refine ⟨⟨hbefore, ht, fun b hb a ha ↦ (hbetween a ha).1 b hb⟩, hafter, fun a ha ↦ ?_⟩
    obtain ha | ha := List.mem_append.1 ha
    · exact hba a ha
    · exact (hbetween a ha).2

theorem ordered_node : Ordered key (.node c l r) ↔ Ordered key l ∧ Ordered key r ∧
    (∀ a ∈ inorder l, key a.2 < key c.2) ∧ ∀ a ∈ inorder r, key c.2 < key a.2 := by
  rw [Ordered, inorder, List.pairwise_append, List.pairwise_cons]
  constructor
  · rintro ⟨hl, ⟨hcr, hr⟩, hlc⟩
    exact ⟨hl, hr, fun a ha ↦ hlc a ha c List.mem_cons_self, hcr⟩
  · rintro ⟨hl, hr, hlc, hcr⟩
    refine ⟨hl, ⟨hcr, hr⟩, fun a ha b hb ↦ ?_⟩
    obtain rfl | hb := List.mem_cons.1 hb
    · exact hlc a ha
    · exact (hlc a ha).trans (hcr b hb)

theorem Between.left (h : Between key k fs) (ht : Ordered key (.node c l r)) (hk : k < key c.2) :
    Between key k (⟨.left, c, r⟩ :: fs) := by
  refine ⟨fun a ha ↦ h.1 a (by simpa only [before, List.append_nil] using ha),
    fun a ha ↦ ?_⟩
  obtain ha | ha := List.mem_append.1 ha
  · obtain rfl | ha := List.mem_cons.1 ha
    · exact hk
    · exact hk.trans ((ordered_node.1 ht).2.2.2 a ha)
  · exact h.2 a ha

theorem Between.right (h : Between key k fs) (ht : Ordered key (.node c l r)) (hk : key c.2 < k) :
    Between key k (⟨.right, c, l⟩ :: fs) := by
  refine ⟨fun a ha ↦ ?_, h.2⟩
  obtain ha | ha := List.mem_append.1 ha
  · exact h.1 a ha
  · obtain ha | ha := List.mem_append.1 ha
    · exact ((ordered_node.1 ht).2.2.1 a ha).trans hk
    · obtain rfl := List.mem_singleton.1 ha
      exact hk

/-- **A new leaf** where the search for its key has ended. -/
theorem Ordered.plug_leaf (ht : Ordered key (plug fs .nil)) (h : Between key (key c.2) fs) :
    Ordered key (plug fs (.node c .nil .nil)) := by
  refine ordered_plug.2 ⟨(ordered_plug.1 ht).1, List.pairwise_singleton _ _, fun a ha ↦ ?_⟩
  obtain rfl := List.mem_singleton.1 ha
  exact h

/-- No other node has the key of a place. -/
theorem Between.key_ne (h : Between key k fs) : ∀ a ∈ inorder (plug fs .nil), key a.2 ≠ k := by
  intro a ha
  rw [inorder_plug, inorder, List.append_nil] at ha
  obtain ha | ha := List.mem_append.1 ha
  · exact (h.1 a ha).ne
  · exact (h.2 a ha).ne'

/-! ### The search -/

theorem plug_seek (key : α → κ) (k : κ) (t : BinaryTree (ι × α)) (fs : List (Frame ι α)) :
    plug (seek key k t fs).1 (seek key k t fs).2 = plug fs t := by
  induction t generalizing fs with
  | nil => rfl
  | node c l r ihl ihr =>
    rw [seek]
    split
    · exact ihl _
    · split
      · exact ihr _
      · rfl

theorem between_seek (h : Between key k fs) (ht : Ordered key t) :
    Between key k (seek key k t fs).1 := by
  induction t generalizing fs with
  | nil => exact h
  | node c l r ihl ihr =>
    rw [seek]
    split
    · exact ihl (h.left ht ‹_›) (ordered_node.1 ht).1
    · split
      · exact ihr (h.right ht ‹_›) (ordered_node.1 ht).2.1
      · exact h

/-- A search that ends at a node has found the key. -/
theorem key_eq_of_seek (h : (seek key k t fs).2 = .node c l r) : key c.2 = k := by
  induction t generalizing fs with
  | nil => cases h
  | node a l' r' ihl ihr =>
    rw [seek] at h
    split at h
    · exact ihl h
    · split at h
      · exact ihr h
      · obtain ⟨rfl, -, -⟩ := BinaryTree.node.inj h
        exact le_antisymm (not_lt.1 ‹_›) (not_lt.1 ‹_›)

/-- A search goes down one path. -/
theorem length_seek_le (key : α → κ) (k : κ) (t : BinaryTree (ι × α)) (fs : List (Frame ι α)) :
    (seek key k t fs).1.length ≤ fs.length + height t := by
  induction t generalizing fs with
  | nil => exact Nat.le_add_right _ _
  | node c l r ihl ihr =>
    rw [seek, height]
    split
    · have hl := ihl (⟨.left, c, r⟩ :: fs)
      rw [List.length_cons] at hl
      omega
    · split
      · have hr := ihr (⟨.right, c, l⟩ :: fs)
        rw [List.length_cons] at hr
        omega
      · exact Nat.le_add_right _ _

end LinkedTree
