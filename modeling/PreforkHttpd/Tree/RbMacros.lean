import PreforkHttpd.Memory.RedBlack

/-!
# The red-black tree of `tree.h`: nodes, colours and rotations

The `RB_` macros of `utils/tree.h` work on the root pointer of a head and on the nodes in memory,
each with its two children, its parent and its colour. The functions that `RB_GENERATE` defines come
in mirror images; here a `Side` is given, and `RB_ROTATE_LEFT` is the rotation that brings up the
right child.

An access through a null pointer, or to an element that is not allocated, has no value. `RB_AUGMENT`
is empty, as it is where the header is used without another definition of it.

Each macro is specified by what it makes of an intact tree: another intact tree with the same
elements in the same order, every other element being left alone (`Rebuilt`).
-/

open LinkedTree RedBlack

namespace PreforkHttpd

/-- `RB_HEAD`, and the elements in memory. -/
structure RbHead (ι κ : Type) where
  /-- `rbh_root`. -/
  rbhRoot : Option ι
  nodes : Memory ι (Colored κ)

namespace RbHead

variable {ι κ : Type} [DecidableEq ι]

/-! ### The macros -/

/-- `RB_INIT`. -/
def init (h : RbHead ι κ) : RbHead ι κ := { h with rbhRoot := none }

/-- An assignment to a field of the element at `i`. -/
def assign (i : ι) (g : Node ι (Colored κ) → Node ι (Colored κ)) (h : RbHead ι κ) :
    Option (RbHead ι κ) :=
  (h.nodes i).map fun _ ↦ { h with nodes := modify h.nodes i g }

/-- `RB_COLOR(elm, field) = …`. -/
def setColor (col : Color) (i : ι) (h : RbHead ι κ) : Option (RbHead ι κ) :=
  h.assign i fun n ↦ { n with data := { n.data with color := col } }

/-- `RB_SET_BLACKRED`. -/
def setBlackRed (black red : ι) (h : RbHead ι κ) : Option (RbHead ι κ) :=
  (h.setColor .black black).bind (setColor .red red)

/-- The side of a parent on which `p` is, where `RB_LEFT(parent, field) == p` is asked. -/
def sideOf (n : Node ι (Colored κ)) (p : Option ι) : Side := if n.left = p then .left else .right

/-- `p && RB_COLOR(p, field) == RB_RED`. -/
def isRed (h : RbHead ι κ) : Option ι → Option Bool
  | none => some false
  | some i => (h.nodes i).map fun n ↦ n.data.color = .red

/-- The parent of `elm` gets `tmp` in its place; without a parent, `tmp` is the new root. -/
def replaceChild (parent elm tmp : Option ι) (h : RbHead ι κ) : Option (RbHead ι κ) :=
  match parent with
  | none => some { h with rbhRoot := tmp }
  | some p => (h.nodes p).bind fun n ↦ h.assign p (Node.setChild (sideOf n elm) tmp)

/-- `if (p) RB_PARENT(p, field) = elm;`. -/
def setParentOf (p elm : Option ι) (h : RbHead ι κ) : Option (RbHead ι κ) :=
  match p with
  | none => some h
  | some b => h.assign b (Node.setParent elm)

/-- `RB_ROTATE_LEFT` brings up the right child, `RB_ROTATE_RIGHT` the left. -/
def rotate (d : Side) (elm : ι) (h : RbHead ι κ) : Option (RbHead ι κ) := do
  let tmp ← (← h.nodes elm).child d
  let inner := (← h.nodes tmp).child d.other
  let h ← h.assign elm (Node.setChild d inner)
  let h ← h.setParentOf inner (some elm)
  let parent := (← h.nodes elm).parent
  let h ← h.assign tmp (Node.setParent parent)
  let h ← h.replaceChild parent (some elm) (some tmp)
  let h ← h.assign tmp (Node.setChild d.other (some elm))
  h.assign elm (Node.setParent (some tmp))

/-! ### What they make of a tree -/

/-- The head holds a tree. -/
abbrev Holds (h : RbHead ι κ) (t : Colors ι κ) : Prop := Intact h.nodes h.rbhRoot t

/-- From a head that holds `t` another one has been made, which holds `t'`: the same elements in the
same order, and the elements that are not in the tree are as they were. -/
structure Rebuilt (h : RbHead ι κ) (t : Colors ι κ) (h' : RbHead ι κ) (t' : Colors ι κ) : Prop where
  holds : h'.Holds t'
  entries_eq : entries t' = entries t
  outside : ∀ i ∉ addresses t, h'.nodes i = h.nodes i

variable {h h₁ h₂ : RbHead ι κ} {t t₁ t₂ A B C : Colors ι κ} {a b c : ι × Colored κ} {d : Side}
  {fs : List (Frame ι (Colored κ))} {i : ι} {p : Option ι}

omit [DecidableEq ι] in
theorem Rebuilt.addresses_eq (h : Rebuilt h₁ t₁ h₂ t₂) : addresses t₂ = addresses t₁ := by
  rw [addresses_eq_map_entries, h.entries_eq, addresses_eq_map_entries]

omit [DecidableEq ι] in
theorem Rebuilt.refl (hh : h.Holds t) : Rebuilt h t h t := ⟨hh, rfl, fun _ _ ↦ rfl⟩

omit [DecidableEq ι] in
theorem Rebuilt.trans (h₁₂ : Rebuilt h t h₁ t₁) (h₂₃ : Rebuilt h₁ t₁ h₂ t₂) :
    Rebuilt h t h₂ t₂ where
  holds := h₂₃.holds
  entries_eq := h₂₃.entries_eq.trans h₁₂.entries_eq
  outside i hi := (h₂₃.outside i (h₁₂.addresses_eq ▸ hi)).trans (h₁₂.outside i hi)

theorem assign_of_some {n : Node ι (Colored κ)} {g : Node ι (Colored κ) → Node ι (Colored κ)}
    (hn : h.nodes i = some n) : h.assign i g = some { h with nodes := modify h.nodes i g } := by
  rw [assign, hn, Option.map_some]

/-- The side of a node in its parent, when the sibling is another node. -/
theorem sideOf_mkNode {inner parent : Option ι} {data : Colored κ} (hne : inner ≠ p) :
    sideOf (mkNode d inner p parent data) p = d := by
  cases d with
  | left => exact if_pos rfl
  | right => exact if_neg hne

omit [DecidableEq ι] in
/-- The root of a subtree is not that of its sibling. -/
theorem root_sibling_ne {f : Frame ι (Colored κ)} (fs : List (Frame ι (Colored κ)))
    (hh : h.Holds (plug (f :: fs) t))
    (hi : root t = some i) : root f.sibling ≠ some i := fun heq ↦
  (nodup_plug.1 hh.nodup).2.2 i
    (mem_frameAddresses_cons.2 (Or.inr (Or.inl (mem_addresses_of_root heq))))
    (mem_addresses_of_root hi)

omit [DecidableEq ι] in
/-- **Rebuilding a subtree** in its place: the frames have its root and are left alone otherwise. -/
theorem Rebuilt.plug (hh : h.Holds (plug fs t)) (hentries : entries t₁ = entries t)
    (hframes : FramesStored h₁.nodes fs (root t₁)) (hstored : Stored h₁.nodes (above fs) t₁)
    (hroot : h₁.rbhRoot = root (plug fs t₁))
    (hkeep : ∀ i ∉ frameAddresses fs, i ∉ addresses t → h₁.nodes i = h.nodes i) :
    Rebuilt h (plug fs t) h₁ (plug fs t₁) where
  holds := by
    refine ⟨hroot, stored_plug.2 ⟨hframes, hstored⟩, ?_⟩
    rw [addresses_eq_map_entries, entries_plug_congr hentries, ← addresses_eq_map_entries]
    exact hh.nodup
  entries_eq := entries_plug_congr hentries
  outside i hi := by
    rw [mem_addresses_plug, not_or] at hi
    exact hkeep i hi.1 hi.2

/-- **Painting a node.** -/
theorem setColor_spec (fs : List (Frame ι (Colored κ))) (col : Color)
    (hh : h.Holds (plug fs (branch d c A B))) :
    ∃ h', h.setColor col c.1 = some h' ∧
      Rebuilt h (plug fs (branch d c A B)) h' (plug fs (branch d (paint col c) A B)) := by
  have hnode := hh.node fs
  obtain ⟨hframes, hsub⟩ := stored_plug.1 hh.stored
  obtain ⟨-, hA, hB⟩ := stored_branch.1 hsub
  obtain ⟨-, hnodup, hdisjoint⟩ := nodup_plug.1 hh.nodup
  obtain ⟨hcA, hcB, -⟩ := nodup_branch.1 hnodup
  have hcfs : c.1 ∉ frameAddresses fs := fun hmem ↦
    hdisjoint _ hmem (mem_addresses_branch.2 (Or.inl rfl))
  refine ⟨_, assign_of_some hnode, .plug hh entries_paint ?_ (stored_branch.2
    ⟨?_, hA.modify_of_notMem hcA _, hB.modify_of_notMem hcB _⟩) ?_ fun i _ hi ↦ ?_⟩
  · rw [root_branch] at hframes ⊢
    exact hframes.modify_of_notMem hcfs _
  · refine (modify_eq_some hnode _).trans ?_
    cases d <;> rfl
  · cases fs with
    | nil => rw [plug, root_branch, paint_fst, hh.root_eq, plug, root_branch]
    | cons f fs => exact hh.root_eq.trans (root_plug_cons _ _)
  · exact modify_of_ne fun heq ↦ hi (mem_addresses_branch.2 (Or.inl heq))

/-- **The node above is told** of another root of the subtree. -/
theorem replaceChild_spec (h₁ : RbHead ι κ) {q : Option ι} (hi : root t = some i)
    (hh : h.Holds (plug fs t)) (hframes : FramesStored h₁.nodes fs (some i))
    (hroot : h₁.rbhRoot = h.rbhRoot) :
    ∃ h₂, h₁.replaceChild (above fs) (some i) q = some h₂ ∧ FramesStored h₂.nodes fs q ∧
      (∀ s, root s = q → h₂.rbhRoot = root (plug fs s)) ∧
      ∀ j, j ∉ frameAddresses fs → h₂.nodes j = h₁.nodes j := by
  cases fs with
  | nil => exact ⟨{ h₁ with rbhRoot := q }, rfl, trivial, fun s hs ↦ hs.symm, fun _ _ ↦ rfl⟩
  | cons f fs =>
    have hside : sideOf (mkNode f.side (root f.sibling) (some i) (above fs) f.node.2) (some i) =
        f.side := sideOf_mkNode (root_sibling_ne fs hh hi)
    refine ⟨{ h₁ with nodes := modify h₁.nodes f.node.1 (Node.setChild f.side q) }, ?_,
      hframes.setChild (nodup_plug.1 hh.nodup).1 q,
      fun s _ ↦ (hroot.trans hh.root_eq).trans (root_plug_cons _ _), fun j hj ↦ ?_⟩
    · show (h₁.nodes f.node.1).bind _ = _
      rw [hframes.1, Option.bind_some, hside]
      exact assign_of_some hframes.1
    · exact modify_of_ne fun heq ↦ hj (mem_frameAddresses_cons.2 (Or.inl heq))

/-- The memory in which `b` is about to take the place of `a`. -/
def lifting (d : Side) (mem : Memory ι (Colored κ)) (a b : ι) (inner parent : Option ι) :
    Memory ι (Colored κ) :=
  modify (adopt (modify mem a (Node.setChild d inner)) inner (some a)) b (Node.setParent parent)

theorem lifting_of_ne {mem : Memory ι (Colored κ)} {x y : ι} {inner parent : Option ι}
    (hx : i ≠ x) (hy : i ≠ y) (hinner : inner ≠ some i) :
    lifting d mem x y inner parent i = mem i := by
  rw [lifting, modify_of_ne hy, adopt_of_ne hinner, modify_of_ne hx]

/-- `if (p) RB_PARENT(p, field) = elm;`, for the root of a subtree. -/
theorem setParentOf_eq {q : Option ι} (hs : Stored h.nodes q t) (p : Option ι) :
    h.setParentOf (root t) p = some { h with nodes := adopt h.nodes (root t) p } := by
  cases t with
  | nil => rfl
  | node c l r => exact assign_of_some hs.1

section Rotate

variable (hh : h.Holds (plug fs (branch d a A (branch d b B C))))

include hh

omit [DecidableEq ι] in
/-- No node of the place of a rotation is also another. -/
theorem nodup_place : a.1 ≠ b.1 ∧ (a.1 ∉ addresses A ∧ a.1 ∉ addresses B ∧ a.1 ∉ addresses C) ∧
    (b.1 ∉ addresses A ∧ b.1 ∉ addresses B ∧ b.1 ∉ addresses C) ∧ (addresses B).Nodup ∧
    (∀ i ∈ addresses A, i ∉ addresses B) ∧ (∀ i ∈ addresses C, i ∉ addresses B) ∧
    ∀ i ∈ frameAddresses fs, i ≠ a.1 ∧ i ∉ addresses A ∧ i ≠ b.1 ∧ i ∉ addresses B ∧
      i ∉ addresses C := by
  obtain ⟨-, hplace, hframes⟩ := nodup_plug.1 hh.nodup
  obtain ⟨haA, ha, -, hb, hA⟩ := nodup_branch.1 hplace
  obtain ⟨hbB, hbC, hB, -, hBC⟩ := nodup_branch.1 hb
  simp only [mem_addresses_branch, not_or] at ha hA hframes
  exact ⟨ha.1, ⟨haA, ha.2.1, ha.2.2⟩, ⟨fun hi ↦ (hA _ hi).1 rfl, hbB, hbC⟩, hB,
    fun i hi ↦ (hA i hi).2.1, fun i hi hmem ↦ hBC i hmem hi, hframes⟩

/-- The code, up to the assignment to the node above. -/
theorem rotate_eq_replaceChild : rotate d a.1 h =
    (replaceChild (above fs) (some a.1) (some b.1)
      { h with nodes := lifting d h.nodes a.1 b.1 (root B) (above fs) }).bind fun h ↦
        (h.assign b.1 (Node.setChild d.other (some a.1))).bind fun h ↦
          h.assign a.1 (Node.setParent (some b.1)) := by
  obtain ⟨hab, ⟨-, haB, -⟩, ⟨-, hbB, -⟩, -⟩ := nodup_place hh
  obtain ⟨-, hplace⟩ := stored_plug.1 hh.stored
  obtain ⟨ha, -, hsub⟩ := stored_branch.1 hplace
  obtain ⟨hb, hB, -⟩ := stored_branch.1 hsub
  rw [root_branch] at ha
  have hB₁ := hB.modify_of_notMem haB (Node.setChild d (root B))
  have hinner : ∀ {x : ι}, x ∉ addresses B → root B ≠ some x := fun hx heq ↦
    hx (mem_addresses_of_root heq)
  have ha₂ : adopt (modify h.nodes a.1 (Node.setChild d (root B))) (root B) (some a.1) a.1 =
      some (mkNode d (root A) (root B) (above fs) a.2) := by
    rw [adopt_of_ne (hinner haB), modify_eq_some ha, setChild_mkNode]
  have hb₂ : adopt (modify h.nodes a.1 (Node.setChild d (root B))) (root B) (some a.1) b.1 =
      some (mkNode d (root B) (root C) (some a.1) b.2) := by
    rw [adopt_of_ne (hinner hbB), modify_of_ne hab.symm, hb]
  have hstep₁ := assign_of_some (g := Node.setChild d (root B)) ha
  have hstep₂ := setParentOf_eq (h := { h with
    nodes := modify h.nodes a.1 (Node.setChild d (root B)) }) hB₁ (some a.1)
  have hstep₃ := assign_of_some (g := Node.setParent (above fs)) (h := { h with
    nodes := adopt (modify h.nodes a.1 (Node.setChild d (root B))) (root B) (some a.1) }) hb₂
  simp only [rotate, ha, hb, child_mkNode, child_other_mkNode, hstep₁, hstep₂, ha₂, parent_mkNode,
    hstep₃, Option.bind_eq_bind, Option.bind_some]
  rfl

/-- **A rotation** rebuilds the subtree in its place. -/
theorem rotate_holds : ∃ h', rotate d a.1 h = some h' ∧
    Rebuilt h (plug fs (branch d a A (branch d b B C))) h'
      (plug fs (branch d b (branch d a A B) C)) := by
  obtain ⟨hab, ⟨haA, haB, haC⟩, ⟨hbA, hbB, hbC⟩, hB, hAB, hCB, hout⟩ := nodup_place hh
  obtain ⟨hframes, hplace⟩ := stored_plug.1 hh.stored
  obtain ⟨ha, hA, hsub⟩ := stored_branch.1 hplace
  obtain ⟨hb, hB', hC⟩ := stored_branch.1 hsub
  rw [root_branch] at ha hframes
  have hinner : ∀ {x : ι}, x ∉ addresses B → root B ≠ some x := fun hx heq ↦
    hx (mem_addresses_of_root heq)
  have hframes₁ : FramesStored (lifting d h.nodes a.1 b.1 (root B) (above fs)) fs (some a.1) :=
    hframes.congr fun i hi ↦
      let ⟨hia, _, hib, hiB, _⟩ := hout i hi
      lifting_of_ne hia hib (hinner hiB)
  obtain ⟨h₂, hrun, hframes₂, hroot, hkeep⟩ := replaceChild_spec { h with
    nodes := lifting d h.nodes a.1 b.1 (root B) (above fs) } (q := some b.1)
    (root_branch (d := d) (c := a)) hh hframes₁ rfl
  have hafs : a.1 ∉ frameAddresses fs := fun hmem ↦ (hout _ hmem).1 rfl
  have hbfs : b.1 ∉ frameAddresses fs := fun hmem ↦ (hout _ hmem).2.2.1 rfl
  have hkeep' : ∀ i, i ∉ frameAddresses fs → i ≠ a.1 → i ≠ b.1 → i ∉ addresses B →
      h₂.nodes i = h.nodes i := fun i hi hia hib hiB ↦
    (hkeep i hi).trans (lifting_of_ne hia hib (hinner hiB))
  -- `b` has the parent of `a`, and `a` the inner subtree
  have hb₂ : h₂.nodes b.1 = some (mkNode d (root B) (root C) (above fs) b.2) := by
    have hadopt : adopt (modify h.nodes a.1 (Node.setChild d (root B))) (root B) (some a.1) b.1 =
        some (mkNode d (root B) (root C) (some a.1) b.2) := by
      rw [adopt_of_ne (hinner hbB), modify_of_ne hab.symm, hb]
    rw [hkeep _ hbfs]
    exact (modify_eq_some hadopt _).trans (by rw [setParent_mkNode])
  have ha₂ : h₂.nodes a.1 = some (mkNode d (root A) (root B) (above fs) a.2) := by
    rw [hkeep _ hafs]
    refine (modify_of_ne hab).trans ?_
    rw [adopt_of_ne (hinner haB), modify_eq_some ha, setChild_mkNode]
  have hB₂ : Stored h₂.nodes (some a.1) B := by
    have hlift := ((hB'.modify_of_notMem haB (Node.setChild d (root B))).adopt hB
      (some a.1)).modify_of_notMem hbB (Node.setParent (above fs))
    exact hlift.congr fun i hi ↦ hkeep i fun hmem ↦ (hout i hmem).2.2.2.1 hi
  have hA₂ : Stored h₂.nodes (some a.1) A := hA.congr fun i hi ↦
    hkeep' i (fun hmem ↦ (hout i hmem).2.1 hi) (ne_of_mem_of_not_mem hi haA)
      (ne_of_mem_of_not_mem hi hbA) (hAB i hi)
  have hC₂ : Stored h₂.nodes (some b.1) C := hC.congr fun i hi ↦
    hkeep' i (fun hmem ↦ (hout i hmem).2.2.2.2 hi) (ne_of_mem_of_not_mem hi haC)
      (ne_of_mem_of_not_mem hi hbC) (hCB i hi)
  -- the last two assignments turn the edge between them round
  have ha₃ : modify h₂.nodes b.1 (Node.setChild d.other (some a.1)) a.1 =
      some (mkNode d (root A) (root B) (above fs) a.2) := (modify_of_ne hab).trans ha₂
  have hrotate : rotate d a.1 h = some { h₂ with
      nodes := modify (modify h₂.nodes b.1 (Node.setChild d.other (some a.1))) a.1
        (Node.setParent (some b.1)) } := by
    rw [rotate_eq_replaceChild hh, hrun, Option.bind_some, assign_of_some hb₂, Option.bind_some]
    exact assign_of_some ha₃
  have hlast : ∀ {q : Option ι} {s : Colors ι κ}, Stored h₂.nodes q s → a.1 ∉ addresses s →
      b.1 ∉ addresses s → Stored (modify (modify h₂.nodes b.1 (Node.setChild d.other (some a.1)))
        a.1 (Node.setParent (some b.1))) q s := fun hs hsa hsb ↦
    (hs.modify_of_notMem hsb _).modify_of_notMem hsa _
  refine ⟨_, hrotate, .plug hh entries_rotate ?_ (stored_branch.2
    ⟨?_, stored_branch.2 ⟨?_, hlast hA₂ haA hbA, hlast hB₂ haB hbB⟩, hlast hC₂ haC hbC⟩) ?_
    fun i hifs hi ↦ ?_⟩
  · rw [root_branch]
    exact (hframes₂.modify_of_notMem hbfs _).modify_of_notMem hafs _
  · refine (modify_of_ne hab.symm).trans ((modify_eq_some hb₂ _).trans ?_)
    rw [setChild_other_mkNode, root_branch]
  · refine (modify_eq_some ha₃ _).trans ?_
    rw [setParent_mkNode]
  · exact hroot _ root_branch
  · simp only [mem_addresses_branch, not_or] at hi
    exact (modify_of_ne hi.1).trans ((modify_of_ne hi.2.2.1).trans
      (hkeep' i hifs hi.1 hi.2.2.1 hi.2.2.2.1))

end Rotate

end RbHead

end PreforkHttpd
