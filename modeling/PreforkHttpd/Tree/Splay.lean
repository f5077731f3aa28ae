import Mathlib.Data.Int.Notation
import PreforkHttpd.Memory.TreeSurgery

/-!
# The splay tree of `tree.h`: the splaying

The `SPLAY_` macros of `utils/tree.h` work on the root pointer of a head and on the nodes in memory,
of which they read and write the two children. `SPLAY` takes the tree apart on its way down: what is
passed on the left hangs on the right field of a local node, and what is passed on the right on its
left field, and in the end the two are put below the element that was reached.

The two sides are mirror images, and here a `Side` is given. `tail d` is the element whose field on
side `d` is the next to be written, `__right` for the left side and `__left` for the right. While
the loop runs, the elements that it has passed are frames around the tree that is left, each side
with its own (`Apart`), and the field at the end of each side may hold anything.

`splay_spec` is the result: the same elements in the same order, with one at the root that no other
is closer than.
-/

open LinkedTree

namespace PreforkHttpd

/-- `SPLAY_HEAD`, and the elements in memory. -/
structure SplayHead (ι κ : Type) where
  /-- `sph_root`. -/
  sphRoot : Option ι
  nodes : Memory ι κ

/-- The head while `SPLAY` is running, and its local variables. -/
structure Splaying (ι κ : Type) where
  head : SplayHead ι κ
  /-- The fields of `__node`. -/
  node : Side → Option ι
  /-- `__right` and `__left`: null stands for the address of `__node`. -/
  tail : Side → Option ι

variable {ι κ : Type} [DecidableEq ι]

/-! ### The macros -/

namespace SplayHead

/-- An assignment to a field of the element at `i`. -/
def assign (i : ι) (d : Side) (p : Option ι) (h : SplayHead ι κ) : Option (SplayHead ι κ) :=
  (h.nodes i).map fun _ ↦ { h with nodes := modify h.nodes i (Node.setChild d p) }

/-- `SPLAY_ROTATE_RIGHT` brings up the left child, `SPLAY_ROTATE_LEFT` the right. -/
def rotate (d : Side) (tmp : ι) (h : SplayHead ι κ) : Option (SplayHead ι κ) := do
  let root ← h.sphRoot
  let n ← h.nodes tmp
  let h ← h.assign root d (n.child d.other)
  let h ← h.assign tmp d.other (some root)
  some { h with sphRoot := some tmp }

end SplayHead

namespace Splaying

/-- `SPLAY_LEFT(__right, field) = p`, or the same of the other side. -/
def setTail (d : Side) (p : Option ι) (s : Splaying ι κ) : Option (Splaying ι κ) :=
  match s.tail d with
  | none => some { s with node := Function.update s.node d p }
  | some i => (s.head.assign i d p).map fun h ↦ { s with head := h }

/-- `SPLAY_LINKLEFT`, `SPLAY_LINKRIGHT`. -/
def link (d : Side) (s : Splaying ι κ) : Option (Splaying ι κ) := do
  let root ← s.head.sphRoot
  let s ← s.setTail d (some root)
  let n ← s.head.nodes root
  some { s with
    head := { s.head with sphRoot := n.child d }
    tail := Function.update s.tail d (some root) }

/-- `SPLAY_ASSEMBLE`. -/
def assemble (s : Splaying ι κ) : Option (SplayHead ι κ) := do
  let root ← s.head.sphRoot
  let s ← s.setTail .right (← s.head.nodes root).left
  let s ← s.setTail .left (← s.head.nodes root).right
  let h ← s.head.assign root .left (s.node .right)
  h.assign root .right (s.node .left)

/-- The result of a comparison leads to this side. -/
def Leads : Side → ℤ → Prop
  | .left, comp => comp < 0
  | .right, comp => 0 < comp

instance (d : Side) (comp : ℤ) : Decidable (Leads d comp) :=
  match d with
  | .left => inferInstanceAs (Decidable (comp < 0))
  | .right => inferInstanceAs (Decidable (0 < comp))

/-- The loop of `SPLAY`, where `comp` is the comparison of the element with a key, and that of
`SPLAY_MINMAX`, where it is constant. -/
def loop (comp : κ → ℤ) : ℕ → Splaying ι κ → Option (Splaying ι κ)
  | 0, _ => none
  | fuel + 1, s => do
    let root ← s.head.sphRoot
    let n ← s.head.nodes root
    if comp n.data = 0 then some s
    else
      let d : Side := if comp n.data < 0 then .left else .right
      match n.child d with
      | none => some s
      | some tmp =>
        let m ← s.head.nodes tmp
        if Leads d (comp m.data) then
          let h ← s.head.rotate d tmp
          let n ← h.nodes (← h.sphRoot)
          if n.child d = none then some { s with head := h }
          else (link d { s with head := h }).bind (loop comp fuel)
        else (s.link d).bind (loop comp fuel)

end Splaying

/-- `SPLAY` and `SPLAY_MINMAX`. -/
def SplayHead.splay (comp : κ → ℤ) (fuel : ℕ) (h : SplayHead ι κ) : Option (SplayHead ι κ) :=
  (Splaying.loop comp fuel ⟨h, fun _ ↦ none, fun _ ↦ none⟩).bind Splaying.assemble

/-! ### Single steps -/

variable {mem : Memory ι κ} {h : SplayHead ι κ} {s : Splaying ι κ} {d : Side} {i : ι}
  {p q : Option ι} {a : κ} {c b : ι × κ} {t A B X Y : BinaryTree (ι × κ)}
  {gs : Side → List (Frame ι κ)}

omit [DecidableEq ι] in
/-- What the links of a node say about it. -/
theorem exists_node_of_links (hlinks : links d mem i = some (p, q, a)) :
    ∃ n, mem i = some n ∧ n.child d.other = p ∧ n.child d = q ∧ n.data = a := by
  obtain ⟨n, hn, heq⟩ := Option.map_eq_some_iff.1 hlinks
  simp only [Prod.mk.injEq] at heq
  exact ⟨n, hn, heq⟩

theorem SplayHead.assign_of_links {l : Option ι × Option ι × κ}
    (hlinks : links d h.nodes i = some l) (e : Side) (p : Option ι) :
    h.assign i e p = some { h with nodes := modify h.nodes i (Node.setChild e p) } := by
  obtain ⟨n, hn, -⟩ := exists_node_of_links hlinks
  rw [assign, hn, Option.map_some]

namespace Splaying

/-- **The tree is taken apart**: the head has the tree `t`, and on each side `d` hang the elements
that were passed, `gs d`. -/
structure Apart (s : Splaying ι κ) (gs : Side → List (Frame ι κ)) (t : BinaryTree (ι × κ)) :
    Prop where
  root_eq : s.head.sphRoot = root t
  linked : Linked s.head.nodes t
  nodup : (addresses t).Nodup
  frames : ∀ d, ∃ p, FramesLinked s.head.nodes (gs d) p
  frames_nodup : ∀ d, (frameAddresses (gs d)).Nodup
  disjoint : ∀ d, ∀ i ∈ frameAddresses (gs d),
    i ∉ frameAddresses (gs d.other) ∧ i ∉ addresses t
  side_eq : ∀ d, ∀ f ∈ gs d, f.side = d
  tail_eq : ∀ d, s.tail d = above (gs d)
  node_eq : ∀ d, gs d ≠ [] → s.node d = root (plug (gs d) .nil)

omit [DecidableEq ι] in
theorem side_cases (d e : Side) : e = d ∨ e = d.other := by
  cases d <;> cases e <;> simp [Side.other]

omit [DecidableEq ι] in
theorem other_ne (d : Side) : d.other ≠ d := by cases d <;> nofun

/-- **An assignment to the end of a side** is all that happens. -/
theorem setTail_spec (hs : s.Apart gs t) (d : Side) (q : Option ι) :
    ∃ s', s.setTail d q = some s' ∧ s'.Apart gs t ∧ FramesLinked s'.head.nodes (gs d) q ∧
      (∀ X, root X = q → s'.node d = root (plug (gs d) X)) ∧
      s'.node d.other = s.node d.other ∧
      ∀ j ∉ frameAddresses (gs d), s'.head.nodes j = s.head.nodes j := by
  have hne := other_ne d
  have htail := hs.tail_eq d
  rcases hgs : gs d with - | ⟨f, fs⟩
  · rw [hgs] at htail
    refine ⟨{ s with node := Function.update s.node d q }, by rw [setTail, htail]; rfl, ?_, trivial,
      fun X hX ↦ ?_, Function.update_of_ne hne _ _, fun _ _ ↦ rfl⟩
    · refine { hs with node_eq := fun e he ↦ ?_ }
      have hed : e ≠ d := fun heq ↦ he (heq ▸ hgs)
      exact (Function.update_of_ne hed _ _).trans (hs.node_eq e he)
    · exact (Function.update_self _ _ _).trans hX.symm
  · rw [hgs] at htail
    have hside : f.side = d := hs.side_eq d f (hgs ▸ List.mem_cons_self)
    obtain ⟨p, hp⟩ := hs.frames d
    rw [hgs] at hp
    have hnodup := hs.frames_nodup d
    have hdisjoint := hs.disjoint d
    have hmem : f.node.1 ∈ frameAddresses (gs d) := hgs ▸ mem_frameAddresses_cons.2 (Or.inl rfl)
    have hset := hp.setChild (hgs ▸ hnodup) q
    have hkeep : ∀ {l : List ι}, f.node.1 ∉ l → ∀ i ∈ l,
        links .left (modify s.head.nodes f.node.1 (Node.setChild d q)) i =
          links .left s.head.nodes i :=
      fun hl i hi ↦ links_modify_of_ne fun heq ↦ hl (heq ▸ hi)
    rw [hside] at hset
    refine ⟨{ s with head := { s.head with
      nodes := modify s.head.nodes f.node.1 (Node.setChild d q) } }, ?_, ?_, hset, fun X hX ↦ ?_,
      rfl, fun j hj ↦ modify_of_ne fun heq ↦ hj (heq ▸ mem_frameAddresses_cons.2 (Or.inl rfl))⟩
    · rw [setTail, htail]
      show Option.map _ (s.head.assign f.node.1 d q) = _
      rw [SplayHead.assign_of_links hp.1, Option.map_some]
    · refine { hs with
        linked := hs.linked.congr (hkeep (hdisjoint _ hmem).2)
        frames := fun e ↦ ?_ }
      rcases side_cases d e with rfl | rfl
      · exact ⟨q, hgs ▸ hset⟩
      · obtain ⟨p', hp'⟩ := hs.frames d.other
        exact ⟨p', hp'.congr (hkeep (hdisjoint _ hmem).1)⟩
    · rw [root_plug_cons X .nil, ← hgs]
      exact hs.node_eq d (hgs ▸ List.cons_ne_nil _ _)

/-- **The root goes to a side**, and its child on that side is the new root. -/
theorem link_spec (hs : s.Apart gs (branch d c A B)) :
    ∃ s', s.link d = some s' ∧ s'.Apart (Function.update gs d (⟨d, c, A⟩ :: gs d)) B ∧
      ∀ j ∉ frameAddresses (gs d), s'.head.nodes j = s.head.nodes j := by
  have hne := other_ne d
  have hroot : s.head.sphRoot = some c.1 := hs.root_eq.trans root_branch
  obtain ⟨s', hset, hs', hframes, hnode, -, hout⟩ := setTail_spec hs d (some c.1)
  obtain ⟨hlinks, hA, hB⟩ := linked_branch.1 hs'.linked
  obtain ⟨n, hn, -, hchild, -⟩ := exists_node_of_links hlinks
  obtain ⟨hcA, hcB, hAnodup, hBnodup, hAB⟩ := nodup_branch.1 hs'.nodup
  have hdisjoint : ∀ e, ∀ i ∈ frameAddresses (gs e),
      i ≠ c.1 ∧ i ∉ addresses A ∧ i ∉ addresses B := fun e i hi ↦ by
    have hnot := (hs'.disjoint e i hi).2
    rw [mem_addresses_branch, not_or, not_or] at hnot
    exact hnot
  refine ⟨{ s' with
    head := { s'.head with sphRoot := root B }
    tail := Function.update s'.tail d (some c.1) }, ?_, ?_, hout⟩
  · rw [link, hroot, Option.bind_eq_bind, Option.bind_some, hset, Option.bind_eq_bind,
      Option.bind_some, hn, Option.bind_eq_bind, Option.bind_some, hchild]
  refine ⟨rfl, hB, hBnodup, fun e ↦ ?_, fun e ↦ ?_, fun e i hi ↦ ?_, fun e f hf ↦ ?_, fun e ↦ ?_,
    fun e he ↦ ?_⟩
  · rcases side_cases d e with rfl | rfl
    · rw [Function.update_self]
      exact ⟨root B, hlinks, hA, hframes⟩
    · rw [Function.update_of_ne hne]
      exact hs'.frames _
  · rcases side_cases d e with rfl | rfl
    · rw [Function.update_self, frameAddresses, List.flatMap_cons, List.cons_append,
        List.nodup_cons, List.mem_append, not_or, List.nodup_append']
      exact ⟨⟨hcA, fun hi ↦ (hdisjoint _ _ hi).1 rfl⟩, hAnodup, hs'.frames_nodup _,
        fun i hi hi' ↦ (hdisjoint _ i hi').2.1 hi⟩
    · rw [Function.update_of_ne hne]
      exact hs'.frames_nodup _
  · rcases side_cases d e with rfl | rfl
    · rw [Function.update_self] at hi
      rw [Function.update_of_ne hne]
      obtain rfl | hi | hi := mem_frameAddresses_cons.1 hi
      · exact ⟨fun hi ↦ (hdisjoint _ _ hi).1 rfl, hcB⟩
      · exact ⟨fun hi' ↦ (hdisjoint _ i hi').2.1 hi, hAB i hi⟩
      · exact ⟨(hs'.disjoint _ i hi).1, (hdisjoint _ i hi).2.2⟩
    · rw [Function.update_of_ne hne] at hi
      rw [Side.other_other, Function.update_self]
      refine ⟨fun hi' ↦ ?_, (hdisjoint _ i hi).2.2⟩
      obtain rfl | hi' | hi' := mem_frameAddresses_cons.1 hi'
      · exact (hdisjoint _ _ hi).1 rfl
      · exact (hdisjoint _ i hi).2.1 hi'
      · exact (hs'.disjoint _ i hi').1 hi
  · rcases side_cases d e with rfl | rfl
    · rw [Function.update_self] at hf
      obtain rfl | hf := List.mem_cons.1 hf
      · rfl
      · exact hs'.side_eq _ f hf
    · rw [Function.update_of_ne hne] at hf
      exact hs'.side_eq _ f hf
  · rcases side_cases d e with rfl | rfl
    · rw [Function.update_self]
      exact Function.update_self _ _ _
    · rw [Function.update_of_ne hne]
      exact (Function.update_of_ne hne _ _).trans (hs'.tail_eq _)
  · rcases side_cases d e with rfl | rfl
    · rw [Function.update_self]
      exact hnode (branch _ c A .nil) root_branch
    · rw [Function.update_of_ne hne] at he ⊢
      exact hs'.node_eq _ he

/-- **The rotation** of a root whose child on side `d` has the key on its side `d` as well. -/
theorem rotate_spec (hs : s.Apart gs (branch d c A (branch d b X Y))) :
    ∃ h, s.head.rotate d b.1 = some h ∧
      Apart { s with head := h } gs (branch d b (branch d c A X) Y) ∧
      ∀ j ∉ addresses (branch d c A (branch d b X Y)), h.nodes j = s.head.nodes j := by
  have hroot : s.head.sphRoot = some c.1 := hs.root_eq.trans root_branch
  obtain ⟨hc, hA, hB⟩ := linked_branch.1 hs.linked
  obtain ⟨hb, hX, hY⟩ := linked_branch.1 hB
  obtain ⟨n, hn, hinner, -, -⟩ := exists_node_of_links hb
  obtain ⟨hcA, hcB, hAnodup, hBnodup, hAB⟩ := nodup_branch.1 hs.nodup
  obtain ⟨hbX, hbY, hXnodup, hYnodup, hXY⟩ := nodup_branch.1 hBnodup
  have hcb : c.1 ≠ b.1 := fun heq ↦ hcB (mem_addresses_branch.2 (Or.inl heq))
  have hcX : c.1 ∉ addresses X := fun hi ↦ hcB (mem_addresses_branch.2 (Or.inr (Or.inl hi)))
  have hcY : c.1 ∉ addresses Y := fun hi ↦ hcB (mem_addresses_branch.2 (Or.inr (Or.inr hi)))
  have hbA : b.1 ∉ addresses A := fun hi ↦ hAB _ hi (mem_addresses_branch.2 (Or.inl rfl))
  have hAX : ∀ i ∈ addresses A, i ∉ addresses X := fun i hi hi' ↦
    hAB i hi (mem_addresses_branch.2 (Or.inr (Or.inl hi')))
  have hAY : ∀ i ∈ addresses A, i ∉ addresses Y := fun i hi hi' ↦
    hAB i hi (mem_addresses_branch.2 (Or.inr (Or.inr hi')))
  -- the two assignments
  let m := modify s.head.nodes c.1 (Node.setChild d (root X))
  let m' := modify m b.1 (Node.setChild d.other (some c.1))
  have hmb : links d m b.1 = some (root X, root Y, b.2) :=
    (links_modify_of_ne hcb.symm).trans hb
  have hmc : links d m c.1 = some (root A, root X, c.2) := by
    rw [links_setChild, hc]
    rfl
  have hkeep : ∀ {l : List ι}, c.1 ∉ l → b.1 ∉ l → ∀ i ∈ l,
      links .left m' i = links .left s.head.nodes i := fun hl hl' i hi ↦ by
    have hic : i ≠ c.1 := fun heq ↦ hl (heq ▸ hi)
    have hib : i ≠ b.1 := fun heq ↦ hl' (heq ▸ hi)
    exact (links_modify_of_ne hib).trans (links_modify_of_ne hic)
  have hsame : ∀ i, i ∈ addresses (branch d b (branch d c A X) Y) ↔
      i ∈ addresses (branch d c A (branch d b X Y)) := fun i ↦ by
    simp only [mem_addresses_branch]
    tauto
  have hframe : ∀ e, c.1 ∉ frameAddresses (gs e) ∧ b.1 ∉ frameAddresses (gs e) := fun e ↦
    ⟨fun hi ↦ (hs.disjoint e _ hi).2 (mem_addresses_branch.2 (Or.inl rfl)), fun hi ↦
      (hs.disjoint e _ hi).2 (mem_addresses_branch.2 (Or.inr (Or.inr
        (mem_addresses_branch.2 (Or.inl rfl)))))⟩
  refine ⟨⟨some b.1, m'⟩, ?_, ?_, fun j hj ↦ ?_⟩
  · rw [SplayHead.rotate, hroot, Option.bind_eq_bind, Option.bind_some, hn, Option.bind_eq_bind,
      Option.bind_some, hinner, SplayHead.assign_of_links hc, Option.bind_eq_bind,
      Option.bind_some, SplayHead.assign_of_links hmb]
    rfl
  · refine { hs with
      root_eq := root_branch.symm
      linked := linked_branch.2 ⟨?_, linked_branch.2 ⟨?_, hA.congr (hkeep hcA hbA),
        hX.congr (hkeep hcX hbX)⟩, hY.congr (hkeep hcY hbY)⟩
      nodup := nodup_branch.2 ⟨?_, hbY, nodup_branch.2 ⟨hcA, hcX, hAnodup, hXnodup, hAX⟩,
        hYnodup, ?_⟩
      frames := fun e ↦ (hs.frames e).imp fun p hp ↦
        hp.congr (hkeep (hframe e).1 (hframe e).2)
      disjoint := fun e i hi ↦ ⟨(hs.disjoint e i hi).1, mt (hsame i).1 (hs.disjoint e i hi).2⟩ }
    · show links d m' b.1 = _
      rw [links_setChild_other, hmb, root_branch]
      rfl
    · exact (links_modify_of_ne hcb).trans hmc
    · rw [mem_addresses_branch, not_or, not_or]
      exact ⟨hcb.symm, hbA, hbX⟩
    · intro i hi
      obtain rfl | hi | hi := mem_addresses_branch.1 hi
      · exact hcY
      · exact hAY i hi
      · exact hXY i hi
  · simp only [mem_addresses_branch, not_or] at hj
    exact (modify_of_ne hj.2.2.1).trans (modify_of_ne hj.1)

/-- **The two sides are put below the root.** -/
theorem assemble_spec (hs : s.Apart gs (.node c A B)) :
    ∃ h, s.assemble = some h ∧
      Held h.nodes h.sphRoot (.node c (plug (gs .right) A) (plug (gs .left) B)) ∧
      ∀ j ≠ c.1, (∀ d, j ∉ frameAddresses (gs d)) → h.nodes j = s.head.nodes j := by
  have hroot : s.head.sphRoot = some c.1 := hs.root_eq
  obtain ⟨n, hn, hleft, -, -⟩ := exists_node_of_links hs.linked.1
  obtain ⟨s₁, hset₁, hs₁, hright, hnode₁, -, hout₁⟩ := setTail_spec hs .right (root A)
  obtain ⟨n₁, hn₁, -, hright₁, -⟩ := exists_node_of_links hs₁.linked.1
  obtain ⟨s₂, hset₂, hs₂, hframes, hnode₂, hother, hout⟩ := setTail_spec hs₁ .left (root B)
  have hframes₁ : FramesLinked s₂.head.nodes (gs .right) (root A) :=
    hright.congr (d := .left) fun i hi ↦ by
      rw [links, hout i fun hi' ↦ (hs₁.disjoint .left i hi').1 hi, links]
  have hL : s₂.node .right = root (plug (gs .right) A) := hother.trans (hnode₁ A rfl)
  have hR : s₂.node .left = root (plug (gs .left) B) := hnode₂ B rfl
  obtain ⟨hlinks, hA, hB⟩ := hs₂.linked
  obtain ⟨hcA, hcB, hAnodup, hBnodup, hAB⟩ := nodup_branch (d := .right).1 hs₂.nodup
  have hdisjoint : ∀ e, ∀ i ∈ frameAddresses (gs e),
      i ≠ c.1 ∧ i ∉ addresses A ∧ i ∉ addresses B := fun e i hi ↦ by
    have hnot := (hs₂.disjoint e i hi).2
    rw [mem_addresses_node, not_or, not_or] at hnot
    exact hnot
  -- the two assignments to the root
  let m := modify s₂.head.nodes c.1 (Node.setChild .left (s₂.node .right))
  let m' := modify m c.1 (Node.setChild .right (s₂.node .left))
  have hm : links .right m c.1 = some (s₂.node .right, root B, c.2) := by
    have hset : links .right m c.1 = _ := links_setChild_other (d := .right)
    rw [hset, hlinks]
    rfl
  have hm' : links .right m' c.1 = some (s₂.node .right, s₂.node .left, c.2) := by
    rw [links_setChild, hm]
    rfl
  have hkeep : ∀ {l : List ι}, c.1 ∉ l → ∀ i ∈ l,
      links .left m' i = links .left s₂.head.nodes i := fun hl i hi ↦ by
    have hne : i ≠ c.1 := fun heq ↦ hl (heq ▸ hi)
    exact (links_modify_of_ne hne).trans (links_modify_of_ne hne)
  have hnot : ∀ e, c.1 ∉ frameAddresses (gs e) := fun e hi ↦ (hdisjoint e _ hi).1 rfl
  refine ⟨⟨some c.1, m'⟩, ?_, ⟨rfl, ⟨?_, linked_plug.2 ⟨hframes₁.congr (hkeep (hnot .right)),
    hA.congr (hkeep hcA)⟩, linked_plug.2 ⟨hframes.congr (hkeep (hnot .left)),
    hB.congr (hkeep hcB)⟩⟩, nodup_branch (d := .right).2 ⟨?_, ?_, ?_, ?_, fun i hi hi' ↦ ?_⟩⟩,
    fun j hj hframe ↦ ?_⟩
  · have hn' : n.left = root A := hleft
    have hn₁' : n₁.right = root B := hright₁
    rw [assemble, hroot, Option.bind_eq_bind, Option.bind_some, hn, Option.bind_eq_bind,
      Option.bind_some, hn', hset₁, Option.bind_eq_bind, Option.bind_some, hn₁,
      Option.bind_eq_bind, Option.bind_some, hn₁', hset₂, Option.bind_some,
      SplayHead.assign_of_links hlinks, Option.bind_some]
    refine (SplayHead.assign_of_links hm _ _).trans ?_
    show some (⟨s₂.head.sphRoot, m'⟩ : SplayHead ι κ) = _
    rw [hs₂.root_eq]
    rfl
  · rw [hm', hL, hR]
  · rw [mem_addresses_plug, not_or]
    exact ⟨hnot _, hcA⟩
  · rw [mem_addresses_plug, not_or]
    exact ⟨hnot _, hcB⟩
  · exact nodup_plug.2 ⟨hs₂.frames_nodup _, hAnodup, fun i hi ↦ (hdisjoint _ i hi).2.1⟩
  · exact nodup_plug.2 ⟨hs₂.frames_nodup _, hBnodup, fun i hi ↦ (hdisjoint _ i hi).2.2⟩
  · obtain hi | hi := mem_addresses_plug.1 hi <;> obtain hi' | hi' := mem_addresses_plug.1 hi'
    · exact (hs₂.disjoint .right i hi).1 hi'
    · exact (hdisjoint _ i hi).2.2 hi'
    · exact (hdisjoint _ i hi').2.1 hi
    · exact hAB i hi hi'
  · calc m' j = s₂.head.nodes j := (modify_of_ne hj).trans (modify_of_ne hj)
      _ = s₁.head.nodes j := hout j (hframe .left)
      _ = s.head.nodes j := hout₁ j (hframe .right)

/-! ### The loop -/

/-- From left to right the elements are compared with something that is farther and farther on the
left. -/
def Falls (comp : κ → ℤ) (l : List (ι × κ)) : Prop :=
  l.Pairwise fun a b ↦ (comp a.2 ≤ 0 → comp b.2 < 0) ∧ (0 ≤ comp b.2 → 0 < comp a.2)

/-- All elements, from left to right. -/
def elements (gs : Side → List (Frame ι κ)) (t : BinaryTree (ι × κ)) : List (ι × κ) :=
  before (gs .right) ++ inorder t ++ after (gs .left)

/-- On each side hang the elements on whose side the search goes on. -/
def Passed (comp : κ → ℤ) (gs : Side → List (Frame ι κ)) : Prop :=
  ∀ d, ∀ f ∈ gs d, Leads d (comp f.node.2) ∧ ∀ a ∈ inorder f.sibling, Leads d (comp a.2)

/-- The loop has come to its end with these elements: at the root is the one that compares equal, or
no child is on the side to which the comparison leads. What is none of them is as it was in
`mem`. -/
def Reached (comp : κ → ℤ) (l : List (ι × κ)) (mem : Memory ι κ) (s : Splaying ι κ) : Prop :=
  (∃ gs c A B, s.Apart gs (.node c A B) ∧ elements gs (.node c A B) = l ∧ Passed comp gs ∧
    (comp c.2 < 0 → A = .nil) ∧ (0 < comp c.2 → B = .nil)) ∧
  ∀ j ∉ l.map Prod.fst, s.head.nodes j = mem j

variable {comp : κ → ℤ} {fuel : ℕ}

omit [DecidableEq ι]

theorem Falls.leads (h : Falls comp (inorder (branch d c A B))) (hc : Leads d (comp c.2)) :
    ∀ a ∈ inorder A, Leads d (comp a.2) := by
  intro a ha
  cases d with
  | left =>
    have hpair := (List.pairwise_append.1 h).2.1
    exact ((List.pairwise_cons.1 hpair).1 a ha).1 (Int.le_of_lt hc)
  | right => exact ((List.pairwise_append.1 h).2.2 a ha c List.mem_cons_self).2 (Int.le_of_lt hc)

theorem Falls.outer (h : Falls comp (inorder (branch d c A B))) : Falls comp (inorder B) := by
  cases d with
  | left => exact (List.pairwise_append.1 h).1
  | right => exact (List.pairwise_cons.1 (List.pairwise_append.1 h).2.1).2

theorem after_eq_nil {fs : List (Frame ι κ)} (h : ∀ f ∈ fs, f.side = .right) : after fs = [] := by
  induction fs with
  | nil => rfl
  | cons f fs ih =>
    rw [after, h f List.mem_cons_self, ih fun g hg ↦ h g (List.mem_cons_of_mem f hg)]
    rfl

theorem before_eq_nil {fs : List (Frame ι κ)} (h : ∀ f ∈ fs, f.side = .left) : before fs = [] := by
  induction fs with
  | nil => rfl
  | cons f fs ih =>
    rw [before, h f List.mem_cons_self, ih fun g hg ↦ h g (List.mem_cons_of_mem f hg)]
    rfl

theorem branch_ne_nil (d : Side) (c : ι × κ) (A B : BinaryTree (ι × κ)) :
    branch d c A B ≠ .nil := by
  cases d <;> rintro ⟨⟩

/-- A rotation leaves the order as it is. -/
theorem inorder_rotate (d : Side) (c b : ι × κ) (A X Y : BinaryTree (ι × κ)) :
    inorder (branch d b (branch d c A X) Y) = inorder (branch d c A (branch d b X Y)) := by
  cases d <;> simp [branch, inorder]

theorem length_inorder_branch :
    (inorder (branch d c A B)).length = (inorder A).length + (inorder B).length + 1 := by
  cases d <;> simp [branch, inorder] <;> omega

theorem elements_link (gs : Side → List (Frame ι κ)) :
    elements (Function.update gs d (⟨d, c, A⟩ :: gs d)) B = elements gs (branch d c A B) := by
  cases d <;> simp [elements, before, after, branch, inorder, Function.update]

theorem Passed.link (hgs : Passed comp gs) (hfalls : Falls comp (inorder (branch d c A B)))
    (hc : Leads d (comp c.2)) : Passed comp (Function.update gs d (⟨d, c, A⟩ :: gs d)) := by
  intro e f hf
  rcases side_cases d e with rfl | rfl
  · rw [Function.update_self] at hf
    obtain rfl | hf := List.mem_cons.1 hf
    · exact ⟨hc, hfalls.leads hc⟩
    · exact hgs _ f hf
  · rw [Function.update_of_ne (other_ne _)] at hf
    exact hgs _ f hf

/-- The child to which the comparison leads is missing. -/
theorem Apart.reached_of_nil [DecidableEq ι] (hs : s.Apart gs (branch d c A .nil))
    (hgs : Passed comp gs) (hc : Leads d (comp c.2)) :
    Reached comp (elements gs (branch d c A .nil)) s.head.nodes s := by
  refine ⟨?_, fun _ _ ↦ rfl⟩
  cases d with
  | left =>
    exact ⟨gs, c, .nil, A, hs, rfl, hgs, fun _ ↦ rfl, fun hpos ↦ absurd hc (Int.lt_asymm hpos)⟩
  | right =>
    exact ⟨gs, c, A, .nil, hs, rfl, hgs, fun hneg ↦ absurd hc (Int.lt_asymm hneg), fun _ ↦ rfl⟩

theorem Reached.of_eq_outside {l : List (ι × κ)} {mem' : Memory ι κ} (h : Reached comp l mem' s)
    (hmem : ∀ j ∉ l.map Prod.fst, mem' j = mem j) : Reached comp l mem s :=
  ⟨h.1, fun j hj ↦ (h.2 j hj).trans (hmem j hj)⟩

/-- What hangs on a side is among the elements. -/
theorem Apart.mem_elements [DecidableEq ι] (hs : s.Apart gs t)
    (hi : i ∈ frameAddresses (gs d)) : i ∈ (elements gs t).map Prod.fst := by
  have hplug : i ∈ addresses (plug (gs d) .nil) := mem_addresses_plug.2 (Or.inl hi)
  rw [addresses, inorder_plug, inorder, List.append_nil] at hplug
  rw [elements, List.map_append, List.map_append, List.mem_append, List.mem_append]
  cases d with
  | left =>
    rw [before_eq_nil (hs.side_eq .left), List.nil_append] at hplug
    exact Or.inr hplug
  | right =>
    rw [after_eq_nil (hs.side_eq .right), List.append_nil] at hplug
    exact Or.inl (Or.inl hplug)

/-- **The loop ends**, and what it has reached are the elements that it began with. The induction is
on the rounds: each of them leaves the tree smaller by a node at least. -/
theorem loop_spec [DecidableEq ι] (hs : s.Apart gs t) (ht : t ≠ .nil)
    (hfalls : Falls comp (inorder t)) (hgs : Passed comp gs)
    (hfuel : (inorder t).length ≤ fuel) :
    ∃ s', loop comp fuel s = some s' ∧ Reached comp (elements gs t) s.head.nodes s' := by
  induction fuel generalizing s gs t with
  | zero =>
    cases t with
    | nil => exact absurd rfl ht
    | node c l r => simp [inorder] at hfuel
  | succ fuel ih =>
    -- the rest of a round that links the root
    have hlink : ∀ {s : Splaying ι κ} {d c A B}, s.Apart gs (branch d c A B) → B ≠ .nil →
        Falls comp (inorder (branch d c A B)) → Leads d (comp c.2) →
        (inorder (branch d c A B)).length ≤ fuel + 1 →
        ∃ s', (s.link d).bind (loop comp fuel) = some s' ∧
          Reached comp (elements gs (branch d c A B)) s.head.nodes s' := by
      intro s d c A B hs hB hfalls hc hlength
      obtain ⟨s', hrun, hs', hout⟩ := link_spec hs
      rw [length_inorder_branch] at hlength
      obtain ⟨s'', hloop, hreached⟩ :=
        ih hs' hB hfalls.outer (hgs.link hfalls hc) (by omega)
      rw [elements_link] at hreached
      exact ⟨s'', by rw [hrun, Option.bind_some, hloop],
        hreached.of_eq_outside fun j hj ↦ hout j (mt hs.mem_elements hj)⟩
    obtain ⟨c, l, r, rfl⟩ : ∃ c l r, t = .node c l r := by
      cases t with
      | nil => exact absurd rfl ht
      | node c l r => exact ⟨c, l, r, rfl⟩
    have hroot : s.head.sphRoot = some c.1 := hs.root_eq
    by_cases hzero : comp c.2 = 0
    · obtain ⟨n, hn, -, -, hdata⟩ := exists_node_of_links hs.linked.1
      refine ⟨s, ?_, ⟨gs, c, l, r, hs, rfl, hgs, fun hneg ↦ by omega, fun hpos ↦ by omega⟩,
        fun _ _ ↦ rfl⟩
      rw [loop, hroot, Option.bind_eq_bind, Option.bind_some, hn, Option.bind_eq_bind,
        Option.bind_some, hdata, if_pos hzero]
    obtain ⟨d, hd⟩ : ∃ d : Side, d = if comp c.2 < 0 then .left else .right := ⟨_, rfl⟩
    have hc : Leads d (comp c.2) := by
      rw [hd]
      split
      · assumption
      · show 0 < comp c.2
        omega
    obtain ⟨A, B, htree⟩ := exists_branch d c l r
    rw [htree] at hs hfalls hfuel ⊢
    obtain ⟨hlinks, -, hBlinked⟩ := linked_branch.1 hs.linked
    obtain ⟨n, hn, -, hchild, hdata⟩ := exists_node_of_links hlinks
    rw [loop, hroot, Option.bind_eq_bind, Option.bind_some, hn, Option.bind_eq_bind,
      Option.bind_some, hdata, if_neg hzero, ← hd]
    dsimp only
    rw [hchild]
    cases B with
    | nil => exact ⟨s, rfl, hs.reached_of_nil hgs hc⟩
    | node b l' r' =>
      obtain ⟨X, Y, hB⟩ := exists_branch d b l' r'
      rw [hB] at hs hfalls hfuel hBlinked ⊢
      obtain ⟨hlinks', -, -⟩ := linked_branch.1 hBlinked
      obtain ⟨m, hm, -, -, hmdata⟩ := exists_node_of_links hlinks'
      rw [root_branch]
      dsimp only
      rw [hm, Option.bind_eq_bind, Option.bind_some, hmdata]
      split
      next hb =>
        -- the grandchild comes up
        obtain ⟨h, hrotate, hs', hout⟩ := rotate_spec hs
        obtain ⟨n', hn', -, hchild', -⟩ :=
          exists_node_of_links (linked_branch.1 hs'.linked).1
        have hroot' : h.sphRoot = some b.1 := hs'.root_eq.trans root_branch
        have hn'' : h.nodes b.1 = some n' := hn'
        rw [← inorder_rotate] at hfalls hfuel
        have helements : elements gs (branch d c A (branch d b X Y)) =
            elements gs (branch d b (branch d c A X) Y) := by
          rw [elements, elements, inorder_rotate]
        rw [hrotate, Option.bind_some, hroot', Option.bind_some, hn'', Option.bind_some, hchild',
          helements]
        have houtside : ∀ j ∉ (elements gs (branch d b (branch d c A X) Y)).map Prod.fst,
            h.nodes j = s.head.nodes j := fun j hj ↦ hout j fun hi ↦ hj (by
          rw [← helements, elements, List.map_append, List.map_append]
          exact List.mem_append_left _ (List.mem_append_right _ hi))
        obtain ⟨s', hrun, hreached⟩ : ∃ s', (if root Y = none then some { s with head := h }
            else (link d { s with head := h }).bind (loop comp fuel)) = some s' ∧
              Reached comp (elements gs (branch d b (branch d c A X) Y)) h.nodes s' := by
          cases Y with
          | nil => exact ⟨_, rfl, hs'.reached_of_nil hgs hb⟩
          | node => exact hlink hs' (fun heq ↦ by cases heq) hfalls hb hfuel
        exact ⟨s', hrun, hreached.of_eq_outside houtside⟩
      next => exact hlink hs (branch_ne_nil d b X Y) hfalls hc hfuel

/-! ### The whole -/

/-- What hangs on a side comes from its frames. -/
theorem mem_inorder_plug_nil {fs : List (Frame ι κ)} (h : b ∈ inorder (plug fs .nil)) :
    ∃ f ∈ fs, b = f.node ∨ b ∈ inorder f.sibling := by
  rw [inorder_plug, inorder, List.append_nil] at h
  induction fs with
  | nil => cases h
  | cons f fs ih =>
    have hcases : b ∈ before fs ++ after fs ∨ b = f.node ∨ b ∈ inorder f.sibling := by
      cases hside : f.side <;> simp only [before, after, hside] at h <;>
        simp only [List.mem_append, List.mem_cons, List.not_mem_nil, or_false] at h ⊢ <;> tauto
    obtain hmem | hf := hcases
    · obtain ⟨g, hg, heq⟩ := ih hmem
      exact ⟨g, List.mem_cons_of_mem f hg, heq⟩
    · exact ⟨f, List.mem_cons_self, hf⟩

end Splaying

namespace SplayHead

open Splaying

variable {comp : κ → ℤ} {fuel : ℕ}

/-- **Splaying keeps the elements in their order**, and brings one to the root that no other is
closer than: if the comparison leads to a side of it, everything there is beyond what is
compared. -/
theorem splay_spec (hh : Held h.nodes h.sphRoot t) (ht : t ≠ .nil) (hfalls : Falls comp (inorder t))
    (hfuel : (inorder t).length ≤ fuel) :
    ∃ h' c A B, h.splay comp fuel = some h' ∧ Held h'.nodes h'.sphRoot (.node c A B) ∧
      inorder (.node c A B) = inorder t ∧ (comp c.2 < 0 → ∀ a ∈ inorder A, 0 < comp a.2) ∧
      (0 < comp c.2 → ∀ a ∈ inorder B, comp a.2 < 0) ∧
      ∀ j ∉ addresses t, h'.nodes j = h.nodes j := by
  have hapart : Apart ⟨h, fun _ ↦ none, fun _ ↦ none⟩ (fun _ ↦ []) t := by
    refine ⟨hh.root_eq, hh.linked, hh.nodup, fun _ ↦ ⟨none, trivial⟩, fun _ ↦ List.nodup_nil,
      fun _ i hi ↦ ?_, fun _ f hf ↦ ?_, fun _ ↦ rfl, fun _ hne ↦ absurd rfl hne⟩
    · cases hi
    · cases hf
  have hpassed : Passed comp (fun _ ↦ [] : Side → List (Frame ι κ)) := fun _ f hf ↦ by cases hf
  obtain ⟨s, hloop, ⟨gs, c, A, B, hs, helements, hgs, hA, hB⟩, hout⟩ :=
    loop_spec hapart ht hfalls hpassed hfuel
  obtain ⟨h', hassemble, hheld, hout'⟩ := assemble_spec hs
  have hsame : elements (fun _ ↦ [] : Side → List (Frame ι κ)) t = inorder t :=
    List.append_nil _
  rw [hsame] at helements hout
  refine ⟨h', c, _, _, ?_, hheld, ?_, fun hneg a ha ↦ ?_, fun hpos a ha ↦ ?_, fun j hj ↦ ?_⟩
  · rw [splay, hloop, Option.bind_some, hassemble]
  · rw [← helements, elements, inorder, inorder, inorder_plug, inorder_plug,
      after_eq_nil (hs.side_eq .right), before_eq_nil (hs.side_eq .left)]
    simp
  · rw [hA hneg] at ha
    obtain ⟨f, hf, rfl | ha⟩ := mem_inorder_plug_nil ha
    · exact (hgs .right f hf).1
    · exact (hgs .right f hf).2 a ha
  · rw [hB hpos] at ha
    obtain ⟨f, hf, rfl | ha⟩ := mem_inorder_plug_nil ha
    · exact (hgs .left f hf).1
    · exact (hgs .left f hf).2 a ha
  · refine (hout' j (fun heq ↦ hj ?_) fun d hi ↦ hj ?_).trans (hout j hj)
    · rw [heq, addresses, ← helements]
      exact List.mem_map_of_mem (List.mem_append_left _
        (List.mem_append_right _ (List.mem_append_right _ List.mem_cons_self)))
    · rw [addresses, ← helements]
      exact hs.mem_elements hi

/-! ### The keys -/

/-- The keys of the elements in memory. -/
def keyOf (h : SplayHead ι κ) (i : ι) : Option κ := (h.nodes i).map Node.data

variable {h' : SplayHead ι κ} {s' : Splaying ι κ}

theorem keyOf_assign (hrun : h.assign i d p = some h') : h'.keyOf = h.keyOf := by
  obtain ⟨n, hn, rfl⟩ := Option.map_eq_some_iff.1 hrun
  funext j
  show (modify h.nodes i (Node.setChild d p) j).map Node.data = (h.nodes j).map Node.data
  by_cases hj : j = i
  · rw [hj, modify_self, hn, Option.map_some, Option.map_some, Option.map_some,
      Node.data_setChild]
  · rw [modify_of_ne hj]

theorem keyOf_rotate (hrun : h.rotate d i = some h') : h'.keyOf = h.keyOf := by
  obtain ⟨r, -, hrun⟩ := Option.bind_eq_some_iff.1 hrun
  obtain ⟨n, -, hrun⟩ := Option.bind_eq_some_iff.1 hrun
  obtain ⟨h₁, hrun₁, hrun⟩ := Option.bind_eq_some_iff.1 hrun
  obtain ⟨h₂, hrun₂, hrun⟩ := Option.bind_eq_some_iff.1 hrun
  obtain rfl := Option.some.inj hrun
  exact (keyOf_assign hrun₂).trans (keyOf_assign hrun₁)

theorem keyOf_setTail (hrun : s.setTail d p = some s') : s'.head.keyOf = s.head.keyOf := by
  rw [setTail] at hrun
  split at hrun
  · obtain rfl := Option.some.inj hrun
    rfl
  · obtain ⟨h₁, hrun₁, rfl⟩ := Option.map_eq_some_iff.1 hrun
    exact keyOf_assign hrun₁

theorem keyOf_link (hrun : s.link d = some s') : s'.head.keyOf = s.head.keyOf := by
  obtain ⟨r, -, hrun⟩ := Option.bind_eq_some_iff.1 hrun
  obtain ⟨s₁, hrun₁, hrun⟩ := Option.bind_eq_some_iff.1 hrun
  obtain ⟨n, -, hrun⟩ := Option.bind_eq_some_iff.1 hrun
  obtain rfl := Option.some.inj hrun
  exact (keyOf_setTail hrun₁ :)

theorem keyOf_assemble (hrun : s.assemble = some h) : h.keyOf = s.head.keyOf := by
  obtain ⟨r, -, hrun⟩ := Option.bind_eq_some_iff.1 hrun
  obtain ⟨n, -, hrun⟩ := Option.bind_eq_some_iff.1 hrun
  obtain ⟨s₁, hrun₁, hrun⟩ := Option.bind_eq_some_iff.1 hrun
  obtain ⟨n₁, -, hrun⟩ := Option.bind_eq_some_iff.1 hrun
  obtain ⟨s₂, hrun₂, hrun⟩ := Option.bind_eq_some_iff.1 hrun
  obtain ⟨h₃, hrun₃, hrun₄⟩ := Option.bind_eq_some_iff.1 hrun
  exact (keyOf_assign hrun₄).trans ((keyOf_assign hrun₃).trans
    ((keyOf_setTail hrun₂).trans (keyOf_setTail hrun₁)))

theorem keyOf_loop (hrun : Splaying.loop comp fuel s = some s') :
    s'.head.keyOf = s.head.keyOf := by
  induction fuel generalizing s with
  | zero => cases hrun
  | succ fuel ih =>
    have hlink : ∀ {s₁ : Splaying ι κ} {d}, (s₁.link d).bind (Splaying.loop comp fuel) = some s' →
        s'.head.keyOf = s₁.head.keyOf := fun h ↦ by
      obtain ⟨s₂, hrun₂, h⟩ := Option.bind_eq_some_iff.1 h
      exact (ih h).trans (keyOf_link hrun₂)
    obtain ⟨r, -, hrun⟩ := Option.bind_eq_some_iff.1 hrun
    obtain ⟨n, -, hrun⟩ := Option.bind_eq_some_iff.1 hrun
    split at hrun
    · obtain rfl := Option.some.inj hrun
      rfl
    dsimp only at hrun
    generalize (if comp n.data < 0 then Side.left else Side.right) = d at hrun
    split at hrun
    · obtain rfl := Option.some.inj hrun
      rfl
    obtain ⟨m, -, hrun⟩ := Option.bind_eq_some_iff.1 hrun
    split at hrun
    · obtain ⟨h₁, hrun₁, hrun⟩ := Option.bind_eq_some_iff.1 hrun
      obtain ⟨r₁, -, hrun⟩ := Option.bind_eq_some_iff.1 hrun
      obtain ⟨n₁, -, hrun⟩ := Option.bind_eq_some_iff.1 hrun
      split at hrun
      · obtain rfl := Option.some.inj hrun
        exact keyOf_rotate hrun₁
      · exact (hlink hrun).trans (keyOf_rotate hrun₁)
    · exact hlink hrun

theorem keyOf_splay (hrun : h.splay comp fuel = some h') : h'.keyOf = h.keyOf := by
  obtain ⟨s, hloop, hassemble⟩ := Option.bind_eq_some_iff.1 hrun
  exact (keyOf_assemble hassemble).trans (keyOf_loop hloop)

end SplayHead

end PreforkHttpd
